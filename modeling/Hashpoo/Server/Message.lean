import Hashpoo.Server.Types

/-!
# Websocket messages received by the server

`processMessage` is `main.rs::process_message` with its index operations checked: an
index past the end is the panic it is in the source, and the release profile turns that
panic into the end of the server. The result carries the messages sent to
`client_channel` and whether the receive loop goes on.
-/

namespace Hashpoo

/-- `axum::extract::ws::Message`. The payloads of the other kinds are only logged. -/
inductive WsMessage where
  | text
  | binary (d : List UInt8)
  | close
  | pong
  | ping

/-! ## Checked reads -/

/-- `d[i]`. -/
def index (d : List UInt8) (i : Nat) : Except Panic UInt8 :=
  match d[i]? with
  | some b => .ok b
  | none => .error .indexOutOfBounds

/-- `for i in 0..n { out[i] = d[i + b_index]; }`. -/
def copyLoop (d : List UInt8) (bIndex : Nat) : (n : Nat) → Except Panic (Bytes n)
  | 0 => .ok ⟨[], rfl⟩
  | n + 1 => do
      let out ← copyLoop d bIndex n
      let b ← index d (n + bIndex)
      return ⟨out.val ++ [b], by simp [out.property]⟩

/-- `d[b_index..].to_vec()`. -/
def tailFrom (d : List UInt8) (bIndex : Nat) : Except Panic (List UInt8) :=
  if bIndex ≤ d.length then .ok (d.drop bIndex) else .error .indexOutOfBounds

/-- `String::from_utf8`. -/
def fromUtf8 (bytes : List UInt8) : Option String := String.fromUTF8? ⟨bytes.toArray⟩

/-- The UTF-8 encoding of a text. -/
def utf8 (text : String) : List UInt8 := text.toByteArray.data.toList

/-! ## The decoder -/

/-- The checks on the text, the signature and the key after the fixed-size fields. -/
def verifySolution (sdk : SignatureScheme) (who : SocketAddr) (solution : Solution)
    (pubkey : Pubkey) (signatureBytes : List UInt8) : List ClientMessage :=
  match fromUtf8 signatureBytes with
  | some sigStr =>
      match sdk.fromStr sigStr with
      | some sig =>
          if sdk.verify sig pubkey (solution.d.val ++ solution.n.val) then
            [.bestSolution who solution pubkey]
          else
            []
      | none => []
  | none => []

/-- The branch of message type 2. -/
def processSolution (sdk : SignatureScheme) (who : SocketAddr) (d : List UInt8) :
    Except Panic (List ClientMessage) := do
  let solutionBytes ← copyLoop d 1 16
  let nonce ← copyLoop d (1 + 16) 8
  let pubkey ← copyLoop d (1 + 16 + 8) 32
  let signatureBytes ← tailFrom d (1 + 16 + 8 + 32)
  return verifySolution sdk who ⟨solutionBytes, nonce⟩ pubkey signatureBytes

/-- The branches on the message type, the first byte. -/
def processBinary (sdk : SignatureScheme) (who : SocketAddr) (d : List UInt8) :
    Except Panic (List ClientMessage) := do
  let messageType ← index d 0
  if messageType = 0 then
    return [.ready who]
  else if messageType = 1 then
    return [.mining who]
  else if messageType = 2 then
    processSolution sdk who d
  else
    return []

/-- `process_message`. -/
def processMessage (sdk : SignatureScheme) (msg : WsMessage) (who : SocketAddr) :
    Except Panic (List ClientMessage × ControlFlow) :=
  match msg with
  | .text => .ok ([], .continue)
  | .binary d => (processBinary sdk who d).map (·, .continue)
  | .close => .ok ([], .break)
  | .pong => .ok ([.pong who], .continue)
  | .ping => .ok ([], .continue)

/-- The messages that reach `client_channel`: none when the handler panics. -/
def forwarded : Except Panic (List ClientMessage × ControlFlow) → List ClientMessage
  | .ok (sent, _) => sent
  | .error _ => []

/-! ## What the reads return -/

theorem index_eq {d : List UInt8} {i : Nat} (h : i < d.length) : index d i = .ok d[i] := by
  simp [index, List.getElem?_eq_getElem h]

theorem index_error {d : List UInt8} {i : Nat} (h : d.length ≤ i) :
    index d i = .error .indexOutOfBounds := by
  simp [index, List.getElem?_eq_none h]

theorem length_take_drop {d : List UInt8} {bIndex n : Nat} (h : bIndex + n ≤ d.length) :
    ((d.drop bIndex).take n).length = n := by
  rw [List.length_take, List.length_drop]
  omega

/-- The copy loop reads a block of the message when the message reaches that far. -/
theorem copyLoop_eq {d : List UInt8} {bIndex n : Nat} (h : bIndex + n ≤ d.length) :
    copyLoop d bIndex n = .ok ⟨(d.drop bIndex).take n, length_take_drop h⟩ := by
  induction n with
  | zero => simp [copyLoop]
  | succ n ih =>
      have hlast : n + bIndex < d.length := by omega
      simp only [copyLoop, ih (by omega), index_eq hlast, bind, Except.bind, pure, Except.pure]
      congr 2
      rw [List.take_add_one, List.getElem?_drop, Nat.add_comm bIndex n,
        List.getElem?_eq_getElem hlast]
      rfl

/-- A message that ends inside the block makes the loop panic. -/
theorem copyLoop_error {d : List UInt8} {bIndex n : Nat} (hn : 0 < n)
    (h : d.length < bIndex + n) : copyLoop d bIndex n = .error .indexOutOfBounds := by
  induction n with
  | zero => omega
  | succ n ih =>
      by_cases hshort : 0 < n ∧ d.length < bIndex + n
      · simp only [copyLoop, ih hshort.1 hshort.2, bind, Except.bind]
      · -- The last index of the block is the first one past the end.
        have hlast : d.length ≤ n + bIndex := by omega
        cases hinit : copyLoop d bIndex n with
        | ok out => simp only [copyLoop, hinit, index_error hlast, bind, Except.bind]
        | error p =>
            by_cases hzero : n = 0
            · subst hzero
              simp [copyLoop] at hinit
            · rw [copyLoop_eq (by omega)] at hinit
              cases hinit

/-- A loop at the start of a field reads the field. -/
theorem copyLoop_of_drop {d rest : List UInt8} {bIndex n : Nat} {field : Bytes n}
    (h : d.drop bIndex = field.val ++ rest) : copyLoop d bIndex n = .ok field := by
  have hlength := congrArg List.length h
  rw [List.length_drop, List.length_append, field.property] at hlength
  by_cases hn : n = 0
  · subst hn
    rw [copyLoop]
    exact congrArg _ (Subtype.ext (List.length_eq_zero_iff.mp field.property).symm)
  · rw [copyLoop_eq (by omega)]
    apply congrArg
    apply Subtype.ext
    change (d.drop bIndex).take n = field.val
    rw [h, List.take_left' field.property]

/-- Behind the field comes what follows it. -/
theorem drop_of_drop {d rest : List UInt8} {bIndex n : Nat} {field : Bytes n}
    (h : d.drop bIndex = field.val ++ rest) : d.drop (bIndex + n) = rest := by
  rw [← List.drop_drop, h, List.drop_left' field.property]

/-- Decoding and encoding of texts are inverse to each other. -/
theorem fromUtf8_eq_some {bytes : List UInt8} {text : String} :
    fromUtf8 bytes = some text ↔ bytes = utf8 text := by
  rw [fromUtf8, utf8, String.fromUTF8?]
  split
  · next h =>
    simp only [Option.some.injEq]
    constructor
    · rintro rfl
      rfl
    · intro hbytes
      subst hbytes
      rfl
  · next h =>
    simp only [reduceCtorEq, false_iff]
    rintro rfl
    exact h text.isValidUTF8

/-! ## Which messages carry a solution -/

/-- The message is `2`, a digest, a nonce, a key and the text of a signature of digest
and nonce under the key. -/
def SignedSolution (sdk : SignatureScheme) (d : List UInt8) (solution : Solution)
    (pubkey : Pubkey) : Prop :=
  ∃ text sig, d = 2 :: (solution.d.val ++ (solution.n.val ++ (pubkey.val ++ utf8 text))) ∧
    sdk.fromStr text = some sig ∧
    sdk.verify sig pubkey (solution.d.val ++ solution.n.val) = true

theorem mem_verifySolution {sdk : SignatureScheme} {who : SocketAddr} {solution : Solution}
    {pubkey : Pubkey} {signatureBytes : List UInt8} {message : ClientMessage} :
    message ∈ verifySolution sdk who solution pubkey signatureBytes ↔
      message = .bestSolution who solution pubkey ∧ ∃ text sig,
        signatureBytes = utf8 text ∧ sdk.fromStr text = some sig ∧
        sdk.verify sig pubkey (solution.d.val ++ solution.n.val) = true := by
  rw [verifySolution]
  cases htext : fromUtf8 signatureBytes with
  | none =>
      simp only [List.not_mem_nil, false_iff, not_and, not_exists]
      intro _ text sig hbytes
      rw [fromUtf8_eq_some.mpr hbytes] at htext
      cases htext
  | some text =>
      have hbytes := fromUtf8_eq_some.mp htext
      have hunique : ∀ text', signatureBytes = utf8 text' → text' = text := by
        intro text' h
        rw [fromUtf8_eq_some.mpr h] at htext
        exact Option.some.inj htext
      constructor
      · cases hsig : sdk.fromStr text with
        | none => simp [hsig]
        | some sig =>
            intro hmem
            by_cases hverify : sdk.verify sig pubkey (solution.d.val ++ solution.n.val) = true
            · simp only [hsig, hverify, if_true, List.mem_singleton] at hmem
              exact ⟨hmem, text, sig, hbytes, hsig, hverify⟩
            · simp [hsig, hverify] at hmem
      · rintro ⟨rfl, text', sig, h, hsig, hverify⟩
        cases hunique text' h
        simp [hsig, hverify]

/-- The fixed-size fields of a message that is long enough to hold them. -/
def solutionOf (d : List UInt8) (h : 57 ≤ d.length) : Solution :=
  ⟨⟨(d.drop 1).take 16, by simp; omega⟩, ⟨(d.drop 17).take 8, by simp; omega⟩⟩

def pubkeyOf (d : List UInt8) (h : 57 ≤ d.length) : Pubkey :=
  ⟨(d.drop 25).take 32, by simp; omega⟩

theorem processSolution_eq (sdk : SignatureScheme) (who : SocketAddr) {d : List UInt8}
    (h : 57 ≤ d.length) : processSolution sdk who d =
      .ok (verifySolution sdk who (solutionOf d h) (pubkeyOf d h) (d.drop 57)) := by
  have htail : tailFrom d (1 + 16 + 8 + 32) = .ok (d.drop 57) := if_pos h
  simp only [processSolution, @copyLoop_eq d 1 16 (by omega),
    @copyLoop_eq d (1 + 16) 8 (by omega),
    @copyLoop_eq d (1 + 16 + 8) 32 (by omega), htail, bind, Except.bind]
  rfl

/-- A message of type 2 that ends before the signature makes one of the loops panic. -/
theorem processSolution_error (sdk : SignatureScheme) (who : SocketAddr) {d : List UInt8}
    (h : d.length < 57) : processSolution sdk who d = .error .indexOutOfBounds := by
  rw [processSolution]
  by_cases hdigest : d.length < 1 + 16
  · rw [copyLoop_error (by omega) hdigest]
    rfl
  rw [copyLoop_eq (by omega)]
  by_cases hnonce : d.length < 1 + 16 + 8
  · rw [copyLoop_error (by omega) hnonce]
    rfl
  rw [copyLoop_eq (by omega), copyLoop_error (by omega) h]
  rfl

theorem solution_append_eq {d : List UInt8} (h : 57 ≤ d.length) {b : UInt8}
    (hhead : d.head? = some b) :
    d = b :: ((solutionOf d h).d.val ++ ((solutionOf d h).n.val ++
      ((pubkeyOf d h).val ++ d.drop 57))) := by
  cases d with
  | nil => cases hhead
  | cons b' rest =>
      cases hhead
      have h32 : rest.drop 24 = (rest.drop 24).take 32 ++ rest.drop 56 := by
        rw [← List.drop_drop (i := 32) (j := 24), List.take_append_drop]
      have h8 : rest.drop 16 = (rest.drop 16).take 8 ++ rest.drop 24 := by
        rw [← List.drop_drop (i := 8) (j := 16), List.take_append_drop]
      change b :: rest = b :: (rest.take 16 ++ ((rest.drop 16).take 8 ++
        ((rest.drop 24).take 32 ++ rest.drop 56)))
      rw [← h32, ← h8, List.take_append_drop]

/-- The layout determines the fields. -/
theorem signedSolution_iff {sdk : SignatureScheme} {d : List UInt8} (h : 57 ≤ d.length)
    (hhead : d.head? = some 2) {solution : Solution} {pubkey : Pubkey} :
    SignedSolution sdk d solution pubkey ↔
      solution = solutionOf d h ∧ pubkey = pubkeyOf d h ∧ ∃ text sig,
        d.drop 57 = utf8 text ∧ sdk.fromStr text = some sig ∧
        sdk.verify sig pubkey (solution.d.val ++ solution.n.val) = true := by
  have hlayout := solution_append_eq h hhead
  constructor
  · rintro ⟨text, sig, hd, hsig, hverify⟩
    have heq := (List.cons.inj (hlayout.symm.trans hd)).2
    obtain ⟨hdigest, heq⟩ := List.append_inj heq
      ((solutionOf d h).d.property.trans solution.d.property.symm)
    obtain ⟨hnonce, heq⟩ := List.append_inj heq
      ((solutionOf d h).n.property.trans solution.n.property.symm)
    obtain ⟨hkey, htail⟩ := List.append_inj heq
      ((pubkeyOf d h).property.trans pubkey.property.symm)
    refine ⟨?_, Subtype.ext hkey.symm, text, sig, htail, hsig, hverify⟩
    cases solution
    exact congrArg₂ Solution.mk (Subtype.ext hdigest.symm) (Subtype.ext hnonce.symm)
  · rintro ⟨rfl, rfl, text, sig, htail, hsig, hverify⟩
    exact ⟨text, sig, by rw [← htail]; exact hlayout, hsig, hverify⟩

/-- The handler returns, and a solution is forwarded exactly for the messages that
carry it, signed. -/
def DecodesSafely (sdk : SignatureScheme) (who : SocketAddr) (d : List UInt8) : Prop :=
  (∃ sent, processMessage sdk (.binary d) who = .ok (sent, .continue)) ∧
    ∀ solution pubkey,
      .bestSolution who solution pubkey ∈ forwarded (processMessage sdk (.binary d) who) ↔
        SignedSolution sdk d solution pubkey

/-- No message of another type is a signed solution, and none is forwarded as one. -/
theorem decodesSafely_of_other_type {sdk : SignatureScheme} {who : SocketAddr} {b : UInt8}
    {rest : List UInt8} (htype : b ≠ 2) : DecodesSafely sdk who (b :: rest) := by
  have hnot : ∀ solution pubkey, ¬ SignedSolution sdk (b :: rest) solution pubkey := by
    rintro solution pubkey ⟨text, sig, hd, -⟩
    exact htype (List.cons.inj hd).1
  have hindex : index (b :: rest) 0 = .ok b := rfl
  have hbinary : ∃ sent, processBinary sdk who (b :: rest) = .ok sent ∧
      ∀ solution pubkey, ClientMessage.bestSolution who solution pubkey ∉ sent := by
    simp only [processBinary, hindex, bind, Except.bind]
    by_cases h0 : b = 0
    · exact ⟨[.ready who], by simp [h0, pure, Except.pure], by simp⟩
    · by_cases h1 : b = 1
      · exact ⟨[.mining who], by simp [h1, pure, Except.pure], by simp⟩
      · exact ⟨[], by simp [h0, h1, htype, pure, Except.pure], by simp⟩
  obtain ⟨sent, hsent, hnone⟩ := hbinary
  have hmessage : processMessage sdk (.binary (b :: rest)) who = .ok (sent, .continue) := by
    rw [processMessage, hsent]
    rfl
  refine ⟨⟨sent, hmessage⟩, ?_⟩
  intro solution pubkey
  rw [hmessage]
  exact iff_of_false (hnone solution pubkey) (hnot solution pubkey)

theorem decodesSafely_solution {sdk : SignatureScheme} {who : SocketAddr} {rest : List UInt8}
    (h : 57 ≤ (2 :: rest).length) : DecodesSafely sdk who (2 :: rest) := by
  have hmessage : processMessage sdk (.binary (2 :: rest)) who =
      .ok (verifySolution sdk who (solutionOf _ h) (pubkeyOf _ h) ((2 :: rest).drop 57),
        .continue) := by
    change (processSolution sdk who (2 :: rest)).map (·, ControlFlow.continue) = _
    rw [processSolution_eq sdk who h]
    rfl
  refine ⟨⟨_, hmessage⟩, ?_⟩
  intro solution pubkey
  rw [hmessage, signedSolution_iff h rfl]
  change _ ∈ verifySolution _ _ _ _ _ ↔ _
  rw [mem_verifySolution]
  constructor
  · rintro ⟨hmsg, hsigned⟩
    injection hmsg with _ hsolution hpubkey
    subst hsolution hpubkey
    exact ⟨rfl, rfl, hsigned⟩
  · rintro ⟨rfl, rfl, hsigned⟩
    exact ⟨rfl, hsigned⟩

/-- The handler survives a binary message exactly when the message is not empty and,
being of type 2, reaches the signature. On all of those it decodes as intended. -/
theorem decodesSafely_iff (sdk : SignatureScheme) (who : SocketAddr) (d : List UInt8) :
    DecodesSafely sdk who d ↔ d ≠ [] ∧ (d.head? = some 2 → 57 ≤ d.length) := by
  constructor
  · rintro ⟨⟨sent, hsent⟩, -⟩
    cases d with
    | nil => cases hsent
    | cons b rest =>
        refine ⟨List.cons_ne_nil b rest, ?_⟩
        intro htype
        cases htype
        by_contra hshort
        change (processSolution sdk who (2 :: rest)).map (·, ControlFlow.continue) = _ at hsent
        rw [processSolution_error sdk who (by omega)] at hsent
        cases hsent
  · rintro ⟨hne, hlong⟩
    cases d with
    | nil => exact absurd rfl hne
    | cons b rest =>
        by_cases htype : b = 2
        · subst htype
          exact decodesSafely_solution (hlong rfl)
        · exact decodesSafely_of_other_type htype

/-- The empty binary message already ends the server. -/
theorem not_decodesSafely_empty : ¬ ∀ sdk who d, DecodesSafely sdk who d := by
  intro h
  obtain ⟨⟨sent, hsent⟩, -⟩ := h ⟨Unit, fun _ => none, fun _ _ _ => false⟩ 0 []
  cases hsent

end Hashpoo
