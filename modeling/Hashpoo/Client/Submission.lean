import Hashpoo.Client.Message

/-!
# Submissions of a client

`submission_processor` of `mine.rs` and of `turbomine.rs`, two copies of one text. It
receives what the worker threads find, keeps back what is not better than the best
submission since the last `Reset`, and signs and sends the rest. The server reads back
what is sent: `processMessage_bestSolution` compares the two layouts.
-/

namespace Hashpoo.Client

open Foundation

structure ThreadSubmission where
  nonce : UInt64
  difficulty : Nat
  d : Digest
  deriving DecidableEq

inductive MessageSubmissionProcessor where
  | submission (s : ThreadSubmission)
  | reset
  | finish
  deriving DecidableEq

/-- What the client uses of `solana_sdk`, next to what the server uses. -/
structure SigningScheme extends SignatureScheme where
  Keypair : Type
  /-- `key.pubkey().to_bytes()`. -/
  pubkey : Keypair → Pubkey
  /-- `key.sign_message(&message)`. -/
  signMessage : Keypair → List UInt8 → Signature
  /-- `signature.to_string()`. -/
  toString : Signature → String

/-- The text of a signature is parsed back to it, and a signature of 24 bytes is verified
under the key that made it. -/
structure SigningScheme.Lawful (sdk : SigningScheme) : Prop where
  fromStr_toString : ∀ signature, sdk.fromStr (sdk.toString signature) = some signature
  verify_signMessage : ∀ key message, message.length = 24 →
    sdk.verify (sdk.signMessage key message) (sdk.pubkey key) message = true

/-! ## The message -/

/-- `data[start..start + src.len()].copy_from_slice(&src)`. -/
def copyFromSlice (data : List UInt8) (start : Nat) (src : List UInt8) : List UInt8 :=
  data.take start ++ (src ++ data.drop (start + src.length))

/-- A field that is written behind the fields already filled in. -/
theorem copyFromSlice_replicate {filled src : List UInt8} {start n : Nat}
    (h : filled.length = start) : copyFromSlice (filled ++ List.replicate n 0) start src =
      filled ++ src ++ List.replicate (n - src.length) 0 := by
  rw [copyFromSlice, List.take_left' h, ← List.drop_drop, List.drop_left' h,
    List.drop_replicate, List.append_assoc]

/-- The signed bytes: `hash_nonce_message`. -/
def hashNonceMessage (s : ThreadSubmission) : List UInt8 :=
  let message := List.replicate 24 0
  let message := copyFromSlice message 0 s.d.val
  copyFromSlice message 16 (u64LeBytes s.nonce).val

/-- The fields before the signature: `bin_data`. -/
def binData (pubkey : Pubkey) (s : ThreadSubmission) : List UInt8 :=
  let data := List.replicate 57 0
  let data := copyFromSlice data 0 [2]
  let data := copyFromSlice data 1 s.d.val
  let data := copyFromSlice data 17 (u64LeBytes s.nonce).val
  copyFromSlice data 25 pubkey.val

/-- The message of one submission: `bin_vec`. -/
def binVec (sdk : SigningScheme) (key : sdk.Keypair) (s : ThreadSubmission) : List UInt8 :=
  binData (sdk.pubkey key) s ++ utf8 (sdk.toString (sdk.signMessage key (hashNonceMessage s)))

theorem hashNonceMessage_eq (s : ThreadSubmission) :
    hashNonceMessage s = s.d.val ++ (u64LeBytes s.nonce).val := by
  have hd := s.d.property
  have hn := (u64LeBytes s.nonce).property
  rw [hashNonceMessage, ← List.nil_append (List.replicate 24 (0 : UInt8)),
    @copyFromSlice_replicate [] _ 0 _ rfl, copyFromSlice_replicate (by simp [hd])]
  simp [hd, hn]

theorem binData_eq (pubkey : Pubkey) (s : ThreadSubmission) :
    binData pubkey s = 2 :: (s.d.val ++ ((u64LeBytes s.nonce).val ++ pubkey.val)) := by
  have hd := s.d.property
  have hn := (u64LeBytes s.nonce).property
  have hp := pubkey.property
  rw [binData, ← List.nil_append (List.replicate 57 (0 : UInt8)),
    @copyFromSlice_replicate [] _ 0 _ rfl, copyFromSlice_replicate (by simp),
    copyFromSlice_replicate (by simp [hd]), copyFromSlice_replicate (by simp [hd, hn])]
  simp [hd, hn, hp]

/-! ## The processor -/

/-- The submissions that go out, with `bestDiff` the best difficulty since the last reset.
`Finish` ends the processor. -/
def sentSubmissions (bestDiff : Nat) : List MessageSubmissionProcessor → List ThreadSubmission
  | [] => []
  | .submission s :: messages =>
      if s.difficulty > bestDiff then s :: sentSubmissions s.difficulty messages
      else sentSubmissions bestDiff messages
  | .reset :: messages => sentSubmissions 0 messages
  | .finish :: _ => []

/-- `submission_processor`: the websocket messages for the content of its channel. -/
def submissionProcessor (sdk : SigningScheme) (key : sdk.Keypair)
    (messages : List MessageSubmissionProcessor) : List WsMessage :=
  (sentSubmissions 0 messages).map fun s => .binary (binVec sdk key s)

/-- `mine.rs::submission_processor`. -/
def Mine.submissionProcessor := Client.submissionProcessor

/-- `turbomine.rs::submission_processor`. -/
def Turbomine.submissionProcessor := Client.submissionProcessor

/-! ## What the server reads -/

/-- The submission as the server takes it. -/
def ThreadSubmission.solution (s : ThreadSubmission) : Solution := ⟨s.d, u64LeBytes s.nonce⟩

theorem ThreadSubmission.nonce_solution (s : ThreadSubmission) :
    s.solution.nonce = s.nonce.toNat := by
  have hnonce : s.nonce.toNat < 256 ^ 8 := s.nonce.toNat_lt
  show Word.fromLeBytes (Word.toLeBytes 8 s.nonce.toNat) = s.nonce.toNat
  rw [Word.fromLeBytes_toLeBytes, Nat.mod_eq_of_lt hnonce]

/-- One message of the client is one accepted `BestSolution` of the server. -/
theorem processMessage_bestSolution {sdk : SigningScheme} (h : sdk.Lawful) (key : sdk.Keypair)
    (s : ThreadSubmission) (who : SocketAddr) :
    Hashpoo.processMessage sdk.toSignatureScheme (.binary (binVec sdk key s)) who =
      .ok ([.bestSolution who s.solution (sdk.pubkey key)], .continue) := by
  let text := sdk.toString (sdk.signMessage key (hashNonceMessage s))
  have hbytes : binVec sdk key s = 2 :: (s.d.val ++ ((u64LeBytes s.nonce).val ++
      ((sdk.pubkey key).val ++ utf8 text))) := by
    rw [binVec, binData_eq]
    simp only [List.cons_append, List.append_assoc, text]
  have hverify : sdk.verify (sdk.signMessage key (hashNonceMessage s)) (sdk.pubkey key)
      (s.d.val ++ (u64LeBytes s.nonce).val) = true := by
    rw [← hashNonceMessage_eq]
    refine h.verify_signMessage key _ ?_
    rw [hashNonceMessage_eq, List.length_append, s.d.property, (u64LeBytes s.nonce).property]
  have hindex : index (binVec sdk key s) 0 = .ok 2 := by
    rw [hbytes]
    rfl
  have h0 : (binVec sdk key s).drop 1 = s.d.val ++ ((u64LeBytes s.nonce).val ++
      ((sdk.pubkey key).val ++ utf8 text)) := congrArg (List.drop 1) hbytes
  have h1 := drop_of_drop h0
  have h2 := drop_of_drop h1
  have h3 := drop_of_drop h2
  have htail : tailFrom (binVec sdk key s) (1 + 16 + 8 + 32) = .ok (utf8 text) := by
    rw [tailFrom, h3, if_pos]
    rw [hbytes]
    simp [s.d.property, (u64LeBytes s.nonce).property, (sdk.pubkey key).property]
    omega
  have hsolution : processSolution sdk.toSignatureScheme who (binVec sdk key s) =
      .ok [.bestSolution who s.solution (sdk.pubkey key)] := by
    simp only [processSolution, copyLoop_of_drop h0, copyLoop_of_drop h1, copyLoop_of_drop h2,
      htail, bind, Except.bind, pure, Except.pure]
    rw [verifySolution, fromUtf8_eq_some.mpr rfl]
    simp only [text, h.fromStr_toString, hverify, if_true]
    rfl
  rw [Hashpoo.processMessage, processBinary, hindex]
  show (processSolution sdk.toSignatureScheme who (binVec sdk key s)).map _ = _
  rw [hsolution]
  rfl

/-- A first submission goes out as its message. -/
theorem submissionProcessor_submission (sdk : SigningScheme) (key : sdk.Keypair)
    {s : ThreadSubmission} (hs : 0 < s.difficulty) :
    submissionProcessor sdk key [.submission s] = [.binary (binVec sdk key s)] := by
  simp only [submissionProcessor, sentSubmissions, gt_iff_lt, hs, if_true, List.map_cons,
    List.map_nil]

/-- Whatever reaches the channel, the messages of both miners are decoded to the submissions
that went out, one for one, with digest, nonce and key. -/
theorem server_decodes_submissions {sdk : SigningScheme} (h : sdk.Lawful) (key : sdk.Keypair)
    (who : SocketAddr) :
    (∀ s : ThreadSubmission,
      Hashpoo.processMessage sdk.toSignatureScheme (.binary (binVec sdk key s)) who =
        .ok ([.bestSolution who s.solution (sdk.pubkey key)], .continue) ∧
      s.solution.d = s.d ∧ s.solution.nonce = s.nonce.toNat) ∧
    ∀ submissionProcessor ∈ [@Mine.submissionProcessor, @Turbomine.submissionProcessor],
      (∀ s : ThreadSubmission, 0 < s.difficulty →
        submissionProcessor sdk key [.submission s] = [.binary (binVec sdk key s)]) ∧
      ∀ messages : List MessageSubmissionProcessor,
        ((submissionProcessor sdk key messages).map fun message =>
          Hashpoo.processMessage sdk.toSignatureScheme message who) =
            (sentSubmissions 0 messages).map fun s =>
              .ok ([.bestSolution who s.solution (sdk.pubkey key)], .continue) := by
  have hone := fun s => processMessage_bestSolution h key s who
  refine ⟨fun s => ⟨hone s, rfl, s.nonce_solution⟩, ?_⟩
  have hfirst : ∀ s : ThreadSubmission, 0 < s.difficulty →
      Client.submissionProcessor sdk key [.submission s] = [.binary (binVec sdk key s)] :=
    fun s hs => submissionProcessor_submission sdk key hs
  have hall : ∀ messages : List MessageSubmissionProcessor,
      ((Client.submissionProcessor sdk key messages).map fun message =>
        Hashpoo.processMessage sdk.toSignatureScheme message who) =
          (sentSubmissions 0 messages).map fun s =>
            .ok ([.bestSolution who s.solution (sdk.pubkey key)], .continue) := by
    intro messages
    rw [Client.submissionProcessor, List.map_map]
    exact List.map_congr_left fun s _ => hone s
  simp only [List.forall_mem_cons, Mine.submissionProcessor, Turbomine.submissionProcessor]
  exact ⟨⟨hfirst, hall⟩, ⟨hfirst, hall⟩, by simp⟩

/-- A signature that spells out the key and the message. -/
def SigningScheme.spelledOut : SigningScheme where
  Signature := String
  fromStr := some
  verify signature pubkey message :=
    signature = String.ofList ((pubkey.val ++ message).map fun b => Char.ofNat b.toNat)
  Keypair := Pubkey
  pubkey key := key
  signMessage key message :=
    String.ofList ((key.val ++ message).map fun b => Char.ofNat b.toNat)
  toString signature := signature

theorem SigningScheme.lawful_spelledOut : SigningScheme.spelledOut.Lawful where
  fromStr_toString _ := rfl
  verify_signMessage _ _ _ := by
    simp only [SigningScheme.spelledOut, decide_true]

theorem server_decodes_spelledOut :
    Hashpoo.processMessage SigningScheme.spelledOut.toSignatureScheme
      (.binary (binVec .spelledOut (.fill 32 1) ⟨40_000_007, 9, .fill 16 5⟩)) 0 =
        .ok ([.bestSolution 0 ⟨.fill 16 5, u64LeBytes 40_000_007⟩ (.fill 32 1)], .continue) :=
  ((server_decodes_submissions SigningScheme.lawful_spelledOut (.fill 32 1) 0).1
    ⟨40_000_007, 9, .fill 16 5⟩).1

end Hashpoo.Client
