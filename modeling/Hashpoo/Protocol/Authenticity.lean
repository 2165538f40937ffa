import Hashpoo.Claims.Payee
import Hashpoo.Claims.Request
import Hashpoo.Client.Submission
import Hashpoo.Mining.Provenance

/-!
# What the owner of a key has signed

A client signs timestamps, solutions and claims with one and the same key, and the server
checks the signature at three places. The signed bytes have three lengths, so a signature
given for one purpose is of no use for another, with one exception: the timestamp of a
`Ready` message is signed like that of a handshake.

As long as no signature of a key is forged, whatever else the peers send and however the
tasks interleave, entries under the key and payouts of its claims are what its owner has
signed.
-/

namespace Hashpoo.Protocol

open Foundation Client

/-! ## Signed messages -/

/-- What `turbomine.rs`, `mine.rs` and `claim.rs` sign. -/
inductive Signed where
  /-- `ts_msg` of a handshake. -/
  | handshake (timestamp : UInt64)
  /-- `msg` of a `Ready` message. -/
  | ready (now : UInt64)
  | submission (s : ThreadSubmission)
  | claim (timestamp : UInt64) (receiverPubkey : Pubkey) (claimAmountGrains : UInt64)

namespace Signed

/-- The bytes under the signature. -/
def message : Signed → List UInt8
  | .handshake timestamp => (u64LeBytes timestamp).val
  | .ready now => (u64LeBytes now).val
  | .submission s => hashNonceMessage s
  | .claim timestamp receiverPubkey claimAmountGrains =>
      (u64LeBytes timestamp).val ++ receiverPubkey.val ++ (u64LeBytes claimAmountGrains).val

theorem length_message (x : Signed) : x.message.length = match x with
    | .handshake _ | .ready _ => 8
    | .submission _ => 24
    | .claim _ _ _ => 48 := by
  cases x with
  | handshake timestamp => exact (u64LeBytes timestamp).property
  | ready now => exact (u64LeBytes now).property
  | submission s =>
      rw [message, hashNonceMessage_eq, List.length_append, s.d.property,
        (u64LeBytes s.nonce).property]
  | claim timestamp receiverPubkey claimAmountGrains =>
      rw [message, List.length_append, List.length_append, (u64LeBytes timestamp).property,
        receiverPubkey.property, (u64LeBytes claimAmountGrains).property]

theorem u64LeBytes_injective {x y : UInt64} (h : (u64LeBytes x).val = (u64LeBytes y).val) :
    x = y := by
  have heq : u64OfLeBytes (u64LeBytes x) = u64OfLeBytes (u64LeBytes y) :=
    congrArg u64OfLeBytes (Subtype.ext h)
  rwa [u64OfLeBytes_u64LeBytes, u64OfLeBytes_u64LeBytes] at heq

/-- Only a submission is signed with the bytes of a solution. -/
theorem message_eq_solution {x : Signed} {solution : Solution} :
    x.message = solution.d.val ++ solution.n.val ↔
      ∃ s, x = .submission s ∧ s.solution = solution := by
  have hlength : (solution.d.val ++ solution.n.val).length = 24 := by
    rw [List.length_append, solution.d.property, solution.n.property]
  constructor
  · intro h
    have hx := (congrArg List.length h).trans hlength
    rw [length_message] at hx
    cases x with
    | submission s =>
        rw [message, hashNonceMessage_eq] at h
        obtain ⟨hd, hn⟩ := List.append_inj h (s.d.property.trans solution.d.property.symm)
        refine ⟨s, rfl, ?_⟩
        exact congrArg₂ Solution.mk (Subtype.ext hd) (Subtype.ext hn)
    | handshake | ready | claim => cases hx
  · rintro ⟨s, rfl, rfl⟩
    exact hashNonceMessage_eq s

/-- Only a claim is signed with the bytes of a claim request. -/
theorem message_eq_claim {x : Signed} {params : Claims.ClaimParams} {receiverPubkey : Pubkey} :
    x.message = params.signedMsg receiverPubkey ↔
      x = .claim params.timestamp receiverPubkey params.amount := by
  have hlength : (params.signedMsg receiverPubkey).length = 48 :=
    length_message (.claim params.timestamp receiverPubkey params.amount)
  constructor
  · intro h
    have hx := (congrArg List.length h).trans hlength
    rw [length_message] at hx
    cases x with
    | claim timestamp receiver claimAmountGrains =>
        obtain ⟨hleft, hamount⟩ := List.append_inj' h (by
          rw [(u64LeBytes claimAmountGrains).property, Word.length_toLeBytes])
        obtain ⟨htimestamp, hreceiver⟩ := List.append_inj' hleft (by
          rw [receiver.property, receiverPubkey.property])
        rw [u64LeBytes_injective htimestamp, Subtype.ext hreceiver, u64LeBytes_injective hamount]
    | handshake | ready | submission => cases hx
  · rintro rfl
    rfl

/-- A timestamp is signed for a handshake, or for a `Ready` message just as well. -/
theorem message_eq_timestamp {x : Signed} {timestamp : UInt64} :
    x.message = (u64LeBytes timestamp).val ↔ x = .handshake timestamp ∨ x = .ready timestamp := by
  constructor
  · intro h
    have hx := (congrArg List.length h).trans (u64LeBytes timestamp).property
    rw [length_message] at hx
    cases x with
    | handshake t => exact .inl (congrArg _ (u64LeBytes_injective h))
    | ready now => exact .inr (congrArg _ (u64LeBytes_injective h))
    | submission | claim => cases hx
  · rintro (rfl | rfl) <;> rfl

end Signed

/-- The text is no forgery: what it is a signature of under the key has been signed. -/
def Unforged (sdk : SignatureScheme) (key : Pubkey) (signed : List Signed) (text : String) : Prop :=
  ∀ signature message, sdk.fromStr text = some signature →
    sdk.verify signature key message = true → ∃ x ∈ signed, x.message = message

/-- A scheme under which the one message has been signed, by everybody. -/
def signedOnly (x : Signed) : SignatureScheme :=
  ⟨Unit, fun _ => some (), fun _ _ message => message = x.message⟩

theorem unforged_signedOnly (x : Signed) (key : Pubkey) (text : String) :
    Unforged (signedOnly x) key [x] text := by
  intro signature message _ hverify
  exact ⟨x, List.mem_singleton_self x, (of_decide_eq_true hverify).symm⟩

/-! ## Contributions -/

section Contributions

variable {sdk : SignatureScheme} {key : Pubkey} {signed : List Signed}

/-- What follows the fixed-size fields of a binary message is no forgery. -/
def ReceivesUnforged (sdk : SignatureScheme) (key : Pubkey) (signed : List Signed) :
    Mining.Event → Prop
  | .receive _ (.binary d) => ∀ text, d.drop 57 = utf8 text → Unforged sdk key signed text
  | _ => True

/-- The owner of the key has signed the solution. -/
def Owned (key : Pubkey) (signed : List Signed) : Mining.Origin := fun pubkey solution =>
  pubkey = key → ∃ s, .submission s ∈ signed ∧ s.solution = solution

theorem drop_of_signedSolution {d : List UInt8} {solution : Solution} {pubkey : Pubkey}
    (h : SignedSolution sdk d solution pubkey) : ∃ text signature, d.drop 57 = utf8 text ∧
      sdk.fromStr text = some signature ∧
      sdk.verify signature pubkey (solution.d.val ++ solution.n.val) = true := by
  obtain ⟨text, signature, rfl, hrest⟩ := h
  refine ⟨text, signature, ?_, hrest⟩
  have hfields : (2 :: (solution.d.val ++ (solution.n.val ++ pubkey.val))).length = 57 := by
    simp only [List.length_cons, List.length_append, solution.d.property, solution.n.property,
      pubkey.property]
  have happend : 2 :: (solution.d.val ++ (solution.n.val ++ (pubkey.val ++ utf8 text))) =
      2 :: (solution.d.val ++ (solution.n.val ++ pubkey.val)) ++ utf8 text := by
    simp only [List.cons_append, List.append_assoc]
  rw [happend, List.drop_left' hfields]

theorem carries_owned {e : Mining.Event} (h : ReceivesUnforged sdk key signed e) :
    e.Carries sdk (Owned key signed) := by
  cases e with
  | receive k msg =>
      cases msg with
      | binary d =>
          rintro solution pubkey hsigned rfl
          obtain ⟨text, signature, htext, hparse, hverify⟩ := drop_of_signedSolution hsigned
          obtain ⟨x, hx, hmessage⟩ := h text htext signature _ hparse hverify
          obtain ⟨s, rfl, hs⟩ := Signed.message_eq_solution.mp hmessage
          exact ⟨s, hx, hs⟩
      | _ => trivial
  | _ => trivial

/-- As long as no signature of the key is forged, whatever is received besides and however
the tasks interleave, what the epoch and the messages about successes hold under the key
are solutions that its owner has signed as such. -/
theorem owned_of_run {cfg : Mining.Config} {proof : Proof} {events : List Mining.Event}
    {s : Mining.State} (h : run (Mining.State.step cfg) (.start proof) events = some s)
    (hunforged : ∀ e ∈ events, ReceivesUnforged cfg.sdk key signed e) :
    (∀ c, s.shared.epochHashes.contributions.lookup key = some c →
      ∃ x, .submission x ∈ signed ∧ x.solution = c.solution) ∧
    ∀ r ∈ s.submission.submissions, ∀ msg ∈ r.messages, ∀ c,
      msg.contributions.lookup key = some c →
        ∃ x, .submission x ∈ signed ∧ x.solution = c.solution := by
  have hinv : s.Traced (Owned key signed) :=
    Mining.State.traced_of_run h fun e he => carries_owned (hunforged e he)
  refine ⟨fun c hc => hinv.entries key c hc rfl, fun r hr msg hmsg c hc => ?_⟩
  exact (hinv.submissions r hr).messages msg hmsg key c hc rfl

end Contributions

/-- The submission of the scenario. -/
def scenarioSubmission : Signed := .submission ⟨0, 10, .fill 16 0⟩

/-- The scenario of the server, with that submission as the only signed message. -/
def signedConfig : Mining.Config :=
  { Mining.Scenario.config with sdk := signedOnly scenarioSubmission }

theorem receivesUnforged_signedOnly (x : Signed) (key : Pubkey) (e : Mining.Event) :
    ReceivesUnforged (signedOnly x) key [x] e := by
  cases e with
  | receive k msg =>
      cases msg with
      | binary d => exact fun text _ => unforged_signedOnly x key text
      | _ => trivial
  | _ => trivial

theorem owned_untilReported : ∃ s, run (Mining.State.step signedConfig)
    (.start Mining.Scenario.proof) (Mining.Scenario.untilLanded 500 ++ Mining.Scenario.report) =
      some s ∧ (s.submission.submissions.flatMap (·.messages)).length = 1 ∧
    ∀ r ∈ s.submission.submissions, ∀ msg ∈ r.messages, ∀ c,
      msg.contributions.lookup (.fill 32 1) = some c →
        ∃ x, Signed.submission x ∈ [scenarioSubmission] ∧ x.solution = c.solution := by
  obtain ⟨s, hrun, hsent⟩ := exists_run (Mining.State.step signedConfig)
    (.start Mining.Scenario.proof) (Mining.Scenario.untilLanded 500 ++ Mining.Scenario.report)
    (fun s => (s.submission.submissions.flatMap (·.messages)).length = 1) (by decide)
  exact ⟨s, hrun, hsent, (owned_of_run hrun fun e _ => receivesUnforged_signedOnly _ _ e).2⟩

/-! ## Payouts -/

section Payouts

variable {cfg : Claims.ClaimConfig} {key : Pubkey} {signed : List Signed}

/-- A claim of the key that arrives has passed the checks of `post_claim` with a signature
that is no forgery. -/
def PostsUnforged (cfg : Claims.ClaimConfig) (key : Pubkey) (signed : List Signed) :
    Claims.Event → Prop
  | .post minerPubkey receiverPubkey amount => minerPubkey = key → ∃ now r,
      Claims.verifyClaim cfg now r = .ok (key, receiverPubkey) ∧
        r.queryParams.amount.toNat = amount ∧ Unforged cfg.sdk key signed r.password
  | _ => True

/-- The owner of the key has signed for the receiver and the amount. -/
def Ordered (key : Pubkey) (signed : List Signed) : Claims.Order :=
  fun minerPubkey receiverPubkey amount => minerPubkey = key → ∃ timestamp claimAmountGrains,
    .claim timestamp receiverPubkey claimAmountGrains ∈ signed ∧ claimAmountGrains.toNat = amount

theorem asks_ordered {e : Claims.Event} (h : PostsUnforged cfg key signed e) :
    e.Asks (Ordered key signed) := by
  cases e with
  | post minerPubkey receiverPubkey amount =>
      rintro rfl
      obtain ⟨now, r, hverified, hamount, hunforged⟩ := h rfl
      obtain ⟨signature, hparse, hverify⟩ := (Claims.verifyClaim_eq_ok.mp hverified).signed
      obtain ⟨x, hx, hmessage⟩ := hunforged signature _ hparse hverify
      rw [Signed.message_eq_claim.mp hmessage] at hx
      exact ⟨r.queryParams.timestamp, r.queryParams.amount, hx, hamount⟩
  | _ => trivial

/-- As long as no signature of the key is forged, whatever the requests, the processor and
the chain interleave, each transaction sent for a claim of the key goes to a receiver that
its owner has signed for and pays the signed amount, or exactly the deduction less. -/
theorem signedPayout_of_run {wallet : Pubkey} {db : Database} {events : List Claims.Event}
    {s : Claims.State} (h : run (Claims.State.step wallet) (.start db) events = some s)
    (hposts : ∀ e ∈ events, PostsUnforged cfg key signed e) :
    ∀ tx ∈ s.chain.sent, s.claimants[tx.claim]? = some key → ∃ timestamp claimAmountGrains,
      .claim timestamp tx.receiverPubkey claimAmountGrains ∈ signed ∧
        (tx.amount = claimAmountGrains.toNat ∨
          tx.amount + createAtaDeduction = claimAmountGrains.toNat) := by
  intro tx htx hclaim
  have hinv : s.Paying (Ordered key signed) :=
    Claims.State.paying_of_run h fun e he => asks_ordered (hposts e he)
  obtain ⟨minerPubkey, item, howner, hgrants, hreceiver, hpays⟩ := hinv.sent tx htx
  obtain rfl : key = minerPubkey := Option.some.inj (hclaim.symm.trans howner)
  obtain ⟨timestamp, claimAmountGrains, hsigned, hamount⟩ := hgrants.asked rfl
  rw [← hreceiver] at hsigned
  rw [Claims.Pays, ← hamount] at hpays
  exact ⟨timestamp, claimAmountGrains, hsigned, hpays⟩

end Payouts

/-- The claim of the scenario. -/
def scenarioClaim : Signed := .claim 9_990 (.fill 32 3) 1_000_000_000

/-- The foreign code of the scenario, with that claim as the only signed message. -/
def signedClaimConfig : Claims.ClaimConfig :=
  { Claims.Scenario.claimConfig with sdk := signedOnly scenarioClaim }

theorem signedPayout_secondTry : ∃ s, run (Claims.State.step (.fill 32 9))
    (.start Claims.Receipt.sampleDb) Claims.State.secondTry = some s ∧ s.chain.sent.length = 2 ∧
    ∀ tx ∈ s.chain.sent, s.claimants[tx.claim]? = some (.fill 32 1) →
      ∃ timestamp claimAmountGrains,
        .claim timestamp tx.receiverPubkey claimAmountGrains ∈ [scenarioClaim] ∧
          (tx.amount = claimAmountGrains.toNat ∨
            tx.amount + createAtaDeduction = claimAmountGrains.toNat) := by
  obtain ⟨s, hrun, hsent⟩ := exists_run (Claims.State.step (.fill 32 9))
    (.start Claims.Receipt.sampleDb) Claims.State.secondTry (fun s => s.chain.sent.length = 2)
    (by decide)
  have hposts : ∀ e ∈ Claims.State.secondTry,
      PostsUnforged signedClaimConfig (.fill 32 1) [scenarioClaim] e := by
    intro e he
    cases e with
    | post minerPubkey receiverPubkey amount =>
        rintro rfl
        have hpost : Claims.Event.post (.fill 32 1) receiverPubkey amount =
            Claims.Scenario.post := by
          simpa [Claims.State.secondTry, Claims.Scenario.check, Claims.Scenario.insert,
            Claims.Scenario.pay, Claims.Scenario.expire, Claims.Scenario.confirm] using he
        cases hpost
        exact ⟨10_000, Claims.Scenario.claimRequest, rfl, rfl, unforged_signedOnly _ _ _⟩
    | _ => trivial
  exact ⟨s, hrun, hsent, signedPayout_of_run hrun hposts⟩

end Hashpoo.Protocol
