import Hashpoo.Server.Types

/-!
# The two client processors, without interference

`client_message_processor` hands the solutions it receives to
`client_contributions_processor`, which checks each of them and records the best one of
every key. This module runs the pair over a list of messages while ranges, sockets and
proof stay fixed. The pieces that read or write the contributions are definitions of
their own: the interleaved model of the server performs the same ones in separate steps.
-/

namespace Hashpoo

/-! ## Recording a contribution -/

/-- The entry of an accepted submission. -/
def InternalMessageContribution.of (drillx : Drillx) (minerId : Int) (solution : Solution) :
    InternalMessageContribution :=
  let diff := drillx.difficulty solution
  { minerId := minerId
    suppliedDiff := diff
    suppliedDigest := solution.d
    suppliedNonce := solution.nonce
    hashpower := contributionHashpower diff }

/-- The snapshot of the contributions lets a new entry in: it is the first of its key or
better than the one before. -/
def admits (subs : Contributions) (pubkey : Pubkey) (diff : Nat) : Bool :=
  match subs.lookup pubkey with
  | some oldSub => diff > oldSub.suppliedDiff
  | none => true

namespace EpochHashes

/-- The write section, the same in both branches on the snapshot. -/
def record (e : EpochHashes) (pubkey : Pubkey) (c : InternalMessageContribution)
    (solution : Solution) : EpochHashes :=
  { e with
    contributions := e.contributions.insert pubkey c
    bestHash := if c.suppliedDiff > e.bestHash.difficulty then
      ⟨some solution, c.suppliedDiff⟩ else e.bestHash }

@[simp] theorem record_contributions (e : EpochHashes) (pubkey : Pubkey)
    (c : InternalMessageContribution) (solution : Solution) :
    (e.record pubkey c solution).contributions = e.contributions.insert pubkey c := rfl

/-- The key holds a contribution of at least this difficulty. -/
def Holds (e : EpochHashes) (pubkey : Pubkey) (diff : Nat) : Prop :=
  ∃ c, e.contributions.lookup pubkey = some c ∧ diff ≤ c.suppliedDiff

end EpochHashes

/-! ## `client_contributions_processor` -/

/-- What the processor reads besides the messages and the epoch. -/
structure ContributionsContext where
  drillx : Drillx
  minDifficulty : Nat
  proof : Proof
  clientNonceRanges : HashMap Pubkey NonceRange
  sockets : HashMap SocketAddr ClientConnection

namespace ContributionsContext

/-- The body of the loop. `break` stands for its `return`, which ends the task. -/
def handleContribution (ctx : ContributionsContext) (e : EpochHashes)
    (m : ClientBestSolution) : EpochHashes × ControlFlow :=
  let diff := ctx.drillx.difficulty m.solution
  if diff ≥ ctx.minDifficulty then
    match ctx.clientNonceRanges.lookup m.pubkey with
    | none => (e, .break)
    | some nonceRange =>
        if nonceRange.Contains m.solution.nonce then
          match ctx.sockets.lookup m.addr with
          | none => (e, .continue)
          | some conn =>
              if ctx.drillx.isValid m.solution ctx.proof.challenge then
                if admits e.contributions m.pubkey diff then
                  (e.record m.pubkey (.of ctx.drillx conn.minerId m.solution) m.solution,
                    .continue)
                else
                  (e, .continue)
              else
                (e, .continue)
        else
          (e, .continue)
  else
    (e, .continue)

/-- The loop over the received messages. -/
def clientContributionsProcessor (ctx : ContributionsContext) :
    EpochHashes → List ClientBestSolution → EpochHashes × ControlFlow
  | e, [] => (e, .continue)
  | e, m :: ms =>
      match ctx.handleContribution e m with
      | (e, .continue) => ctx.clientContributionsProcessor e ms
      | (e, .break) => (e, .break)

end ContributionsContext

/-- What `client_message_processor` sends on when it receives the message. A send to a
closed channel is ignored, so it never stops. -/
def ClientMessage.toContribution : ClientMessage → Option ClientBestSolution
  | .bestSolution addr solution pubkey => some ⟨addr, solution, pubkey⟩
  | .ready _ | .mining _ | .pong _ => none

/-- The pair of processors over the messages of the clients. -/
def ContributionsContext.clientMessageProcessor (ctx : ContributionsContext) (e : EpochHashes)
    (messages : List ClientMessage) : EpochHashes × ControlFlow :=
  ctx.clientContributionsProcessor e (messages.filterMap ClientMessage.toContribution)

/-! ## One message -/

namespace ContributionsContext

variable {ctx : ContributionsContext} {e : EpochHashes} {m : ClientBestSolution}

/-- The message is not worth a check, or its key has been given a range. -/
def Ranged (ctx : ContributionsContext) (m : ClientBestSolution) : Prop :=
  ctx.minDifficulty ≤ ctx.drillx.difficulty m.solution →
    (ctx.clientNonceRanges.lookup m.pubkey).isSome

instance : Decidable (ctx.Ranged m) := inferInstanceAs (Decidable (_ → _))

/-- The submission passes all five checks. -/
structure Acceptable (ctx : ContributionsContext) (m : ClientBestSolution) : Prop where
  difficulty : ctx.minDifficulty ≤ ctx.drillx.difficulty m.solution
  range : ∃ nonceRange, ctx.clientNonceRanges.lookup m.pubkey = some nonceRange ∧
    nonceRange.Contains m.solution.nonce
  connected : ∃ conn, ctx.sockets.lookup m.addr = some conn
  valid : ctx.drillx.isValid m.solution ctx.proof.challenge = true

theorem handleContribution_continue (h : ctx.Ranged m) :
    (ctx.handleContribution e m).2 = .continue := by
  rw [handleContribution]
  by_cases hdiff : ctx.drillx.difficulty m.solution ≥ ctx.minDifficulty
  · obtain ⟨nonceRange, hrange⟩ := Option.isSome_iff_exists.mp (h hdiff)
    simp only [hdiff, if_true, hrange]
    by_cases hnonce : nonceRange.Contains m.solution.nonce
    · cases ctx.sockets.lookup m.addr with
      | none => simp only [hnonce, if_true]
      | some conn =>
          simp only [hnonce, if_true]
          split_ifs <;> rfl
    · simp only [hnonce, if_false]
  · simp only [hdiff, if_false]

/-- A message of a key without a range ends the task. -/
theorem handleContribution_break (h : ¬ ctx.Ranged m) :
    ctx.handleContribution e m = (e, .break) := by
  obtain ⟨hdiff, hrange⟩ := Classical.not_imp.mp h
  have hnone : ctx.clientNonceRanges.lookup m.pubkey = none := by simpa using hrange
  simp [handleContribution, hdiff, hnone]

theorem handleContribution_acceptable (h : ctx.Acceptable m) :
    ((ctx.handleContribution e m).1).Holds m.pubkey (ctx.drillx.difficulty m.solution) ∧
      (ctx.handleContribution e m).2 = .continue := by
  obtain ⟨nonceRange, hrange, hnonce⟩ := h.range
  obtain ⟨conn, hconn⟩ := h.connected
  simp only [handleContribution, ge_iff_le, h.difficulty, if_true, hrange, hnonce, hconn, h.valid]
  cases hadmits : admits e.contributions m.pubkey (ctx.drillx.difficulty m.solution) with
  | true =>
      refine ⟨⟨.of ctx.drillx conn.minerId m.solution, ?_, le_rfl⟩, rfl⟩
      simp
  | false =>
      -- The snapshot only refuses what the entry of the key already reaches.
      refine ⟨?_, rfl⟩
      rw [admits] at hadmits
      cases hold : e.contributions.lookup m.pubkey with
      | none => simp [hold] at hadmits
      | some oldSub =>
          refine ⟨oldSub, hold, ?_⟩
          simpa [hold] using hadmits

/-! ## Many messages -/

theorem clientContributionsProcessor_cons_continue {ms : List ClientBestSolution}
    (h : ctx.Ranged m) : ctx.clientContributionsProcessor e (m :: ms) =
      ctx.clientContributionsProcessor (ctx.handleContribution e m).1 ms := by
  have hcontinue := handleContribution_continue (e := e) h
  simp only [clientContributionsProcessor]
  split
  · next hm => rw [hm]
  · next hm =>
    rw [hm] at hcontinue
    cases hcontinue

/-- The loop reaches the end of the messages exactly when every one of them has a range
or is too easy to be looked at. -/
theorem clientContributionsProcessor_continue_iff {ms : List ClientBestSolution} :
    (ctx.clientContributionsProcessor e ms).2 = .continue ↔ ∀ m ∈ ms, ctx.Ranged m := by
  induction ms generalizing e with
  | nil => simp [clientContributionsProcessor]
  | cons m ms ih =>
      by_cases hm : ctx.Ranged m
      · rw [clientContributionsProcessor_cons_continue hm, ih]
        simp [hm]
      · simp [clientContributionsProcessor, handleContribution_break hm, hm]

theorem clientContributionsProcessor_append {ms rest : List ClientBestSolution}
    (h : ∀ m ∈ ms, ctx.Ranged m) : ctx.clientContributionsProcessor e (ms ++ rest) =
      ctx.clientContributionsProcessor (ctx.clientContributionsProcessor e ms).1 rest := by
  induction ms generalizing e with
  | nil => rfl
  | cons m ms ih =>
      obtain ⟨hm, hms⟩ := List.forall_mem_cons.mp h
      rw [List.cons_append, clientContributionsProcessor_cons_continue hm,
        clientContributionsProcessor_cons_continue hm, ih hms]

/-- After the messages `ms` and the submission `m` the task still runs, and the key of
`m` holds a contribution at least as good as `m`. -/
def Processes (ctx : ContributionsContext) (e : EpochHashes) (ms : List ClientMessage)
    (m : ClientBestSolution) : Prop :=
  let (e', flow) :=
    ctx.clientMessageProcessor e (ms ++ [.bestSolution m.addr m.solution m.pubkey])
  flow = .continue ∧ e'.Holds m.pubkey (ctx.drillx.difficulty m.solution)

theorem Acceptable.ranged {ctx : ContributionsContext} {m : ClientBestSolution}
    (h : ctx.Acceptable m) : ctx.Ranged m := by
  intro _
  obtain ⟨nonceRange, hrange, -⟩ := h.range
  simp [hrange]

/-- An acceptable submission is processed exactly when no message before it reaches the
range check for a key that has never been given a range. -/
theorem processes_iff (ctx : ContributionsContext) (e : EpochHashes) (ms : List ClientMessage)
    (m : ClientBestSolution) (h : ctx.Acceptable m) : ctx.Processes e ms m ↔
      ∀ addr solution pubkey, .bestSolution addr solution pubkey ∈ ms →
        ctx.minDifficulty ≤ ctx.drillx.difficulty solution →
        (ctx.clientNonceRanges.lookup pubkey).isSome := by
  let before := ms.filterMap ClientMessage.toContribution
  have hmessages : ctx.clientMessageProcessor e
      (ms ++ [.bestSolution m.addr m.solution m.pubkey]) =
      ctx.clientContributionsProcessor e (before ++ [m]) := by
    simp [clientMessageProcessor, before, ClientMessage.toContribution]
  have hranged : (∀ x ∈ before, ctx.Ranged x) ↔
      ∀ addr solution pubkey, .bestSolution addr solution pubkey ∈ ms →
        ctx.minDifficulty ≤ ctx.drillx.difficulty solution →
        (ctx.clientNonceRanges.lookup pubkey).isSome := by
    constructor
    · intro hbefore addr solution pubkey hmem
      exact hbefore ⟨addr, solution, pubkey⟩ (List.mem_filterMap.mpr ⟨_, hmem, rfl⟩)
    · intro hms x hx
      obtain ⟨message, hmem, hsent⟩ := List.mem_filterMap.mp hx
      cases message with
      | bestSolution addr solution pubkey =>
          cases hsent
          exact hms addr solution pubkey hmem
      | ready addr => cases hsent
      | mining addr => cases hsent
      | pong addr => cases hsent
  rw [Processes, hmessages, ← hranged]
  constructor
  · rintro ⟨hflow, -⟩ x hx
    exact clientContributionsProcessor_continue_iff.mp hflow x (List.mem_append_left _ hx)
  · intro hbefore
    obtain ⟨hholds, hcontinue⟩ := handleContribution_acceptable
      (e := (ctx.clientContributionsProcessor e before).1) h
    rw [clientContributionsProcessor_append hbefore,
      clientContributionsProcessor_cons_continue h.ranged]
    exact ⟨rfl, hholds⟩

/-- Two connected clients, of which only the one at address 0 has been given a range. -/
def sampleContext : ContributionsContext where
  drillx := ⟨fun _ => 10, fun _ _ => true⟩
  minDifficulty := 8
  proof := ⟨.fill 32 0, 0, 0⟩
  clientNonceRanges := AList.singleton (.fill 32 1) ⟨0, nonceRangeSize⟩
  sockets := (AList.singleton 0 ⟨.fill 32 1, 1, 0⟩).insert 1 ⟨.fill 32 2, 2, 1⟩

/-- The submission of the nonce 0 by the client with a range. -/
def sampleSubmission : ClientBestSolution := ⟨0, ⟨.fill 16 0, .fill 8 0⟩, .fill 32 1⟩

theorem sampleSubmission_acceptable : sampleContext.Acceptable sampleSubmission where
  difficulty := by decide
  range := ⟨⟨0, nonceRangeSize⟩, rfl, by decide⟩
  connected := ⟨⟨.fill 32 1, 1, 0⟩, rfl⟩
  valid := rfl

/-- The second client has been given the next range. -/
def rangedContext : ContributionsContext :=
  { sampleContext with
    clientNonceRanges := sampleContext.clientNonceRanges.insert (.fill 32 2)
      ⟨nonceRangeSize, 2 * nonceRangeSize⟩ }

theorem sampleSubmission_acceptable_ranged : rangedContext.Acceptable sampleSubmission where
  difficulty := by decide
  range := ⟨⟨0, nonceRangeSize⟩, rfl, by decide⟩
  connected := ⟨⟨.fill 32 1, 1, 0⟩, rfl⟩
  valid := rfl

/-- The nonce 40_000_000 of the second client comes before. -/
theorem processes_afterRanged : rangedContext.Processes (.fresh (.fill 32 0))
    [.ready 1, .bestSolution 1 ⟨.fill 16 0, ⟨[0, 90, 98, 2, 0, 0, 0, 0], rfl⟩⟩ (.fill 32 2)]
    sampleSubmission :=
  (processes_iff _ _ _ _ sampleSubmission_acceptable_ranged).mpr (by
    intro addr solution pubkey hmem _
    obtain ⟨-, -, rfl⟩ : addr = 1 ∧ solution = _ ∧ pubkey = .fill 32 2 := by simpa using hmem
    rfl)

/-- One submission of the other client stops the task, and the next one of the client
with a range is lost. -/
theorem not_processes_after_unranged : ¬ ∀ ctx e ms m,
    (∀ addr solution pubkey, ClientMessage.bestSolution addr solution pubkey ∈ ms →
      (AList.lookup addr ctx.sockets).isSome) →
    Acceptable ctx m → Processes ctx e ms m := by
  intro h
  have hlost := h sampleContext (.fresh (.fill 32 0))
    [.bestSolution 1 ⟨.fill 16 0, .fill 8 0⟩ (.fill 32 2)] sampleSubmission
    (by
      intro addr solution pubkey hmem
      obtain ⟨rfl, -, -⟩ := by simpa using hmem
      rfl)
    sampleSubmission_acceptable
  exact absurd hlost.1 (by decide)

end ContributionsContext

end Hashpoo
