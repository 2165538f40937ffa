import Hashpoo.Foundation.History
import Hashpoo.Foundation.Records
import Hashpoo.Mining.Epoch

/-!
# The epoch as an atomic object

The contributions processor takes a submission through five checks with a lock each, and the
submission processor resets the epoch whenever it likes. Seen from outside, every submission
takes effect at one moment between its arrival and its end, in the order of arrival: refused
where a check fails, entered or turned down where the contributions are written or read.
-/

namespace Hashpoo.Mining

open Foundation

/-! ## Atomic operations -/

inductive EpochOp where
  /-- A submission that has passed the other checks, by the miner with the id. -/
  | submit (m : ClientBestSolution) (minerId : Int)
  /-- A submission that one of the other checks has refused. -/
  | refuse (m : ClientBestSolution)
  | reset (challenge : Option Challenge)
  deriving DecidableEq

namespace EpochOp

/-- Check and write in one piece. -/
def perform (drillx : Drillx) (e : EpochHashes) : EpochOp → EpochHashes
  | .submit m minerId =>
      if admits e.contributions m.pubkey (drillx.difficulty m.solution) then
        e.record m.pubkey (.of drillx minerId m.solution) m.solution
      else e
  | .refuse _ => e
  | .reset challenge => .fresh (challenge.getD e.challenge)

/-- The submission of the operation. -/
def submission : EpochOp → Option ClientBestSolution
  | .submit m _ | .refuse m => some m
  | .reset _ => none

end EpochOp

/-- The operation that takes effect with the next step of the processor. -/
def ContributionsPc.effective (cfg : Config) (sh : Shared) : ContributionsPc → Option EpochOp
  | .idle =>
      match sh.contributionsChannel with
      | some (m :: _) =>
          if cfg.drillx.difficulty m.solution ≥ cfg.minDifficulty then none else some (.refuse m)
      | some [] | none => none
  | .readRange m =>
      match sh.clientNonceRanges.lookup m.pubkey with
      | some nonceRange =>
          if nonceRange.Contains m.solution.nonce then none else some (.refuse m)
      | none => some (.refuse m)
  | .readSocket m _ => if (sh.sockets.lookup m.addr).isSome then none else some (.refuse m)
  | .readProof m _ _ =>
      if cfg.drillx.isValid m.solution sh.appProof.challenge then none else some (.refuse m)
  | .readContributions m _ minerId =>
      if admits sh.epochHashes.contributions m.pubkey (cfg.drillx.difficulty m.solution) then none
      else some (.submit m minerId)
  | .write m _ minerId => some (.submit m minerId)
  | .stopped => none

namespace ContributionsPc

variable {cfg : Config} {sh : Shared} {pc pc' : ContributionsPc} {eff : Effect}

/-- The steps change the epoch as the operation does, if the write is still admitted. -/
theorem step_effective (h : pc.step cfg sh = some (pc', eff))
    (hadmits : ∀ x ∈ pc.writing, admits sh.epochHashes.contributions x.1.pubkey
      (cfg.drillx.difficulty x.1.solution)) :
    (sh.apply eff).epochHashes =
      (pc.effective cfg sh).toList.foldl (EpochOp.perform cfg.drillx) sh.epochHashes := by
  cases pc with
  | idle =>
      simp only [step] at h
      split at h
      · next m rest hchannel =>
        cases h
        simp only [effective, hchannel]
        split <;> rfl
      · cases h
      · cases h
  | readRange m =>
      simp only [step, effective] at h ⊢
      cases hrange : sh.clientNonceRanges.lookup m.pubkey with
      | none =>
          rw [hrange] at h
          cases h
          rfl
      | some nonceRange =>
          rw [hrange] at h
          cases h
          simp only
          split <;> rfl
  | readSocket m nonceRange =>
      simp only [step, effective] at h ⊢
      cases hconn : sh.sockets.lookup m.addr with
      | none =>
          rw [hconn] at h
          cases h
          rfl
      | some conn =>
          rw [hconn] at h
          cases h
          rfl
  | readProof m nonceRange minerId =>
      cases h
      rw [effective]
      split <;> rfl
  | readContributions m nonceRange minerId =>
      cases h
      rw [effective]
      split
      · rfl
      · next hrefused =>
        rw [Option.toList_some, List.foldl_cons, List.foldl_nil, EpochOp.perform,
          if_neg hrefused]
        rfl
  | write m nonceRange minerId =>
      cases h
      have hadmitted := hadmits (m, nonceRange) rfl
      rw [effective, Option.toList_some, List.foldl_cons, List.foldl_nil, EpochOp.perform,
        if_pos hadmitted]
      rfl
  | stopped => cases h

/-- What the steps do to the queue of submissions, the one under way included: they may take
up the next one and may finish the present one, and the task may stop. -/
structure Advances (cfg : Config) (sh sh' : Shared) (pc pc' : ContributionsPc)
    (taken : List ClientBestSolution) : Prop where
  handled : (pc.effective cfg sh).toList.filterMap EpochOp.submission ++ pc'.handling.toList =
    pc.handling.toList ++ taken
  channel : (∃ queue, sh.contributionsChannel = some (taken ++ queue) ∧
      sh'.contributionsChannel = some queue) ∨
    sh'.contributionsChannel = none ∧ taken = []

theorem Advances.same {sh' : Shared}
    (handled : (pc.effective cfg sh).toList.filterMap EpochOp.submission ++ pc'.handling.toList =
      pc.handling.toList) (hchannel : sh'.contributionsChannel = sh.contributionsChannel) :
    Advances cfg sh sh' pc pc' [] where
  handled := handled.trans (List.append_nil _).symm
  channel := by
    cases hqueue : sh.contributionsChannel with
    | none => exact .inr ⟨hchannel.trans hqueue, rfl⟩
    | some queue => exact .inl ⟨queue, rfl, hchannel.trans hqueue⟩

theorem step_advances (h : pc.step cfg sh = some (pc', eff)) :
    ∃ taken, Advances cfg sh (sh.apply eff) pc pc' taken := by
  cases pc with
  | idle =>
      simp only [step] at h
      split at h
      · next m rest hchannel =>
        cases h
        refine ⟨[m], ?_, .inl ⟨rest, hchannel, ?_⟩⟩
        · simp only [effective, hchannel, received]
          split <;> rfl
        · rw [Shared.apply, hchannel]
          rfl
      · cases h
      · cases h
  | readRange m =>
      simp only [step] at h
      split at h
      · next nonceRange hrange =>
        cases h
        refine ⟨[], .same ?_ rfl⟩
        simp only [effective, hrange]
        split <;> rfl
      · next hrange =>
        cases h
        refine ⟨[], ?_, .inr ⟨rfl, rfl⟩⟩
        simp only [effective, hrange]
        rfl
  | readSocket m nonceRange =>
      simp only [step] at h
      split at h
      · next conn hconn =>
        cases h
        refine ⟨[], .same ?_ rfl⟩
        simp only [effective, hconn]
        rfl
      · next hconn =>
        cases h
        refine ⟨[], .same ?_ rfl⟩
        simp only [effective, hconn]
        rfl
  | readProof m nonceRange minerId | readContributions m nonceRange minerId =>
      cases h
      refine ⟨[], .same ?_ rfl⟩
      simp only [effective]
      split <;> rfl
  | write m nonceRange minerId =>
      cases h
      exact ⟨[], .same rfl rfl⟩
  | stopped => cases h

end ContributionsPc

/-- The submission that the message processor sends on next. -/
def MessagePc.forwarded : MessagePc → Option ClientBestSolution
  | .idle => none
  | .handle message => message.toContribution

/-- The message processor sends the submissions on, as long as anybody receives them. -/
theorem MessagePc.step_queue {sh : Shared} {pc pc' : MessagePc} {eff : Effect}
    (h : pc.step sh = some (pc', eff)) : (sh.apply eff).contributionsChannel =
      sh.contributionsChannel.map (· ++ pc.forwarded.toList) := by
  cases pc with
  | idle =>
      simp only [step] at h
      split at h
      · cases h
        simp [Shared.apply, forwarded]
      · cases h
  | handle message =>
      cases message with
      | bestSolution addr solution pubkey =>
          cases h
          rfl
      | ready addr | mining addr | pong addr =>
          cases h
          simp [Shared.apply, forwarded, ClientMessage.toContribution]

/-! ## Runs -/

namespace State

variable {cfg : Config} {s t : State} {e : Event}

/-- The operations that take effect with a step of the system. -/
def effective (cfg : Config) (s : State) (e : Event) : List EpochOp :=
  match e with
  | .contribution => (s.contributions.effective cfg s.shared).toList
  | .submission _ =>
      match s.perform cfg e with
      | some (_, .resetHashes challenge) => [.reset challenge]
      | _ => []
  | _ => []

/-- The submission that a step puts into the queue, unless nobody receives any more. -/
def enqueued (s : State) (e : Event) : List ClientBestSolution :=
  match e with
  | .message =>
      if s.shared.contributionsChannel.isSome then s.messages.forwarded.toList else []
  | _ => []

/-- A step changes the epoch as its operations do. -/
theorem step_effective (hinv : s.Epochal cfg) (h : s.step cfg e = some t) :
    t.shared.epochHashes =
      (s.effective cfg e).foldl (EpochOp.perform cfg.drillx) s.shared.epochHashes := by
  obtain ⟨-, s', eff, hperform, rfl⟩ := step_eq_some.mp h
  show (s.shared.apply eff).epochHashes = _
  cases e with
  | contribution =>
      obtain ⟨⟨pc, eff'⟩, hstep, heq⟩ := Option.map_eq_some_iff.mp hperform
      cases heq
      exact ContributionsPc.step_effective hstep hinv.admitted
  | submission input =>
      by_cases hscope : eff.scope = .hashes
      · obtain ⟨-, challenge, rfl⟩ | ⟨hevent, -⟩ := perform_hashes hperform hscope
        · simp only [effective, hperform]
          rfl
        · cases hevent
      · have hnone : s.effective cfg (.submission input) = [] := by
          simp only [effective, hperform]
          cases eff with
          | resetHashes challenge => exact absurd rfl hscope
          | _ => rfl
        rw [hnone, Shared.apply_epochHashes hscope]
        rfl
  | _ =>
      refine Shared.apply_epochHashes fun hscope => ?_
      have hmem := perform_scope hperform
      rw [hscope] at hmem
      simp [Event.scopes] at hmem

/-! ### The queue -/

/-- What has arrived has ended, is under way, or waits, in this order. -/
structure Queued (arrived ended : List ClientBestSolution) (s : State) : Prop where
  begun : ended ++ s.contributions.handling.toList <+: arrived
  waiting : ∀ queue, s.shared.contributionsChannel = some queue →
    arrived = ended ++ s.contributions.handling.toList ++ queue

theorem apply_contributionsChannel {sh : Shared} {eff : Effect}
    (h : eff.scope ≠ .contributionsChannel) :
    (sh.apply eff).contributionsChannel = sh.contributionsChannel := by
  cases eff with
  | sendContribution | receiveContribution | closeContributions => exact absurd rfl h
  | _ => simp only [Shared.apply]

/-- The other tasks only put submissions into the queue. -/
theorem perform_queue {s' : State} {eff : Effect} (hne : e ≠ .contribution)
    (h : s.perform cfg e = some (s', eff)) :
    (s.effective cfg e).filterMap EpochOp.submission = [] ∧
      (s.shared.apply eff).contributionsChannel =
        s.shared.contributionsChannel.map (· ++ s.enqueued e) := by
  have hnone : eff.scope ≠ .contributionsChannel → s.enqueued e = [] →
      (s.shared.apply eff).contributionsChannel =
        s.shared.contributionsChannel.map (· ++ s.enqueued e) := by
    intro hscope henqueued
    rw [apply_contributionsChannel hscope, henqueued]
    simp
  cases e with
  | contribution => exact absurd rfl hne
  | submission input =>
      refine ⟨?_, hnone (fun hscope => ?_) rfl⟩
      · simp only [effective]
        split <;> rfl
      · have hmem := perform_scope h
        rw [hscope] at hmem
        simp [Event.scopes, submissionScopes] at hmem
  | message =>
      refine ⟨rfl, ?_⟩
      obtain ⟨⟨pc, eff'⟩, hstep, heq⟩ := Option.map_eq_some_iff.mp h
      cases heq
      rw [MessagePc.step_queue hstep, enqueued]
      cases s.shared.contributionsChannel <;> rfl
  | _ =>
      refine ⟨rfl, hnone (fun hscope => ?_) rfl⟩
      have hmem := perform_scope h
      rw [hscope] at hmem
      simp [Event.scopes] at hmem

theorem step_queued {arrived ended : List ClientBestSolution} (hinv : s.Queued arrived ended)
    (h : s.step cfg e = some t) : t.Queued (arrived ++ s.enqueued e)
      (ended ++ (s.effective cfg e).filterMap EpochOp.submission) := by
  obtain ⟨-, s', eff, hperform, rfl⟩ := step_eq_some.mp h
  by_cases hcontribution : e = .contribution
  · subst hcontribution
    obtain ⟨⟨pc, eff'⟩, hstep, heq⟩ := Option.map_eq_some_iff.mp hperform
    cases heq
    obtain ⟨taken, hhandled, hchannel⟩ := ContributionsPc.step_advances hstep
    have hended : ended ++ (s.effective cfg .contribution).filterMap EpochOp.submission ++
        pc.handling.toList = ended ++ s.contributions.handling.toList ++ taken := by
      rw [List.append_assoc, List.append_assoc]
      exact congrArg (ended ++ ·) hhandled
    have hnone : arrived ++ s.enqueued .contribution = arrived := List.append_nil _
    obtain ⟨queue, hbefore, hafter⟩ | ⟨hafter, rfl⟩ := hchannel
    · have harrived := hinv.waiting _ hbefore
      rw [← List.append_assoc, ← hended] at harrived
      rw [hnone]
      refine ⟨⟨queue, harrived.symm⟩, fun queue' hqueue' => ?_⟩
      obtain rfl := Option.some.inj (hafter.symm.trans hqueue')
      exact harrived
    · rw [hnone]
      refine ⟨?_, fun queue' hqueue' => ?_⟩
      · show _ ++ pc.handling.toList <+: arrived
        rw [hended, List.append_nil]
        exact hinv.begun
      · cases hafter.symm.trans hqueue'
  · obtain ⟨hnone, hchannel⟩ := perform_queue hcontribution hperform
    have hsame := (perform_frame hperform).contributions hcontribution
    rw [hnone, List.append_nil]
    refine ⟨?_, fun queue hqueue => ?_⟩
    · show _ ++ s'.contributions.handling.toList <+: _
      rw [hsame]
      exact hinv.begun.trans (List.prefix_append _ _)
    · obtain ⟨before, hbefore, rfl⟩ := Option.map_eq_some_iff.mp (hchannel.symm.trans hqueue)
      show _ = _ ++ s'.contributions.handling.toList ++ _
      rw [hsame, hinv.waiting before hbefore, List.append_assoc]

end State

/-! ## The best since the last reset -/

namespace EpochOp

variable {drillx : Drillx} {e : EpochHashes} {pubkey : Pubkey}

def isReset : EpochOp → Bool
  | .reset _ => true
  | .submit _ _ | .refuse _ => false

/-- The operations behind the last reset. -/
def sinceReset (ops : List EpochOp) : List EpochOp :=
  (ops.reverse.takeWhile fun op => !op.isReset).reverse

theorem sinceReset_concat (ops : List EpochOp) (op : EpochOp) :
    sinceReset (ops ++ [op]) = if op.isReset then [] else sinceReset ops ++ [op] := by
  rw [sinceReset, List.reverse_append, List.reverse_singleton, List.singleton_append,
    List.takeWhile_cons]
  cases op.isReset with
  | true => rfl
  | false => simp [sinceReset]

/-- The submission with the id of its miner, when it is one of the key that has passed the
other checks. -/
def acceptedOf (pubkey : Pubkey) : EpochOp → Option (ClientBestSolution × Int)
  | .submit m minerId => if m.pubkey = pubkey then some (m, minerId) else none
  | .refuse _ | .reset _ => none

/-- The entry says what the miner with the id has supplied. -/
structure Describes (drillx : Drillx) (minerId : Int) (solution : Solution)
    (c : InternalMessageContribution) : Prop where
  minerId : c.minerId = minerId
  difficulty : c.suppliedDiff = drillx.difficulty solution
  digest : c.suppliedDigest = solution.d
  nonce : c.suppliedNonce = solution.nonce
  hashpower : c.hashpower = contributionHashpower (drillx.difficulty solution)

/-- The entry is that of the best submission, and of the first one among equals. -/
def EntryOf (drillx : Drillx) (accepted : List (ClientBestSolution × Int))
    (c : InternalMessageContribution) : Prop :=
  ∃ before m minerId after, accepted = before ++ (m, minerId) :: after ∧
    Describes drillx minerId m.solution c ∧
    (∀ x ∈ before, drillx.difficulty x.1.solution < drillx.difficulty m.solution) ∧
    ∀ x ∈ after, drillx.difficulty x.1.solution ≤ drillx.difficulty m.solution

/-- The key has an entry if it has submitted anything, and then that of the best one. -/
structure BestOf (drillx : Drillx) (pubkey : Pubkey) (accepted : List (ClientBestSolution × Int))
    (e : EpochHashes) : Prop where
  entered : (e.contributions.lookup pubkey).isSome ↔ accepted ≠ []
  entry : ∀ c, e.contributions.lookup pubkey = some c → EntryOf drillx accepted c

theorem EntryOf.le {accepted : List (ClientBestSolution × Int)} {c : InternalMessageContribution}
    (h : EntryOf drillx accepted c) {x : ClientBestSolution × Int} (hx : x ∈ accepted) :
    drillx.difficulty x.1.solution ≤ c.suppliedDiff := by
  obtain ⟨before, m, minerId, after, rfl, hdescribes, hbefore, hafter⟩ := h
  rw [hdescribes.difficulty]
  obtain hx | hx := List.mem_append.mp hx
  · exact (hbefore x hx).le
  · cases hx with
    | head => exact le_rfl
    | tail _ hx => exact hafter x hx

theorem bestOf_fresh (challenge : Challenge) : BestOf drillx pubkey [] (.fresh challenge) where
  entered := by simp [EpochHashes.fresh]
  entry c hc := by simp [EpochHashes.fresh] at hc

theorem BestOf.submit {m : ClientBestSolution} {accepted : List (ClientBestSolution × Int)}
    (h : BestOf drillx m.pubkey accepted e) (minerId : Int) :
    BestOf drillx m.pubkey (accepted ++ [(m, minerId)])
      (perform drillx e (.submit m minerId)) := by
  rw [perform]
  split
  · next hadmits =>
    have hlookup : (e.record m.pubkey (.of drillx minerId m.solution)
        m.solution).contributions.lookup m.pubkey = some (.of drillx minerId m.solution) := by
      rw [EpochHashes.record_contributions, AList.lookup_insert]
    refine ⟨by simp, fun c hc => ?_⟩
    obtain rfl := Option.some.inj (hlookup.symm.trans hc)
    refine ⟨accepted, m, minerId, [], rfl, ⟨rfl, rfl, rfl, rfl, rfl⟩, fun x hx => ?_,
      fun x hx => by cases hx⟩
    -- What was accepted before has an entry, which the new one has to exceed.
    obtain ⟨c, hentry⟩ := Option.isSome_iff_exists.mp (h.entered.mpr (List.ne_nil_of_mem hx))
    exact ((h.entry c hentry).le hx).trans_lt (admits_of_lookup hadmits hentry)
  · next hrefused =>
    cases hentry : e.contributions.lookup m.pubkey with
    | none => simp [admits, hentry] at hrefused
    | some c =>
        have hle : drillx.difficulty m.solution ≤ c.suppliedDiff := by
          simpa [admits, hentry] using hrefused
        refine ⟨by simp [hentry], fun c' hc' => ?_⟩
        obtain rfl := Option.some.inj (hentry.symm.trans hc')
        obtain ⟨before, best, bestId, after, rfl, hdescribes, hbefore, hafter⟩ := h.entry c hentry
        refine ⟨before, best, bestId, after ++ [(m, minerId)], by simp, hdescribes, hbefore, ?_⟩
        intro x hx
        obtain hx | hx := List.mem_append.mp hx
        · exact hafter x hx
        · cases List.mem_singleton.mp hx
          exact hle.trans_eq hdescribes.difficulty

theorem BestOf.other {m : ClientBestSolution} {accepted : List (ClientBestSolution × Int)}
    (h : BestOf drillx pubkey accepted e) (hkey : m.pubkey ≠ pubkey) (minerId : Int) :
    BestOf drillx pubkey accepted (perform drillx e (.submit m minerId)) := by
  have hlookup : (perform drillx e (.submit m minerId)).contributions.lookup pubkey =
      e.contributions.lookup pubkey := by
    rw [perform]
    split
    · rw [EpochHashes.record_contributions, AList.lookup_insert_ne (Ne.symm hkey)]
    · rfl
  exact ⟨hlookup ▸ h.entered, fun c hc => h.entry c (hlookup.symm.trans hc)⟩

/-- A sequential history leaves the best of what it has accepted since its last reset. -/
theorem bestOf_replay (challenge : Challenge) (ops : List EpochOp) (pubkey : Pubkey) :
    BestOf drillx pubkey ((sinceReset ops).filterMap (acceptedOf pubkey))
      (ops.foldl (perform drillx) (.fresh challenge)) := by
  induction ops using List.reverseRecOn with
  | nil => exact bestOf_fresh challenge
  | append_singleton ops op ih =>
      rw [sinceReset_concat, List.foldl_append, List.foldl_cons, List.foldl_nil]
      cases op with
      | reset c => exact bestOf_fresh _
      | refuse m =>
          rw [isReset, if_neg Bool.false_ne_true, List.filterMap_append,
            List.filterMap_cons_none rfl, List.filterMap_nil, List.append_nil]
          exact ih
      | submit m minerId =>
          rw [isReset, if_neg Bool.false_ne_true, List.filterMap_append]
          by_cases hkey : m.pubkey = pubkey
          · subst hkey
            have hown : acceptedOf m.pubkey (.submit m minerId) = some (m, minerId) := if_pos rfl
            rw [List.filterMap_cons_some hown, List.filterMap_nil]
            exact ih.submit minerId
          · have hother : acceptedOf pubkey (.submit m minerId) = none := if_neg hkey
            rw [List.filterMap_cons_none hother, List.filterMap_nil, List.append_nil]
            exact ih.other hkey minerId

end EpochOp

/-! ## Runs of the system -/

namespace State

variable {cfg : Config} {s : State} {proof : Proof} {events : List Event}

/-- The operations of a run, in the order in which they take effect. -/
def history (cfg : Config) (proof : Proof) (events : List Event) : List EpochOp :=
  sequential (State.step cfg) (effective cfg) (.start proof) events

/-- The submissions of a run, in the order of their arrival at the contributions processor. -/
def arrivals (cfg : Config) (proof : Proof) (events : List Event) : List ClientBestSolution :=
  sequential (State.step cfg) enqueued (.start proof) events

theorem replay_history (h : run (State.step cfg) (.start proof) events = some s) :
    s.shared.epochHashes = (history cfg proof events).foldl (EpochOp.perform cfg.drillx)
      (.fresh proof.challenge) :=
  replay_of_run (fun _ _ _ hs hstep => step_epochal hs hstep)
    (fun _ _ _ hs hstep => step_effective hs hstep) (epochal_start cfg proof) h

/-- In every run the epoch is what the operations of the history make of the first one, when
they are performed one after the other, and the submissions of the history are the arrivals in
their order, up to the one under way and those that wait. -/
theorem linearizable_of_run (h : run (State.step cfg) (.start proof) events = some s) :
    s.shared.epochHashes = (history cfg proof events).foldl (EpochOp.perform cfg.drillx)
        (.fresh proof.challenge) ∧
      s.Queued (arrivals cfg proof events)
        ((history cfg proof events).filterMap EpochOp.submission) := by
  refine ⟨replay_history h, ?_⟩
  refine invariant_of_trace (I := fun past s => s.Queued (past.flatMap fun x => x.1.enqueued x.2)
    ((past.flatMap fun x => x.1.effective cfg x.2).filterMap EpochOp.submission)) ?_ ?_ h
  · intro past s e t hs hstep
    rw [List.flatMap_append, List.flatMap_append, List.flatMap_singleton, List.flatMap_singleton,
      List.filterMap_append]
    exact step_queued hs hstep
  · refine ⟨List.nil_prefix, fun queue hqueue => ?_⟩
    cases hqueue
    rfl

/-- The submission processor waits for a second contribution, in vain. -/
def waits : List Event :=
  (List.replicate 6 ([.submission .proceed, .submission (.clock 100)] ++
    List.replicate 3 (.submission .proceed))).flatten

/-- A second submission passes its last check, then the reset of a failed one comes, and then
it is written. -/
def overtaken : List Event :=
  Scenario.join 0 (.fill 32 1) 1 ++ Scenario.join 1 (.fill 32 2) 2 ++ Scenario.batch [0, 1] ++
    Scenario.submit 0 Scenario.solution (.fill 32 1) ++ waits ++ Scenario.send ++
    [.receive 1 (.binary (Scenario.solutionBytes Scenario.solution' (.fill 32 2))), .message,
      .message] ++
    List.replicate 5 .contribution ++ Scenario.fail ++ [.contribution]

theorem linearizable_overtaken : ∃ s, run (State.step Scenario.config) (.start Scenario.proof)
      overtaken = some s ∧
    history Scenario.config Scenario.proof overtaken =
      [.submit ⟨0, Scenario.solution, .fill 32 1⟩ 1, .reset none,
        .submit ⟨1, Scenario.solution', .fill 32 2⟩ 2] ∧
    s.shared.epochHashes = (history Scenario.config Scenario.proof overtaken).foldl
      (EpochOp.perform Scenario.config.drillx) (.fresh Scenario.proof.challenge) ∧
    s.Queued (arrivals Scenario.config Scenario.proof overtaken)
      ((history Scenario.config Scenario.proof overtaken).filterMap EpochOp.submission) := by
  obtain ⟨s, hrun, -⟩ := exists_run (State.step Scenario.config) (.start Scenario.proof)
    overtaken (fun _ => True) (by decide +kernel)
  exact ⟨s, hrun, by decide +kernel, linearizable_of_run hrun⟩

/-- In every reachable state each key has the entry of the best submission that has passed the
other checks since the last reset, whatever came between the check and the write of it. -/
theorem bestOf_of_run (h : run (State.step cfg) (.start proof) events = some s)
    (pubkey : Pubkey) : EpochOp.BestOf cfg.drillx pubkey
      ((EpochOp.sinceReset (history cfg proof events)).filterMap (EpochOp.acceptedOf pubkey))
      s.shared.epochHashes := by
  rw [replay_history h]
  exact EpochOp.bestOf_replay proof.challenge _ pubkey

/-- The submission that comes behind the reset is the best one. -/
theorem bestOf_overtaken : ∃ s, run (State.step Scenario.config) (.start Scenario.proof)
      overtaken = some s ∧
    EpochOp.BestOf Scenario.config.drillx (.fill 32 2)
      [(⟨1, Scenario.solution', .fill 32 2⟩, 2)] s.shared.epochHashes := by
  obtain ⟨s, hrun, -⟩ := exists_run (State.step Scenario.config) (.start Scenario.proof)
    overtaken (fun _ => True) (by decide +kernel)
  have haccepted : (EpochOp.sinceReset (history Scenario.config Scenario.proof overtaken)).filterMap
      (EpochOp.acceptedOf (.fill 32 2)) = [(⟨1, Scenario.solution', .fill 32 2⟩, 2)] := by
    decide +kernel
  refine ⟨s, hrun, ?_⟩
  rw [← haccepted]
  exact bestOf_of_run hrun (.fill 32 2)

end State

end Hashpoo.Mining
