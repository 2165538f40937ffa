import Hashpoo.Foundation.History
import Hashpoo.Mining.System

/-!
# The order of the proofs in the shared state

Four sites in two tasks store proofs. What a task stores it has read some time before,
from the node or from a notification that was itself delayed, and the guard against old
challenges compares with a challenge that nobody updates. So the shared proof goes back
exactly when a notification comes in behind the shared proof or when the other task
stores between a read and its store.
-/

namespace Hashpoo.Mining

open Foundation

/-! ## The order of the challenges -/

namespace Chain

/-- The challenges of the proof account, the newest one first. -/
def challenges (c : Chain) : List Challenge := (c.current :: c.past).map Proof.challenge

/-- The account came to `a` at the same time as to `b` or later. -/
def NotOlder (c : Chain) (a b : Challenge) : Prop := c.challenges.idxOf a ≤ c.challenges.idxOf b

instance (c : Chain) (a b : Challenge) : Decidable (c.NotOlder a b) :=
  inferInstanceAs (Decidable (_ ≤ _))

variable {c : Chain} {a b : Challenge}

theorem NotOlder.trans {d : Challenge} (h : c.NotOlder a b) (h' : c.NotOlder b d) :
    c.NotOlder a d := Nat.le_trans h h'

theorem notOlder_current (c : Chain) (b : Challenge) : c.NotOlder c.current.challenge b := by
  simp [NotOlder, challenges]

@[simp] theorem challenges_update (c : Chain) (proof : Proof) :
    (c.update proof).challenges = proof.challenge :: c.challenges := rfl

theorem mem_of_proofAt {lag : Nat} {proof : Proof} (h : c.proofAt lag = some proof) :
    proof.challenge ∈ c.challenges := List.mem_map_of_mem (List.mem_of_getElem? h)

/-- A new challenge, or the present one once more, leaves the order as it is. -/
theorem NotOlder.update {proof : Proof} (h : c.NotOlder a b) (hb : b ∈ c.challenges)
    (hnew : proof.challenge ∉ c.challenges ∨ proof.challenge = c.current.challenge) :
    (c.update proof).NotOlder a b := by
  simp only [NotOlder] at h ⊢
  rw [challenges_update]
  by_cases hpa : proof.challenge = a
  · rw [List.idxOf_cons_eq _ hpa]
    exact Nat.zero_le _
  · by_cases hpb : proof.challenge = b
    · -- Only the present challenge is not older than the present one.
      obtain hfresh | hsame := hnew
      · exact absurd (hpb ▸ hb) hfresh
      · have hzero : c.challenges.idxOf b = 0 := List.idxOf_cons_eq _ (hsame.symm.trans hpb)
        have hpos : c.challenges.idxOf a = _ + 1 := List.idxOf_cons_ne _ (hsame ▸ hpa)
        omega
    · rw [List.idxOf_cons_ne _ hpa, List.idxOf_cons_ne _ hpb]
      exact Nat.succ_le_succ h

end Chain

/-! ## Proofs on their way to the shared state -/

/-- The proof that has been read and not yet stored. -/
def TrackingPc.pending : TrackingPc → Option Proof
  | .checkLast newProof | .store newProof => some newProof
  | .idle => none

def Stage.pending : Stage → Option Proof
  | .storeLoaded p | .storeFetched p | .storeRefreshed p => some p
  | _ => none

def SubmissionPc.pending : SubmissionPc → Option Proof
  | .submit _ stage => stage.pending
  | _ => none

theorem TrackingPc.step_pending {sh : Shared} {pc pc' : TrackingPc} {lag : Option Nat}
    {eff : Effect} (h : pc.step sh lag = some (pc', eff)) :
    ∀ p ∈ pc'.pending, eff = .silent ∧
      (pc.pending = some p ∨ ∃ n, lag = some n ∧ sh.chain.proofAt n = some p) := by
  simp only [step] at h
  split at h
  case h_1 n =>
    split at h
    · next newProof hproof =>
      cases h
      simp [pending, hproof]
    · cases h
  case h_2 newProof =>
    cases h
    split <;> simp [pending]
  case h_3 newProof =>
    cases h
    simp [pending]
  case h_4 => cases h

theorem Submission.nextAttempt_pending (i : Nat) : (nextAttempt i).pending = none := by
  rw [nextAttempt]
  split <;> rfl

/-- A submission comes to hold a proof by an RPC read. -/
theorem Submission.step_pending {cfg : Config} {sh : Shared} {r r' : Submission} {stage : Stage}
    {input : SubmissionInput} {next : Option Stage} {eff : Effect}
    (h : r.step cfg sh stage input = some (r', next, eff)) :
    ∀ p ∈ next.bind Stage.pending, eff = .silent ∧
      ∃ lag, input = .rpcProof (some lag) ∧ sh.chain.proofAt lag = some p := by
  simp only [step] at h
  split at h
  case h_4 i lag =>
    split at h
    · next bestSolution loaded _ hproof =>
      cases h
      split <;> simp [Stage.pending, hproof]
    · cases h
  case h_14 numChecking lag =>
    split at h
    · next p hproof =>
      cases h
      split <;> simp [Stage.pending, hproof]
    · cases h
  case h_20 lag =>
    split at h
    · next p hproof =>
      cases h
      simp [Stage.pending, hproof]
    · cases h
  all_goals
    (try split at h) <;> cases h <;> (try split) <;>
      intro p hp <;> first | cases hp | simp [nextAttempt_pending] at hp

/-- It stores what it holds. -/
theorem Submission.Moves.stores {cfg : Config} {sh : Shared} {r r' : Submission} {stage : Stage}
    {next : Option Stage} {eff : Effect} (h : r.Moves cfg sh stage r' next eff)
    (hscope : eff.scope = .proof) : ∃ p, stage.pending = some p ∧ eff = .storeProof p := by
  cases h with
  | storeLoaded p | storeFetched p | storeRefreshed p => exact ⟨p, rfl, rfl⟩
  | _ => cases hscope

theorem PoolSubmissionProcessor.step_pending {cfg : Config} {sh : Shared}
    {p p' : PoolSubmissionProcessor} {input : SubmissionInput} {eff : Effect}
    (h : p.step cfg sh input = some (p', eff)) :
    ∀ x ∈ p'.pc.pending, eff = .silent ∧
      ∃ lag, input = .rpcProof (some lag) ∧ sh.chain.proofAt lag = some x := by
  simp only [step] at h
  split at h
  case h_8 r stage hpc =>
    split at h
    · next next eff' hstep =>
      cases h
      intro x hx
      refine Submission.step_pending hstep x ?_
      cases next with
      | none => cases hx
      | some stage' => exact hx
    · cases h
  case h_1 hpc =>
    cases h
    rw [hpc]
    exact fun x hx => by cases hx
  all_goals (try split at h) <;> cases h <;> exact fun x hx => by cases hx

theorem PoolSubmissionProcessor.Moves.stores {cfg : Config} {sh : Shared}
    {p p' : PoolSubmissionProcessor} {eff : Effect} (h : p.Moves cfg sh p' eff)
    (hscope : eff.scope = .proof) : ∃ x, p.pc.pending = some x ∧ eff = .storeProof x := by
  cases h with
  | outer | freeze => cases hscope
  | submit r r' stage next _ hpc hmoves =>
      rw [hpc]
      exact hmoves.stores hscope

namespace State

/-- What the two tasks have read and not yet stored. -/
def pending (s : State) : List Proof :=
  s.tracking.pending.toList ++ s.submission.pc.pending.toList

/-- The order in which the challenges came about is well defined, and an RPC read returns
the present proof. -/
def InStep (s : State) (e : Event) : Prop :=
  match e with
  | .submission (.rpcProof (some lag)) => lag = 0
  | .land _ _ challenge _ => challenge ∉ s.shared.chain.challenges
  | _ => True

instance (s : State) (e : Event) : Decidable (s.InStep e) :=
  match e with
  | .submission input =>
      match input with
      | .rpcProof (some lag) => inferInstanceAs (Decidable (lag = 0))
      | .rpcProof none | .proceed | .busy | .clock _ | .notSent => .isTrue trivial
      | .outcome _ | .challengeId _ => .isTrue trivial
  | .land _ _ _ _ => inferInstanceAs (Decidable (¬ _))
  | .ready _ | .mission _ | .message | .contribution | .tracking _ | .ping _ => .isTrue trivial
  | .pong | .connect _ _ _ | .receive _ _ | .streamEnded _ => .isTrue trivial
  | .disconnect _ | .claim _ | .tick _ => .isTrue trivial

/-- The proof that comes in with a notification. -/
def notified (s : State) : Event → Option Proof
  | .tracking (some lag) => s.shared.chain.proofAt lag
  | _ => none

/-- The proof that a step stores. -/
def storing (s : State) : Event → Option Proof
  | .tracking none => s.tracked
  | .submission _ => s.submission.pc.pending
  | _ => none

/-- No notification comes in behind the shared proof, and no task stores a proof while the
other one still holds an older one. -/
def KeepsOrder (s : State) (e : Event) : Prop :=
  (∀ p ∈ s.notified e, s.shared.chain.NotOlder p.challenge s.shared.appProof.challenge) ∧
    ∀ p ∈ s.storing e, ∀ q ∈ s.pending, s.shared.chain.NotOlder q.challenge p.challenge

instance (s : State) (e : Event) : Decidable (s.KeepsOrder e) :=
  inferInstanceAs (Decidable ((∀ p ∈ s.notified e, _) ∧ ∀ p ∈ s.storing e, _))

end State

/-! ## Runs -/

/-- Neither the shared proof nor what will be stored next falls behind `since`. -/
structure Ordered (since : Challenge) (chain : Chain) (held : Proof) (pending : List Proof) :
    Prop where
  since_mem : since ∈ chain.challenges
  held_mem : held.challenge ∈ chain.challenges
  pending_mem : ∀ p ∈ pending, p.challenge ∈ chain.challenges
  pending : ∀ p ∈ pending, chain.NotOlder p.challenge held.challenge
  held : chain.NotOlder held.challenge since

namespace Ordered

variable {since : Challenge} {chain chain' : Chain} {held : Proof} {pending pending' : List Proof}

theorem update (h : Ordered since chain held pending) {proof : Proof}
    (hchain : chain'.challenges = (chain.update proof).challenges)
    (hnew : proof.challenge ∉ chain.challenges ∨ proof.challenge = chain.current.challenge) :
    Ordered since chain' held pending := by
  have hmem : ∀ a ∈ chain.challenges, a ∈ chain'.challenges := by
    intro a ha
    rw [hchain]
    exact List.mem_cons_of_mem _ ha
  have horder : ∀ a b, chain.NotOlder a b → b ∈ chain.challenges → chain'.NotOlder a b := by
    intro a b hab hb
    rw [Chain.NotOlder, hchain]
    exact hab.update hb hnew
  exact ⟨hmem since h.since_mem, hmem _ h.held_mem, fun p hp => hmem _ (h.pending_mem p hp),
    fun p hp => horder _ _ (h.pending p hp) h.held_mem, horder _ _ h.held h.since_mem⟩

theorem same_account (h : Ordered since chain held pending)
    (haccount : chain'.current = chain.current ∧ chain'.past = chain.past) :
    Ordered since chain' held pending := by
  have hchain : chain'.challenges = chain.challenges := by
    simp only [Chain.challenges]
    rw [haccount.1, haccount.2]
  have horder : ∀ a b, chain.NotOlder a b → chain'.NotOlder a b := by
    intro a b hab
    rw [Chain.NotOlder, hchain]
    exact hab
  exact ⟨hchain ▸ h.since_mem, hchain ▸ h.held_mem, fun p hp => hchain ▸ h.pending_mem p hp,
    fun p hp => horder _ _ (h.pending p hp), horder _ _ h.held⟩

/-- Every new proof on its way is from the account and not older than the shared one. -/
theorem read (h : Ordered since chain held pending) (hread : ∀ p ∈ pending', p ∈ pending ∨
      p.challenge ∈ chain.challenges ∧ chain.NotOlder p.challenge held.challenge) :
    Ordered since chain held pending' where
  since_mem := h.since_mem
  held_mem := h.held_mem
  pending_mem p hp := (hread p hp).elim (h.pending_mem p) And.left
  pending p hp := (hread p hp).elim (h.pending p) And.right
  held := h.held

/-- A proof that has been on its way becomes the shared one. -/
theorem store (h : Ordered since chain held pending) {proof : Proof} (hproof : proof ∈ pending)
    (hrest : ∀ p ∈ pending', p ∈ pending)
    (horder : ∀ p ∈ pending, chain.NotOlder p.challenge proof.challenge) :
    Ordered since chain proof pending' where
  since_mem := h.since_mem
  held_mem := h.pending_mem proof hproof
  pending_mem p hp := h.pending_mem p (hrest p hp)
  pending p hp := horder p (hrest p hp)
  held := (h.pending proof hproof).trans h.held

end Ordered

namespace State

variable {cfg : Config} {s s' t : State} {e : Event} {eff : Effect}

/-- The proof that comes in with an RPC answer. -/
def rpcAnswer (s : State) : Event → Option Proof
  | .submission (.rpcProof (some lag)) => s.shared.chain.proofAt lag
  | _ => none

theorem perform_pending (h : s.perform cfg e = some (s', eff)) : ∀ p ∈ s'.pending,
    p ∈ s.pending ∨ eff = .silent ∧ (s.notified e = some p ∨ s.rpcAnswer e = some p) := by
  intro x hx
  cases e with
  | submission input =>
      obtain ⟨⟨p, eff'⟩, hstep, heq⟩ := Option.map_eq_some_iff.mp h
      cases heq
      obtain hx | hx := List.mem_append.mp hx
      · exact .inl (List.mem_append_left _ hx)
      · obtain ⟨heff, lag, rfl, hproof⟩ := PoolSubmissionProcessor.step_pending hstep x
          (Option.mem_toList.mp hx)
        exact .inr ⟨heff, .inr hproof⟩
  | tracking lag =>
      obtain ⟨⟨pc, eff'⟩, hstep, heq⟩ := Option.map_eq_some_iff.mp h
      cases heq
      obtain hx | hx := List.mem_append.mp hx
      · obtain ⟨heff, hold | ⟨n, rfl, hproof⟩⟩ := TrackingPc.step_pending hstep x
          (Option.mem_toList.mp hx)
        · exact .inl (List.mem_append_left _ (Option.mem_toList.mpr hold))
        · exact .inr ⟨heff, .inl hproof⟩
      · exact .inl (List.mem_append_right _ hx)
  | _ =>
      left
      have hframe := perform_frame h
      rwa [pending, hframe.submission (by simp), hframe.tracking (by simp)] at hx

theorem perform_stores (h : s.perform cfg e = some (s', eff)) (hscope : eff.scope = .proof) :
    ∃ p, s.storing e = some p ∧ p ∈ s.pending ∧ eff = .storeProof p := by
  obtain ⟨input, rfl⟩ | ⟨proof, rfl, hpc, rfl⟩ := perform_proof h hscope
  · obtain ⟨⟨p, eff'⟩, hstep, heq⟩ := Option.map_eq_some_iff.mp h
    cases heq
    obtain ⟨x, hx, rfl⟩ := (PoolSubmissionProcessor.step_moves hstep).stores hscope
    exact ⟨x, hx, List.mem_append_right _ (Option.mem_toList.mpr hx), rfl⟩
  · refine ⟨proof, by rw [storing, tracked, hpc], ?_, rfl⟩
    rw [pending, hpc]
    exact List.mem_append_left _ (List.mem_singleton.mpr rfl)

/-- What comes in is from the account and not older than the shared proof. -/
theorem incoming_notOlder {p : Proof} (hstep : s.InStep e) (hok : s.KeepsOrder e)
    (h : s.notified e = some p ∨ s.rpcAnswer e = some p) :
    p.challenge ∈ s.shared.chain.challenges ∧
      s.shared.chain.NotOlder p.challenge s.shared.appProof.challenge := by
  obtain h | h := h
  · refine ⟨?_, hok.1 p h⟩
    simp only [notified] at h
    split at h
    · exact Chain.mem_of_proofAt h
    · cases h
  · simp only [rpcAnswer] at h
    split at h
    · next lag =>
      have hlag : lag = 0 := hstep
      subst hlag
      cases h
      exact ⟨List.mem_cons_self, Chain.notOlder_current _ _⟩
    · cases h

theorem step_ordered {since : Challenge}
    (hinv : Ordered since s.shared.chain s.shared.appProof s.pending) (hstep : s.InStep e)
    (hok : s.KeepsOrder e) (h : s.step cfg e = some t) :
    Ordered since t.shared.chain t.shared.appProof t.pending := by
  obtain ⟨-, s', eff, hperform, rfl⟩ := step_eq_some.mp h
  have hpending := perform_pending hperform
  change Ordered since (s.shared.apply eff).chain (s.shared.apply eff).appProof s'.pending
  by_cases hlandings : eff.scope = .landings
  · have hrest : ∀ p ∈ s'.pending, p ∈ s.pending := by
      intro p hp
      obtain hold | ⟨rfl, -⟩ := hpending p hp
      · exact hold
      · cases hlandings
    have hread := hinv.read fun p hp => .inl (hrest p hp)
    obtain ⟨tx, reward, challenge, time, rfl, rfl⟩ | ⟨amount, rfl, rfl⟩ :=
      perform_landings hperform hlandings
    · exact hread.update rfl (.inl hstep)
    · exact hread.update rfl (.inr rfl)
  · by_cases hproof : eff.scope = .proof
    · obtain ⟨p, hstoring, hp, rfl⟩ := perform_stores hperform hproof
      refine hinv.store hp ?_ (hok.2 p hstoring)
      intro q hq
      obtain hold | ⟨heff, -⟩ := hpending q hq
      · exact hold
      · cases heff
    · rw [Shared.apply_appProof hproof]
      refine Ordered.same_account (hinv.read fun p hp => ?_) (Shared.apply_account hlandings)
      obtain hold | ⟨-, hnew⟩ := hpending p hp
      · exact .inl hold
      · exact .inr (incoming_notOlder hstep hok hnew)

theorem ordered_start (proof : Proof) : Ordered proof.challenge (State.start proof).shared.chain
    (State.start proof).shared.appProof (State.start proof).pending where
  since_mem := List.mem_cons_self
  held_mem := List.mem_cons_self
  pending_mem p hp := by cases hp
  pending p hp := by cases hp
  held := le_rfl

theorem ordered_of_run {since : Challenge} {events : List Event}
    (hinv : Ordered since s.shared.chain s.shared.appProof s.pending)
    (h : run (State.step cfg) s events = some t)
    (hmeets : Meets (State.step cfg) (fun s e => s.InStep e ∧ s.KeepsOrder e) s events) :
    Ordered since t.shared.chain t.shared.appProof t.pending :=
  invariant_of_meets
    (I := fun s : State => Ordered since s.shared.chain s.shared.appProof s.pending)
    (fun _ _ _ hs hok hstep => step_ordered hs hok.1 hok.2 hstep) hinv hmeets h

/-- In every run that keeps the order, the shared proof at a later point is never from
before the shared proof at an earlier one. -/
theorem neverOlder_of_run {proof : Proof} {before after : List Event}
    (h : run (State.step cfg) (.start proof) before = some s)
    (h' : run (State.step cfg) s after = some t)
    (hmeets : Meets (State.step cfg) (fun s e => s.InStep e ∧ s.KeepsOrder e) (.start proof)
      (before ++ after)) :
    t.shared.chain.NotOlder t.shared.appProof.challenge s.shared.appProof.challenge := by
  obtain ⟨hbefore, hafter⟩ := (meets_append h).mp hmeets
  have hinv := ordered_of_run (ordered_start proof) h hbefore
  have hsince : Ordered s.shared.appProof.challenge s.shared.chain s.shared.appProof s.pending :=
    { hinv with since_mem := hinv.held_mem, held := le_rfl }
  exact (ordered_of_run hsince h' hafter).held

theorem neverOlder_scenario : ∃ s t, run (State.step Scenario.config) (.start Scenario.proof)
    (Scenario.untilLanded 500) = some s ∧
    run (State.step Scenario.config) s Scenario.report = some t ∧
    t.shared.appProof.challenge = .fill 32 8 ∧
    t.shared.chain.NotOlder t.shared.appProof.challenge s.shared.appProof.challenge := by
  obtain ⟨s, hs, hend⟩ := exists_run (State.step Scenario.config) (.start Scenario.proof)
    (Scenario.untilLanded 500)
    (fun s => ((run (State.step Scenario.config) s Scenario.report).any fun t : State =>
      decide (t.shared.appProof.challenge = .fill 32 8)) = true) (by decide)
  obtain ⟨t, ht, hheld⟩ := exists_run _ _ _
    (fun t : State => t.shared.appProof.challenge = .fill 32 8) hend
  exact ⟨s, t, hs, ht, hheld, neverOlder_of_run hs ht (by decide)⟩

/-- The number of states of the account up to the last one that has been notified. -/
def observeNotified (s : State) (e : Event) (seen : Nat) : Nat :=
  match e with
  | .tracking (some lag) => s.shared.chain.past.length - lag + 1
  | _ => seen

/-- Notifications are delivered in the order of the account's states. -/
def NotifiedInOrder (x : State × Nat) (e : Event) : Prop :=
  match e with
  | .tracking (some lag) => x.2 + lag ≤ x.1.shared.chain.past.length
  | _ => True

instance (x : State × Nat) (e : Event) : Decidable (NotifiedInOrder x e) :=
  match e with
  | .tracking (some _) => inferInstanceAs (Decidable (_ ≤ _))
  | .tracking none | .submission _ | .ready _ | .mission _ | .message => .isTrue trivial
  | .contribution | .ping _ | .pong | .connect _ _ _ | .receive _ _ => .isTrue trivial
  | .streamEnded _ | .disconnect _ | .land _ _ _ _ | .claim _ | .tick _ => .isTrue trivial

/-- A claim, then a mine transaction that lands and is found by RPC. -/
def claimedAndMined : List Event :=
  Scenario.join 0 (.fill 32 1) 1 ++ Scenario.batch [0] ++
    Scenario.submit 0 Scenario.solution (.fill 32 1) ++ Scenario.send ++ [.claim 1] ++
    Scenario.land 500 ++ Scenario.report.take 4

/-- Only now the notification of the claim arrives. -/
def lateNotification : List Event := [.tracking (some 1), .tracking none, .tracking none]

theorem not_neverOlder : ¬ ∀ cfg proof before after s t,
    run (State.step cfg) (.start proof) before = some s →
    run (State.step cfg) s after = some t →
    Meets (State.step cfg) InStep (.start proof) (before ++ after) →
    Meets (withHistory (State.step cfg) observeNotified) NotifiedInOrder (.start proof, 0)
      (before ++ after) →
    t.shared.chain.NotOlder t.shared.appProof.challenge s.shared.appProof.challenge := by
  intro h
  obtain ⟨s, hs, hheld, hend⟩ := exists_run (State.step Scenario.config) (.start Scenario.proof)
    claimedAndMined
    (fun s => s.shared.appProof.challenge = .fill 32 8 ∧
      ((run (State.step Scenario.config) s lateNotification).any fun t : State =>
        decide (¬ t.shared.chain.NotOlder t.shared.appProof.challenge (.fill 32 8))) = true)
    (by decide)
  obtain ⟨t, ht, holder⟩ := exists_run _ _ _
    (fun t : State => ¬ t.shared.chain.NotOlder t.shared.appProof.challenge (.fill 32 8)) hend
  rw [← hheld] at holder
  exact holder (h _ _ _ _ _ _ hs ht (by decide) (by decide))

end State

end Hashpoo.Mining
