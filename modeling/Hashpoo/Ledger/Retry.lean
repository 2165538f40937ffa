import Hashpoo.Ledger.Balance

/-!
# The retry loops of a mine success

`pool_mine_success_processor` repeats every call until it succeeds, and takes up the next
message behind the last one. A call that finds no row to update reports an error like one
that could not reach the database, and no retry changes the rows. So a single batch
without a known miner holds the processor for good.
-/

namespace Hashpoo

open Foundation Claims

namespace Ledger

/-- The call has something to insert, or a row to update. -/
def Effective (wallet : Pubkey) (ledger : Ledger) : Call → Prop
  | .addNewEarningsBatch batch => batch ≠ []
  | .updateRewards batch =>
      ∃ reward ∈ batch, reward.minerId ∈ ledger.db.rewards.map Reward.minerId
  | .addNewContributionsBatch batch => batch ≠ []
  | .updatePoolRewards _ => (ledger.db.pools.lookup wallet).isSome = true

/-- No statement fails, up to a call that reports an error of its own. -/
def StatementsSucceed (wallet : Pubkey) : Ledger → List Call → Prop
  | _, [] => True
  | ledger, call :: calls =>
      match call.execute wallet ledger with
      | .ok (.ok _, ledger') => StatementsSucceed wallet ledger' calls
      | .ok (.error err, _) => err ≠ .queryFailed
      | .error _ => False

end Ledger

/-! ## The rows that a batch affects -/

namespace Database

variable {db db' : Database} {minerId : Int}

theorem rewardsOf_ne_nil : db.rewardsOf minerId ≠ [] ↔ minerId ∈ db.rewards.map Reward.minerId := by
  rw [← List.length_pos_iff, length_rewardsOf, List.count_pos_iff]

/-- The batch affects a row exactly when it names a miner with one. -/
theorem rewardsLoop_pos {rewards : List UpdateReward} {n m : Nat}
    (h : db.rewardsLoop rewards n = some (m, db')) :
    n < m ↔ ∃ reward ∈ rewards, reward.minerId ∈ db.rewards.map Reward.minerId := by
  induction rewards generalizing n db with
  | nil =>
      cases h
      simp
  | cons reward rewards ih =>
      simp only [rewardsLoop, Option.ite_none_right_eq_some] at h
      have hrest := ih h.2
      have hle := rewardsLoop_le h.2
      rw [minerIds_addToRewards] at hrest
      simp only [List.mem_cons, exists_eq_or_imp]
      rw [← hrest, ← rewardsOf_ne_nil, ← List.length_pos_iff]
      omega

end Database

namespace Ledger

variable {wallet : Pubkey} {ledger ledger' : Ledger} {call : Call} {calls : List Call}
  {cfg : MineConfig} {s t : State}

/-! ## One call -/

theorem effective_iff (h : ledger.SameRows ledger') :
    ledger'.Effective wallet call ↔ ledger.Effective wallet call := by
  cases call with
  | addNewEarningsBatch batch => exact Iff.rfl
  | updateRewards batch => rw [Effective, Effective, h.minerIds]
  | addNewContributionsBatch batch => exact Iff.rfl
  | updatePoolRewards earnedRewards => rw [Effective, Effective, h.pools]

theorem effective_of_ok (h : call.execute wallet ledger = .ok (.ok (), ledger')) :
    ledger.Effective wallet call := by
  cases call with
  | addNewEarningsBatch batch =>
      rintro rfl
      cases h
  | updateRewards batch =>
      simp only [Call.execute, updateRewards] at h
      split at h
      · next rowsAffected db hloop =>
        refine (Database.rewardsLoop_pos hloop).mp (Nat.pos_of_ne_zero ?_)
        rintro rfl
        cases h
      · cases h
  | addNewContributionsBatch batch =>
      rintro rfl
      cases h
  | updatePoolRewards earnedRewards =>
      simp only [Call.execute, updatePoolRewards] at h
      split at h
      · next pool hpool => rw [Effective, hpool, Option.isSome_some]
      · cases h

/-- An effective call whose statements succeed is done. -/
theorem execute_of_effective (heffective : ledger.Effective wallet call)
    (hstatements : StatementsSucceed wallet ledger (call :: calls)) :
    ∃ ledger', call.execute wallet ledger = .ok (.ok (), ledger') ∧
      StatementsSucceed wallet ledger' calls := by
  rw [StatementsSucceed] at hstatements
  split at hstatements
  · next ledger' hexecute => exact ⟨ledger', hexecute, hstatements⟩
  · next err ledger' hexecute =>
    exfalso
    cases call with
    | addNewEarningsBatch batch =>
        have hlength : batch.length ≠ 0 := by simpa [Effective] using heffective
        simp [Call.execute, addNewEarningsBatch, hlength] at hexecute
    | updateRewards batch =>
        simp only [Call.execute, updateRewards] at hexecute
        split at hexecute
        · next rowsAffected db hloop =>
          have hrows := (Database.rewardsLoop_pos hloop).mpr heffective
          simp [Nat.ne_of_gt hrows] at hexecute
        · cases hexecute
    | addNewContributionsBatch batch =>
        have hlength : batch.length ≠ 0 := by simpa [Effective] using heffective
        simp [Call.execute, addNewContributionsBatch, hlength] at hexecute
    | updatePoolRewards earnedRewards =>
        obtain ⟨pool, hpool⟩ := Option.isSome_iff_exists.mp heffective
        simp only [Call.execute, updatePoolRewards, hpool] at hexecute
        split at hexecute
        · cases hexecute
        · cases hexecute
          exact hstatements rfl
  · exact hstatements.elim

/-! ## The loops -/

theorem step_success_ok (halive : s.aborted = false) (hsuccess : s.success = call :: calls)
    (hexecute : call.execute wallet s.ledger = .ok (.ok (), ledger')) :
    s.step cfg wallet (.success .answered) =
      some { s with ledger := ledger', success := calls } := by
  rw [State.step, if_neg (by simp [halive])]
  simp only [hsuccess, attempt, hexecute]

/-- A call that reports an error is made again in the same state. -/
theorem step_success_error {err : DatabaseError} (halive : s.aborted = false)
    (hsuccess : s.success = call :: calls)
    (hexecute : call.execute wallet s.ledger = .ok (.error err, ledger')) :
    s.step cfg wallet (.success .answered) = some s := by
  obtain rfl := eq_of_error hexecute
  rw [State.step, if_neg (by simp [halive])]
  simp only [hsuccess, attempt, hexecute]
  rw [← hsuccess]

theorem step_success_panic {p : Panic} (halive : s.aborted = false)
    (hsuccess : s.success = call :: calls)
    (hexecute : call.execute wallet s.ledger = .error p) :
    s.step cfg wallet (.success .answered) = some { s with aborted := true } := by
  rw [State.step, if_neg (by simp [halive])]
  simp only [hsuccess, attempt, hexecute]

/-- With effective calls only, each loop ends in its first round. -/
theorem run_of_effective (halive : s.aborted = false)
    (hstatements : StatementsSucceed wallet s.ledger s.success)
    (heffective : ∀ call ∈ s.success, s.ledger.Effective wallet call) :
    ∃ t, run (State.step cfg wallet) s (List.replicate s.success.length (.success .answered)) =
      some t ∧ t.aborted = false ∧ t.success = [] ∧ t.messages = s.messages := by
  induction hsuccess : s.success generalizing s with
  | nil => exact ⟨s, rfl, halive, hsuccess, rfl⟩
  | cons call calls ih =>
      rw [hsuccess] at hstatements heffective
      obtain ⟨hcall, hcalls⟩ := List.forall_mem_cons.mp heffective
      obtain ⟨ledger', hexecute, hrest⟩ := execute_of_effective hcall hstatements
      have hsame := SameRows.executes ⟨rfl, rfl, fun _ => rfl⟩ (executes_of_ok hexecute)
      have hstep : s.step cfg wallet (.success .answered) = _ :=
        step_success_ok halive hsuccess hexecute
      obtain ⟨t, hrun, hend⟩ := ih (s := { s with ledger := ledger', success := calls }) halive
        hrest (fun call hcall => (effective_iff hsame).mpr (hcalls call hcall)) rfl
      exact ⟨t, run_cons_eq_some.mpr ⟨_, hstep, hrun⟩, hend⟩

/-- The loops end with effective calls only: any other call stays as it is. -/
theorem effective_of_run {n : Nat} (halive : s.aborted = false)
    (hrun : run (State.step cfg wallet) s (List.replicate n (.success .answered)) = some t)
    (hend : t.aborted = false) (hdone : t.success = []) :
    ∀ call ∈ s.success, s.ledger.Effective wallet call := by
  induction n generalizing s with
  | zero =>
      cases hrun
      rw [hdone]
      exact fun call hcall => absurd hcall List.not_mem_nil
  | succ n ih =>
      obtain ⟨u, hstep, hrest⟩ := run_cons_eq_some.mp hrun
      cases hsuccess : s.success with
      | nil => exact fun call hcall => absurd hcall List.not_mem_nil
      | cons call calls =>
          match hexecute : call.execute wallet s.ledger with
          | .ok (.ok _, ledger') =>
              rw [step_success_ok halive hsuccess hexecute] at hstep
              cases hstep
              have hsame := SameRows.executes ⟨rfl, rfl, fun _ => rfl⟩ (executes_of_ok hexecute)
              rw [List.forall_mem_cons]
              refine ⟨effective_of_ok hexecute, fun call hcall => ?_⟩
              exact (effective_iff hsame).mp
                (ih (s := { s with ledger := ledger', success := calls }) halive hrest call hcall)
          | .ok (.error err, ledger') =>
              rw [step_success_error halive hsuccess hexecute] at hstep
              cases hstep
              rw [← hsuccess]
              exact ih halive hrest
          | .error p =>
              rw [step_success_panic halive hsuccess hexecute] at hstep
              cases hstep
              cases n with
              | zero =>
                  cases hrest
                  cases hend
              | succ n =>
                  obtain ⟨u, hstep, -⟩ := run_cons_eq_some.mp hrest
                  cases hstep

/-! ## One message -/

/-- The message is taken up and its loops end, with every call answered. -/
def Processes (cfg : MineConfig) (wallet : Pubkey) (s : State)
    (messages : List MessageInternalMineSuccess) : Prop :=
  ∃ n t, run (State.step cfg wallet) s (.receive :: List.replicate n (.success .answered)) =
    some t ∧ t.aborted = false ∧ t.success = [] ∧ t.messages = messages

/-- Which calls of a message are effective depends on the batches of updates only. -/
theorem effective_calls_iff (cfg : MineConfig) (msg : MessageInternalMineSuccess) :
    (∀ call ∈ msg.calls cfg, ledger.Effective wallet call) ↔
      (∀ batch ∈ chunks MessageInternalMineSuccess.batchSize
          (msg.contributions.values.map msg.updateReward),
        ∃ reward ∈ batch, reward.minerId ∈ ledger.db.rewards.map Reward.minerId) ∧
      (ledger.db.pools.lookup wallet).isSome = true := by
  simp only [MessageInternalMineSuccess.calls, List.forall_mem_append, List.forall_mem_map,
    List.forall_mem_singleton, Effective]
  constructor
  · rintro ⟨⟨⟨-, hrewards⟩, -⟩, hpool⟩
    exact ⟨hrewards, hpool⟩
  · rintro ⟨hrewards, hpool⟩
    exact ⟨⟨⟨fun _ => ne_nil_of_mem_chunks, hrewards⟩, fun _ => ne_nil_of_mem_chunks⟩, hpool⟩

theorem step_receive {msg : MessageInternalMineSuccess}
    {messages : List MessageInternalMineSuccess} (halive : s.aborted = false)
    (hsuccess : s.success = []) (hmessages : s.messages = msg :: messages) :
    s.step cfg wallet .receive =
      if msg.contributions.entries ≠ [] ∧ msg.totalHashpower = 0 then
        some { s with aborted := true }
      else
        some { s with messages := messages, success := msg.calls cfg } := by
  rw [State.step, if_neg (by simp [halive])]
  simp only [hsuccess, hmessages, MessageInternalMineSuccess.process,
    MessageInternalMineSuccess.earnings]
  split <;> split <;> simp_all

/-- A message that is processed needs its division and all of its calls. -/
theorem effective_of_processes {msg : MessageInternalMineSuccess}
    {messages : List MessageInternalMineSuccess} (halive : s.aborted = false)
    (hsuccess : s.success = []) (hmessages : s.messages = msg :: messages)
    (h : Processes cfg wallet s messages) :
    (msg.contributions.entries = [] ∨ msg.totalHashpower ≠ 0) ∧
      ∀ call ∈ msg.calls cfg, s.ledger.Effective wallet call := by
  obtain ⟨n, t, hrun, hend, hdone, -⟩ := h
  obtain ⟨u, hstep, hrest⟩ := run_cons_eq_some.mp hrun
  rw [step_receive halive hsuccess hmessages] at hstep
  split at hstep
  · cases hstep
    cases n with
    | zero =>
        cases hrest
        cases hend
    | succ n =>
        obtain ⟨u, hstep, -⟩ := run_cons_eq_some.mp hrest
        cases hstep
  · next hdivides =>
    cases hstep
    refine ⟨by tauto, ?_⟩
    exact effective_of_run (s := { s with messages := _, success := _ }) halive hrest hend hdone

/-- With a database that answers every call, the loops of a message end exactly when the
division by the total hashpower succeeds, every batch of updates names a miner with a row
of `rewards`, and the wallet has a pool. -/
theorem applies_iff (cfg : MineConfig) (wallet : Pubkey) (s : State)
    (msg : MessageInternalMineSuccess) (messages : List MessageInternalMineSuccess)
    (halive : s.aborted = false) (hsuccess : s.success = [])
    (hmessages : s.messages = msg :: messages)
    (hstatements : StatementsSucceed wallet s.ledger (msg.calls cfg)) :
    Processes cfg wallet s messages ↔
      (msg.contributions.entries = [] ∨ msg.totalHashpower ≠ 0) ∧
      (∀ batch ∈ chunks MessageInternalMineSuccess.batchSize
          (msg.contributions.values.map msg.updateReward),
        ∃ reward ∈ batch, reward.minerId ∈ s.ledger.db.rewards.map Reward.minerId) ∧
      (s.ledger.db.pools.lookup wallet).isSome = true := by
  rw [← effective_calls_iff cfg]
  constructor
  · exact effective_of_processes halive hsuccess hmessages
  · rintro ⟨hpositive, heffective⟩
    have hdivides : ¬ (msg.contributions.entries ≠ [] ∧ msg.totalHashpower = 0) := by tauto
    let u : State := { s with messages := messages, success := msg.calls cfg }
    have hreceive : s.step cfg wallet .receive = some u := by
      rw [step_receive halive hsuccess hmessages, if_neg hdivides]
    obtain ⟨t, hrun, hend⟩ := run_of_effective (s := u) halive hstatements heffective
    exact ⟨_, t, run_cons_eq_some.mpr ⟨u, hreceive, hrun⟩, hend⟩

/-- The message of two miners is in the channel. -/
def arrived (ledger : Ledger) (msg : MessageInternalMineSuccess) : State :=
  { State.start ledger with messages := [msg] }

theorem applies_sample : Processes ⟨1000, 1002⟩ (.fill 32 9) (arrived sample .sample) [] :=
  (applies_iff _ _ _ MessageInternalMineSuccess.sample _ rfl rfl rfl (by trivial)).mpr
    (by decide)

/-- One contribution, of a miner that has no row of `rewards`. -/
def unknownMiner : MessageInternalMineSuccess :=
  { MessageInternalMineSuccess.sample with
    totalHashpower := 2
    contributions := (∅ : Contributions).insert (.fill 32 1) ⟨2000, 9, .fill 16 0, 7, 2⟩ }

theorem not_processes_unknownMiner : ¬ ∀ cfg wallet s msg messages, s.aborted = false →
    s.success = [] → s.messages = msg :: messages →
    StatementsSucceed wallet s.ledger (msg.calls cfg) → Processes cfg wallet s messages := by
  intro h
  have hprocesses := h ⟨1000, 1002⟩ (.fill 32 9) (arrived sample unknownMiner) unknownMiner []
    rfl rfl rfl nofun
  obtain ⟨-, heffective⟩ := effective_of_processes rfl rfl rfl hprocesses
  exact absurd (effective_calls_iff _ _ |>.mp heffective).1 (by decide)

end Ledger

end Hashpoo
