import Hashpoo.Foundation.Accounting
import Hashpoo.Ledger.System
import Mathlib.Data.List.Perm.Basic
import Mathlib.Tactic.Abel

/-!
# Accounts

An account reads a quantity off the tables, and prices what the tasks do: the rows that
a call writes and what the booking of a payout has still to write. Every account is
balanced: tables and unfinished work together change only when a mine success or a
booking begins. So when all work is done, the tables show what has been begun.
-/

namespace Hashpoo

open Foundation Claims

namespace Ledger

/-! ## Successful calls -/

/-- What the calls do when they succeed. -/
inductive Executes (wallet : Pubkey) (ledger : Ledger) : Call → Ledger → Prop
  | earnings (batch : List InsertEarning) :
      Executes wallet ledger (.addNewEarningsBatch batch)
        { ledger with earnings := ledger.earnings ++ batch }
  | rewards (batch : List UpdateReward) (rowsAffected : Nat) (db : Database) :
      ledger.db.rewardsLoop batch 0 = some (rowsAffected, db) →
      Executes wallet ledger (.updateRewards batch) { ledger with db := db }
  | contributions (batch : List InsertContribution) :
      Executes wallet ledger (.addNewContributionsBatch batch)
        { ledger with contributions := ledger.contributions ++ batch.map InsertContribution.row }
  | poolRewards (earnedRewards : Int) :
      Executes wallet ledger (.updatePoolRewards earnedRewards)
        { ledger with totalRewards :=
            ledger.totalRewards.insert wallet (ledger.totalRewardsOf wallet + earnedRewards) }

variable {wallet : Pubkey} {ledger ledger' : Ledger} {call : Call} {err : DatabaseError}

theorem executes_of_ok (h : call.execute wallet ledger = .ok (.ok (), ledger')) :
    ledger.Executes wallet call ledger' := by
  cases call with
  | addNewEarningsBatch batch =>
      obtain ⟨-, rfl⟩ := Prod.mk.inj (Except.ok.inj h)
      exact .earnings batch
  | updateRewards batch =>
      simp only [Call.execute, updateRewards] at h
      split at h
      · next rowsAffected db hloop =>
        obtain ⟨-, rfl⟩ := Prod.mk.inj (Except.ok.inj h)
        exact .rewards batch rowsAffected db hloop
      · cases h
  | addNewContributionsBatch batch =>
      obtain ⟨-, rfl⟩ := Prod.mk.inj (Except.ok.inj h)
      exact .contributions batch
  | updatePoolRewards earnedRewards =>
      simp only [Call.execute, updatePoolRewards] at h
      split at h
      · split at h
        · obtain ⟨-, rfl⟩ := Prod.mk.inj (Except.ok.inj h)
          exact .poolRewards earnedRewards
        · cases h
      · cases h

/-- A call that is repeated has changed nothing: an error after the statements means that
they affected no row. -/
theorem eq_of_error (h : call.execute wallet ledger = .ok (.error err, ledger')) :
    ledger' = ledger := by
  cases call with
  | addNewEarningsBatch batch =>
      obtain ⟨hresult, rfl⟩ := Prod.mk.inj (Except.ok.inj h)
      have hbatch : batch = [] := by
        by_contra hne
        simp [hne] at hresult
      simp [hbatch]
  | updateRewards batch =>
      simp only [Call.execute, updateRewards] at h
      split at h
      · next rowsAffected db hloop =>
        obtain ⟨hresult, rfl⟩ := Prod.mk.inj (Except.ok.inj h)
        have hrows : rowsAffected = 0 := by
          by_contra hne
          simp [hne] at hresult
        rw [hrows] at hloop
        rw [Database.rewardsLoop_of_no_row hloop]
      · cases h
  | addNewContributionsBatch batch =>
      obtain ⟨hresult, rfl⟩ := Prod.mk.inj (Except.ok.inj h)
      have hbatch : batch = [] := by
        by_contra hne
        simp [hne] at hresult
      simp [hbatch]
  | updatePoolRewards earnedRewards =>
      simp only [Call.execute, updatePoolRewards] at h
      split at h
      · split at h
        · cases h
        · exact (Prod.mk.inj (Except.ok.inj h)).2.symm
      · exact (Prod.mk.inj (Except.ok.inj h)).2.symm

/-- A round of a retry loop: the call succeeds and is done, or everything stays. -/
theorem attempt_eq_ok {answer : Attempt} {calls calls' : List Call}
    (h : attempt wallet ledger call calls answer = .ok (calls', ledger')) :
    calls' = calls ∧ ledger.Executes wallet call ledger' ∨
      calls' = call :: calls ∧ ledger' = ledger := by
  cases answer with
  | answered =>
      simp only [attempt] at h
      split at h
      · next hexecute =>
        cases h
        exact .inl ⟨rfl, executes_of_ok hexecute⟩
      · next hexecute =>
        cases h
        exact .inr ⟨rfl, eq_of_error hexecute⟩
      · cases h
  | failed =>
      cases h
      exact .inr ⟨rfl, rfl⟩
  | unwrapped => cases h

/-! ## What never changes -/

/-- The miners and the pools are the same, and so are the owners of the rows of `rewards`. -/
structure SameRows (origin ledger : Ledger) : Prop where
  minerIds : ledger.db.rewards.map Reward.minerId = origin.db.rewards.map Reward.minerId
  miners : ledger.db.miners = origin.db.miners
  pools : ∀ authority, (ledger.db.pools.lookup authority).isSome =
    (origin.db.pools.lookup authority).isSome

namespace SameRows

variable {origin : Ledger} {rc : Receipt} {pc pc' : BookingPc} {db : Database}

theorem length_rewardsOf (h : origin.SameRows ledger) (minerId : Int) :
    (ledger.db.rewardsOf minerId).length = (origin.db.rewardsOf minerId).length := by
  rw [Database.length_rewardsOf, h.minerIds, Database.length_rewardsOf]

theorem executes (h : origin.SameRows ledger) (hexecutes : ledger.Executes wallet call ledger') :
    origin.SameRows ledger' := by
  cases hexecutes with
  | rewards batch rowsAffected db hloop =>
      have hsame := Database.rewardsLoop_onlyBalances hloop
      exact ⟨hsame.minerIds.trans h.minerIds, hsame.miners.trans h.miners, fun authority => by
        rw [← h.pools authority, ← hsame.pools]⟩
  | _ => exact ⟨h.minerIds, h.miners, h.pools⟩

theorem outcome (h : origin.SameRows ledger) (houtcome : rc.Outcome ledger.db pc pc' db) :
    origin.SameRows { ledger with db := db } := by
  cases houtcome with
  | decrease | decreaseRows =>
      exact ⟨Database.minerIds_addToRewards.trans h.minerIds, h.miners, h.pools⟩
  | poolClaimed minerId poolId pool hpool =>
      refine ⟨h.minerIds, h.miners, fun authority => ?_⟩
      rw [← h.pools authority]
      by_cases hauthority : authority = rc.authority
      · subst hauthority
        rw [AList.lookup_insert, hpool]
        rfl
      · rw [AList.lookup_insert_ne hauthority]
  | _ => exact ⟨h.minerIds, h.miners, h.pools⟩

end SameRows

/-! ## Accounts -/

/-- An account over the tables that started as `origin`. -/
structure Account (origin : Ledger) (wallet : Pubkey) (M : Type) [AddCommMonoid M] where
  value : Ledger → M
  earning : InsertEarning → M
  reward : UpdateReward → M
  contribution : InsertContribution → M
  poolRewards : Int → M
  /-- What the booking has still to write. -/
  booking : Receipt → BookingPc → M
  value_earnings : ∀ (ledger : Ledger) (batch : List InsertEarning),
    value { ledger with earnings := ledger.earnings ++ batch } =
      value ledger + (batch.map earning).sum
  value_rewards : ∀ {ledger : Ledger} {batch : List UpdateReward} {rowsAffected : Nat}
    {db : Database}, origin.SameRows ledger →
    ledger.db.rewardsLoop batch 0 = some (rowsAffected, db) →
    value { ledger with db := db } = value ledger + (batch.map reward).sum
  value_contributions : ∀ (ledger : Ledger) (batch : List InsertContribution),
    value { ledger with
      contributions := ledger.contributions ++ batch.map InsertContribution.row } =
      value ledger + (batch.map contribution).sum
  value_poolRewards : ∀ (ledger : Ledger) (earnedRewards : Int),
    value { ledger with totalRewards :=
      ledger.totalRewards.insert wallet (ledger.totalRewardsOf wallet + earnedRewards) } =
      value ledger + poolRewards earnedRewards
  value_outcome : ∀ {ledger : Ledger} {rc : Receipt} {pc pc' : BookingPc} {db : Database},
    origin.SameRows ledger → rc.authority = wallet → rc.Outcome ledger.db pc pc' db →
    value { ledger with db := db } + booking rc pc' = value ledger + booking rc pc
  booking_booked : ∀ rc, booking rc .booked = 0

namespace Account

variable {origin : Ledger} {M : Type} [AddCommMonoid M] (acc : Account origin wallet M)
  (cfg : MineConfig)

def worth : Call → M
  | .addNewEarningsBatch batch => (batch.map acc.earning).sum
  | .updateRewards batch => (batch.map acc.reward).sum
  | .addNewContributionsBatch batch => (batch.map acc.contribution).sum
  | .updatePoolRewards earnedRewards => acc.poolRewards earnedRewards

/-- What the calls have still to write. -/
def owed (calls : List Call) : M := (calls.map acc.worth).sum

/-- What the message leads to. -/
def message (msg : MessageInternalMineSuccess) : M := acc.owed (msg.calls cfg)

/-- What a landed-tx task leads to, with the message that it sends. -/
def task (t : LandedTask) : M := acc.owed t.calls + acc.message cfg t.msg

/-- What the tables show and what is on its way to them. -/
def total (s : State) : M :=
  acc.value s.ledger + (s.landed.map (acc.task cfg)).sum + (s.messages.map (acc.message cfg)).sum +
    acc.owed s.success + s.claim.elim 0 fun c => acc.booking c.1 c.2

/-- What a mine success and a booking add. -/
def mineSuccess (msg : MessageInternalMineSuccess) : M :=
  acc.owed (msg.commissionCalls cfg) + acc.message cfg msg

def gain (e : Event) : M :=
  e.landed.elim 0 (acc.mineSuccess cfg) +
    (e.confirmed wallet).elim 0 fun rc => acc.booking rc .getMiner

@[simp] theorem owed_nil : acc.owed [] = 0 := rfl

@[simp] theorem owed_cons (calls : List Call) :
    acc.owed (call :: calls) = acc.worth call + acc.owed calls := by
  simp [owed]

theorem value_executes (hsame : origin.SameRows ledger)
    (h : ledger.Executes wallet call ledger') :
    acc.value ledger' = acc.value ledger + acc.worth call := by
  cases h with
  | earnings batch => exact acc.value_earnings ledger batch
  | rewards batch rowsAffected db hloop => exact acc.value_rewards hsame hloop
  | contributions batch => exact acc.value_contributions ledger batch
  | poolRewards earnedRewards => exact acc.value_poolRewards ledger earnedRewards

/-- Failed calls cost nothing, and a successful one moves its worth into the tables. -/
theorem value_attempt {answer : Attempt} {calls calls' : List Call}
    (hsame : origin.SameRows ledger)
    (h : attempt wallet ledger call calls answer = .ok (calls', ledger')) :
    acc.value ledger' + acc.owed calls' = acc.value ledger + acc.owed (call :: calls) := by
  obtain ⟨rfl, hexecutes⟩ | ⟨rfl, rfl⟩ := attempt_eq_ok h
  · rw [acc.value_executes hsame hexecutes, owed_cons, add_assoc]
  · rfl

variable {acc cfg}

/-! ## Runs -/

/-- What the accounts rely on. -/
structure Posting (origin : Ledger) (wallet : Pubkey) (s : State) : Prop where
  sameRows : origin.SameRows s.ledger
  authority : ∀ c ∈ s.claim, c.1.authority = wallet

variable {s t : State} {e : Event}

theorem sameRows_attempt {answer : Attempt} {calls calls' : List Call}
    (hsame : origin.SameRows ledger)
    (h : attempt wallet ledger call calls answer = .ok (calls', ledger')) :
    origin.SameRows ledger' := by
  obtain ⟨-, hexecutes⟩ | ⟨-, rfl⟩ := attempt_eq_ok h
  · exact hsame.executes hexecutes
  · exact hsame

theorem posting_start : Posting origin wallet (.start origin) :=
  ⟨⟨rfl, rfl, fun _ => rfl⟩, fun c hc => by cases hc⟩

theorem Posting.step (h : Posting origin wallet s) (hsteps : s.Steps cfg wallet e t) :
    Posting origin wallet t := by
  cases hsteps with
  | commission k answer msg call calls calls' ledger _ hattempt =>
      exact ⟨sameRows_attempt h.sameRows hattempt, h.authority⟩
  | success answer call calls calls' ledger _ hattempt =>
      exact ⟨sameRows_attempt h.sameRows hattempt, h.authority⟩
  | confirm minerPubkey amount signature =>
      exact ⟨h.sameRows, fun c hc => by cases hc; rfl⟩
  | claim now fails rc pc pc' db hclaim hstep =>
      refine ⟨h.sameRows.outcome (Receipt.step_outcome hstep), fun c hc => ?_⟩
      cases hc
      exact h.authority (rc, pc) hclaim
  | dequeue => exact ⟨h.sameRows, fun c hc => by cases hc⟩
  | _ => exact ⟨h.sameRows, h.authority⟩

/-- The tasks with the task `k` replaced, up to order. -/
theorem sum_set {k : Nat} {task task' : LandedTask} {landed : List LandedTask}
    (f : LandedTask → M) (hk : landed[k]? = some task) :
    ((landed.set k task').map f).sum = f task' + ((landed.eraseIdx k).map f).sum := by
  obtain ⟨hlt, rfl⟩ := List.getElem?_eq_some_iff.mp hk
  rw [((List.set_perm_cons_eraseIdx hlt task').map f).sum_eq, List.map_cons, List.sum_cons]

theorem sum_eraseIdx {k : Nat} {task : LandedTask} {landed : List LandedTask}
    (f : LandedTask → M) (hk : landed[k]? = some task) :
    (landed.map f).sum = f task + ((landed.eraseIdx k).map f).sum := by
  obtain ⟨hlt, rfl⟩ := List.getElem?_eq_some_iff.mp hk
  rw [← ((List.getElem_cons_eraseIdx_perm hlt).map f).sum_eq, List.map_cons, List.sum_cons]

/-- Every step adds the gain of its event. -/
theorem total_step (h : Posting origin wallet s) (hsteps : s.Steps cfg wallet e t) :
    acc.total cfg t = acc.total cfg s + acc.gain cfg e := by
  cases hsteps with
  | land msg =>
      simp only [total, gain, Event.landed, Event.confirmed, Option.elim, List.map_cons,
        List.sum_cons, task, mineSuccess]
      abel
  | commission k answer msg call calls calls' ledger hk hattempt =>
      have hvalue := acc.value_attempt h.sameRows hattempt
      simp only [total, gain, Event.landed, Event.confirmed, Option.elim, sum_set _ hk,
        sum_eraseIdx _ hk, task, ← add_assoc, hvalue]
      abel
  | send k msg hk =>
      simp only [total, gain, Event.landed, Event.confirmed, Option.elim, sum_eraseIdx _ hk, task,
        owed_nil, List.map_append, List.sum_append, List.map_cons, List.map_nil, List.sum_cons,
        List.sum_nil]
      abel
  | receive msg messages hsuccess hmessages =>
      simp only [total, gain, Event.landed, Event.confirmed, Option.elim, hsuccess, hmessages,
        owed_nil, List.map_cons, List.sum_cons, message]
      abel
  | success answer call calls calls' ledger hsuccess hattempt =>
      have hvalue := acc.value_attempt h.sameRows hattempt
      simp only [total, gain, Event.landed, Event.confirmed, Option.elim, hsuccess]
      rw [add_right_comm _ _ (acc.owed calls'), add_right_comm _ _ (acc.owed calls'), hvalue]
      abel
  | confirm minerPubkey amount signature hclaim =>
      simp only [total, gain, Event.landed, Event.confirmed, Option.elim, hclaim]
      abel
  | claim now fails rc pc pc' db hclaim hstep =>
      have hvalue := acc.value_outcome h.sameRows (h.authority _ hclaim)
        (Receipt.step_outcome hstep)
      simp only [total, gain, Event.landed, Event.confirmed, Option.elim, hclaim]
      rw [add_right_comm _ _ (acc.booking rc pc'), add_right_comm _ _ (acc.booking rc pc'),
        add_right_comm _ _ (acc.booking rc pc'), hvalue]
      abel
  | dequeue rc hclaim =>
      simp only [total, gain, Event.landed, Event.confirmed, Option.elim, hclaim,
        acc.booking_booked, add_zero]
  | abort e hlanded hconfirmed =>
      simp only [total, gain, hlanded, hconfirmed, Option.elim, add_zero]

/-- Where all work is done, the tables show the worth of what has begun. -/
theorem value_of_run {events : List Event}
    (hrun : run (State.step cfg wallet) (.start origin) events = some s) (hsettled : s.Settled) :
    acc.value s.ledger = acc.value origin +
      (((events.filterMap Event.landed).map (acc.mineSuccess cfg)).sum +
        ((events.filterMap (Event.confirmed wallet)).map fun rc =>
          acc.booking rc .getMiner).sum) := by
  have htotal : acc.total cfg s =
      acc.total cfg (.start origin) + (events.map (acc.gain cfg)).sum :=
    total_of_run (fun _ _ _ h hstep => h.step (State.step_steps hstep))
      (fun _ _ _ h hstep => total_step h (State.step_steps hstep)) posting_start hrun
  have hstart_total : acc.total cfg (.start origin) = acc.value origin := by
    simp [total, State.start]
  have hend : acc.total cfg s = acc.value s.ledger := by
    simp [total, hsettled.landed, hsettled.messages, hsettled.success, hsettled.claim]
  have hgain : (events.map (acc.gain cfg)).sum =
      (events.map fun e => e.landed.elim 0 (acc.mineSuccess cfg)).sum +
        (events.map fun e => (e.confirmed wallet).elim 0 fun rc =>
          acc.booking rc .getMiner).sum :=
    List.sum_map_add
  rw [← hend, htotal, hstart_total, hgain, sum_map_filterMap, sum_map_filterMap]

/-! ## The worth of a mine success -/

theorem owed_append (calls calls' : List Call) :
    acc.owed (calls ++ calls') = acc.owed calls + acc.owed calls' := by
  simp [owed]

theorem owed_earnings (batches : List (List InsertEarning)) :
    acc.owed (batches.map .addNewEarningsBatch) =
      (batches.map fun batch => (batch.map acc.earning).sum).sum := by
  simp [owed, worth, Function.comp_def]

theorem owed_rewards (batches : List (List UpdateReward)) :
    acc.owed (batches.map .updateRewards) =
      (batches.map fun batch => (batch.map acc.reward).sum).sum := by
  simp [owed, worth, Function.comp_def]

theorem owed_contributions (batches : List (List InsertContribution)) :
    acc.owed (batches.map .addNewContributionsBatch) =
      (batches.map fun batch => (batch.map acc.contribution).sum).sum := by
  simp [owed, worth, Function.comp_def]

/-- Cut into batches, the rows are worth the same. -/
theorem sum_map_batches {α : Type} (f : α → M) (n : Nat) (rows : List α) :
    ((chunks n rows).map fun batch => (batch.map f).sum).sum = (rows.map f).sum :=
  sum_map_chunks rfl (fun xs ys => by simp) n rows

/-- A mine success is worth its rows, in however many batches they are written. -/
theorem mineSuccess_eq (msg : MessageInternalMineSuccess) : acc.mineSuccess cfg msg =
    ((msg.earningRows cfg).map acc.earning).sum +
      ((msg.rewardUpdates cfg).map acc.reward).sum +
      (msg.contributions.values.map fun c => acc.contribution (msg.insertContribution c)).sum +
      acc.poolRewards msg.rewards := by
  simp only [mineSuccess, message, MessageInternalMineSuccess.calls, owed_append, owed_earnings,
    owed_rewards, owed_contributions, sum_map_batches, MessageInternalMineSuccess.commissionCalls,
    owed_cons, owed_nil, worth, MessageInternalMineSuccess.earningRows_eq,
    MessageInternalMineSuccess.rewardUpdates, List.map_cons, List.map_nil, List.sum_cons,
    List.sum_nil, List.map_map, Function.comp_def]
  abel

end Account

end Ledger

end Hashpoo
