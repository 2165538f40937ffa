import Hashpoo.Ledger.Balance

/-!
# Solvency

What the miners can still claim and what they have been paid, together, is another account:
a mine success adds its credits, and the booking of a payout moves an amount from one side
to the other. Between the debit and the update of the pool the amount is on neither side,
and credits that are on their way are not there yet, so in a state where tasks are at work,
or where the server has stopped in the middle of one, the tables show too little and never
too much.
-/

namespace Hashpoo

open Foundation Claims

/-! ## The sum of all balances -/

namespace Database

variable {db db' : Database}

def balanceTotal (db : Database) : Int := (db.rewards.map Reward.balance).sum

theorem balanceTotal_addToRewards (minerId delta : Int) :
    (db.addToRewards minerId delta).balanceTotal =
      db.balanceTotal + (db.rewardsOf minerId).length * delta := by
  simp only [balanceTotal, addToRewards, rewardsOf]
  induction db.rewards with
  | nil => simp
  | cons row rows ih =>
      simp only [List.map_cons, List.sum_cons, ih]
      by_cases hrow : row.minerId = minerId
      · simp only [hrow, if_true, List.filter_cons_of_pos, decide_true, List.length_cons]
        push_cast
        rw [add_mul]
        omega
      · rw [if_neg hrow, List.filter_cons_of_neg (by simpa using hrow), add_assoc]

/-- An update counts once for each row of its miner. -/
def credited (db : Database) (reward : UpdateReward) : Int :=
  (db.rewardsOf reward.minerId).length * reward.balance

theorem rewardsLoop_balanceTotal {rewards : List UpdateReward} {n m : Nat}
    (h : db.rewardsLoop rewards n = some (m, db')) :
    db'.balanceTotal = db.balanceTotal + (rewards.map db.credited).sum := by
  induction rewards generalizing n db with
  | nil =>
      cases h
      simp
  | cons reward rewards ih =>
      simp only [rewardsLoop, Option.ite_none_right_eq_some] at h
      have hcredited : (db.addToRewards reward.minerId reward.balance).credited = db.credited := by
        funext other
        rw [credited, length_rewardsOf, minerIds_addToRewards, ← length_rewardsOf, credited]
      rw [ih h.2, hcredited, balanceTotal_addToRewards, List.map_cons, List.sum_cons, add_assoc,
        credited]

/-- A miner without exactly one row has none, when no miner has two. -/
theorem addToRewards_of_rows {minerId delta : Int}
    (hunique : (db.rewards.map Reward.minerId).Nodup) (hrows : (db.rewardsOf minerId).length ≠ 1) :
    db.addToRewards minerId delta = db := by
  have hle := List.nodup_iff_count_le_one.mp hunique minerId
  rw [← length_rewardsOf] at hle
  exact addToRewards_of_no_row (List.length_eq_zero_iff.mp (by omega))

end Database

/-! ## The credits of a mine success -/

namespace MessageInternalMineSuccess

variable {msg : MessageInternalMineSuccess}

/-- The landed-tx task has computed the message, from a reward and hashpowers whose sums fit
their types. -/
structure Sound (msg : MessageInternalMineSuccess) : Prop where
  computed : msg.Computed
  nonneg : 0 ≤ msg.rewards
  rewards : 5 * msg.rewards < 2 ^ 63
  hashpower : hashpowerSum msg.contributions < 2 ^ 64

/-- Without hashpower nobody earns anything. -/
theorem earned_of_no_hashpower (h : msg.totalHashpower = 0) (c : InternalMessageContribution) :
    msg.earned c = 0 := by
  rw [earned, earnedRewards, hashpowerPercent, h, Nat.div_zero,
    Word.saturatingMul_eq (by rw [Nat.zero_mul]; exact Nat.two_pow_pos 128), Nat.zero_mul,
    Nat.zero_div]
  rfl

theorem Sound.credits (h : msg.Sound) :
    (∀ x ∈ msg.credits, 0 ≤ x) ∧ msg.credits.sum ≤ msg.rewards := by
  obtain ⟨rewards, hrewards⟩ := Int.eq_ofNat_of_zero_le h.nonneg
  have hfive : 5 * rewards < 2 ^ 63 := by
    have hfit := h.rewards
    omega
  obtain hzero | hpos := Nat.eq_zero_or_pos msg.totalHashpower
  · have hcommissions := (h.computed.amounts hrewards hfive).1
    have hearned : msg.contributions.values.map msg.earned =
        List.replicate msg.contributions.values.length 0 := by
      rw [← List.map_const']
      exact List.map_congr_left fun c _ => earned_of_no_hashpower hzero c
    rw [MessageInternalMineSuccess.credits, hearned, hcommissions, hrewards]
    constructor
    · intro x hx
      obtain rfl | hx := List.mem_cons.mp hx
      · omega
      · rw [List.eq_of_mem_replicate hx]
    · rw [List.sum_cons, List.sum_replicate, nsmul_zero]
      omega
  · exact h.computed.credits_within hrewards hfive h.hashpower hpos

theorem map_balance_rewardUpdates (cfg : MineConfig) :
    (msg.rewardUpdates cfg).map UpdateReward.balance = msg.credits := by
  simp only [rewardUpdates, updateReward, credits, List.map_cons, List.map_map, Function.comp_def]

end MessageInternalMineSuccess

namespace Ledger

variable {ledger origin : Ledger}

/-! ## The account -/

theorem SameRows.credited (h : origin.SameRows ledger) :
    ledger.db.credited = origin.db.credited := by
  funext reward
  rw [Database.credited, h.length_rewardsOf, Database.credited]

/-- What the miners can claim and what they have been paid. -/
def issued (ledger : Ledger) (wallet : Pubkey) : Int :=
  ledger.db.balanceTotal + ledger.db.claimedRewardsOf wallet

/-- Between the debit and the update of the pool, the amount is on neither side. -/
def inPayment (rc : Receipt) : BookingPc → Int
  | .poolClaimed _ _ => rc.amountI64
  | .getMiner | .getPool _ | .decrease _ _ | .addTransaction _ _ | .getTransactionId _ _
  | .addClaim _ _ _ | .booked => 0

theorem issued_outcome {rc : Receipt} {pc pc' : BookingPc} {db : Database}
    (hunique : (ledger.db.rewards.map Reward.minerId).Nodup)
    (h : rc.Outcome ledger.db pc pc' db) :
    ({ ledger with db := db } : Ledger).issued rc.authority + inPayment rc pc' =
      ledger.issued rc.authority + inPayment rc pc := by
  cases h with
  | decrease minerId poolId hsingle =>
      simp only [issued, Database.balanceTotal_addToRewards, hsingle, Database.claimedRewardsOf,
        Database.addToRewards_pools, inPayment]
      omega
  | decreaseRows minerId poolId hrows => rw [Database.addToRewards_of_rows hunique hrows]
  | poolClaimed minerId poolId pool hpool =>
      have hclaimed : Database.claimedRewardsOf
          { ledger.db with
            pools := ledger.db.pools.insert rc.authority (pool.addClaimed rc.amountI64) }
          rc.authority =
          ledger.db.claimedRewardsOf rc.authority + rc.amountI64 := by
        simp [Database.claimedRewardsOf, hpool, Pool.addClaimed]
      simp only [issued, hclaimed, inPayment]
      simp only [Database.balanceTotal]
      omega
  | _ => rfl

/-- The issued amounts. -/
def issuance (wallet : Pubkey) (hunique : (origin.db.rewards.map Reward.minerId).Nodup) :
    Account origin wallet Int where
  value ledger := ledger.issued wallet
  earning _ := 0
  reward := origin.db.credited
  contribution _ := 0
  poolRewards _ := 0
  booking := inPayment
  value_earnings _ batch := by simp [issued]
  value_rewards hsame hloop := by
    have hpools := (Database.rewardsLoop_onlyBalances hloop).pools
    simp only [issued, Database.claimedRewardsOf, hpools, Database.rewardsLoop_balanceTotal hloop,
      hsame.credited]
    omega
  value_contributions _ batch := by simp [issued]
  value_poolRewards _ _ := by simp [issued]
  value_outcome hsame hauthority houtcome := by
    subst hauthority
    exact issued_outcome (by rw [hsame.minerIds]; exact hunique) houtcome
  booking_booked _ := rfl

namespace Account

/-! ## What is on its way -/

variable {wallet : Pubkey} {cfg : MineConfig} {acc : Account origin wallet Int} {s t : State}
  {e : Event}

/-- Nothing that the tasks have still to write is a debit. -/
structure Pending (acc : Account origin wallet Int) (cfg : MineConfig) (s : State) : Prop where
  landed : ∀ task ∈ s.landed, ∀ call ∈ task.calls ++ task.msg.calls cfg, 0 ≤ acc.worth call
  messages : ∀ msg ∈ s.messages, ∀ call ∈ msg.calls cfg, 0 ≤ acc.worth call
  success : ∀ call ∈ s.success, 0 ≤ acc.worth call
  claim : ∀ c ∈ s.claim, ∀ pc, 0 ≤ acc.booking c.1 pc

/-- What begins with the event is no debit either. -/
structure Adds (acc : Account origin wallet Int) (cfg : MineConfig) (e : Event) : Prop where
  landed : ∀ msg ∈ e.landed, ∀ call ∈ msg.commissionCalls cfg ++ msg.calls cfg, 0 ≤ acc.worth call
  confirmed : ∀ rc ∈ e.confirmed wallet, ∀ pc, 0 ≤ acc.booking rc pc

theorem owed_nonneg {calls : List Call} (h : ∀ call ∈ calls, 0 ≤ acc.worth call) :
    0 ≤ acc.owed calls :=
  List.sum_nonneg fun x hx => by
    obtain ⟨call, hcall, rfl⟩ := List.mem_map.mp hx
    exact h call hcall

/-- The tables show no more than all that has been begun is worth. -/
theorem Pending.value_le (h : acc.Pending cfg s) : acc.value s.ledger ≤ acc.total cfg s := by
  have hlanded : 0 ≤ (s.landed.map (acc.task cfg)).sum :=
    List.sum_nonneg fun x hx => by
      obtain ⟨task, htask, rfl⟩ := List.mem_map.mp hx
      rw [Account.task, message, ← owed_append]
      exact owed_nonneg (h.landed task htask)
  have hmessages : 0 ≤ (s.messages.map (acc.message cfg)).sum :=
    List.sum_nonneg fun x hx => by
      obtain ⟨msg, hmsg, rfl⟩ := List.mem_map.mp hx
      exact owed_nonneg (h.messages msg hmsg)
  have hsuccess := owed_nonneg h.success
  have hclaim : 0 ≤ s.claim.elim 0 fun c => acc.booking c.1 c.2 := by
    cases hc : s.claim with
    | none => exact le_rfl
    | some c => exact h.claim c hc c.2
  rw [total]
  omega

theorem pending_start : acc.Pending cfg (.start origin) where
  landed task htask := absurd htask List.not_mem_nil
  messages msg hmsg := absurd hmsg List.not_mem_nil
  success call hcall := absurd hcall List.not_mem_nil
  claim c hc := by cases hc

/-- After a round of a retry loop the same calls are left, or all but the first. -/
theorem calls_of_attempt {call : Call} {calls calls' : List Call} {answer : Attempt}
    {ledger' : Ledger} (h : attempt wallet ledger call calls answer = .ok (calls', ledger')) :
    calls' ⊆ call :: calls := by
  obtain ⟨rfl, -⟩ | ⟨rfl, -⟩ := attempt_eq_ok h
  · exact List.subset_cons_self call calls'
  · exact List.Subset.refl _

theorem Pending.step (h : acc.Pending cfg s) (hadds : acc.Adds cfg e)
    (hsteps : s.Steps cfg wallet e t) : acc.Pending cfg t := by
  cases hsteps with
  | land msg =>
      refine ⟨fun task htask => ?_, h.messages, h.success, h.claim⟩
      obtain rfl | hold := List.mem_cons.mp htask
      · exact hadds.landed msg rfl
      · exact h.landed task hold
  | commission k answer msg call calls calls' ledger hk hattempt =>
      refine ⟨fun task htask => ?_, h.messages, h.success, h.claim⟩
      obtain hold | rfl := List.mem_or_eq_of_mem_set htask
      · exact h.landed task hold
      · intro c hc
        refine h.landed _ (List.mem_of_getElem? hk) c (List.mem_append.mpr ?_)
        exact (List.mem_append.mp hc).imp (fun hnext => calls_of_attempt hattempt hnext) id
  | send k msg hk =>
      refine ⟨fun task htask => h.landed task (List.mem_of_mem_eraseIdx htask), fun m hm => ?_,
        h.success, h.claim⟩
      obtain hold | hnew := List.mem_append.mp hm
      · exact h.messages m hold
      · rw [List.mem_singleton.mp hnew]
        exact h.landed _ (List.mem_of_getElem? hk)
  | receive msg messages hsuccess hmessages =>
      refine ⟨h.landed, fun m hm => h.messages m ?_, h.messages msg ?_, h.claim⟩
      · rw [hmessages]
        exact List.mem_cons_of_mem _ hm
      · rw [hmessages]
        exact List.mem_cons_self
  | success answer call calls calls' ledger hsuccess hattempt =>
      refine ⟨h.landed, h.messages, fun c hc => h.success c ?_, h.claim⟩
      rw [hsuccess]
      exact calls_of_attempt hattempt hc
  | confirm minerPubkey amount signature hclaim =>
      refine ⟨h.landed, h.messages, h.success, fun c hc => ?_⟩
      cases hc
      exact hadds.confirmed _ rfl
  | claim now fails rc pc pc' db hclaim hstep =>
      refine ⟨h.landed, h.messages, h.success, fun c hc => ?_⟩
      cases hc
      exact h.claim (rc, pc) hclaim
  | dequeue => exact ⟨h.landed, h.messages, h.success, fun c hc => by cases hc⟩
  | abort => exact ⟨h.landed, h.messages, h.success, h.claim⟩

/-- When nothing that begins is a debit, the tables show in every state at most the worth of
what has begun. -/
theorem value_le_of_run {events : List Event} (hadds : ∀ e ∈ events, acc.Adds cfg e)
    (hrun : run (State.step cfg wallet) (.start origin) events = some s) :
    acc.value s.ledger ≤ acc.value origin + (events.map (acc.gain cfg)).sum := by
  have hpending : acc.Pending cfg s := invariant_of_meets
    (fun _ _ _ h hok hstep => h.step hok (State.step_steps hstep)) pending_start
    (meets_of_forall hadds) hrun
  have htotal : acc.total cfg s =
      acc.total cfg (.start origin) + (events.map (acc.gain cfg)).sum :=
    total_of_run (fun _ _ _ h hstep => h.step (State.step_steps hstep))
      (fun _ _ _ h hstep => total_step h (State.step_steps hstep)) posting_start hrun
  have hstart : acc.total cfg (.start origin) = acc.value origin := by
    simp [total, State.start]
  rw [← hstart, ← htotal]
  exact hpending.value_le

end Account

/-! ## The worth of a mine success -/

variable {wallet : Pubkey} {cfg : MineConfig} {msg : MessageInternalMineSuccess}
  {hunique : (origin.db.rewards.map Reward.minerId).Nodup}

theorem credited_bounds {reward : UpdateReward}
    (hunique : (origin.db.rewards.map Reward.minerId).Nodup) (h : 0 ≤ reward.balance) :
    0 ≤ origin.db.credited reward ∧ origin.db.credited reward ≤ reward.balance := by
  have hle := List.nodup_iff_count_le_one.mp hunique reward.minerId
  rw [← Database.length_rewardsOf] at hle
  rw [Database.credited]
  obtain hzero | hone := Nat.le_one_iff_eq_zero_or_eq_one.mp hle
  · rw [hzero]
    omega
  · rw [hone]
    omega

theorem Account.issuance_mineSuccess (msg : MessageInternalMineSuccess) :
    (issuance wallet hunique).mineSuccess cfg msg =
      ((msg.rewardUpdates cfg).map origin.db.credited).sum := by
  rw [Account.mineSuccess_eq]
  simp [issuance]

/-- The credits that reach a row are no debits and within the rewards. -/
theorem mineSuccess_bounds (h : msg.Sound) :
    (∀ call ∈ msg.commissionCalls cfg ++ msg.calls cfg,
      0 ≤ (issuance wallet hunique).worth call) ∧
      (issuance wallet hunique).mineSuccess cfg msg ≤ msg.rewards := by
  obtain ⟨hcredits, hsum⟩ := h.credits
  have hrows : ∀ row ∈ msg.rewardUpdates cfg, 0 ≤ row.balance := by
    intro row hrow
    refine hcredits _ ?_
    rw [← MessageInternalMineSuccess.map_balance_rewardUpdates cfg]
    exact List.mem_map_of_mem hrow
  have hbatch : ∀ batch : List UpdateReward, batch ⊆ msg.rewardUpdates cfg →
      0 ≤ (issuance wallet hunique).worth (.updateRewards batch) := by
    intro batch hsubset
    refine List.sum_nonneg fun x hx => ?_
    obtain ⟨row, hrow, rfl⟩ := List.mem_map.mp hx
    exact (credited_bounds hunique (hrows row (hsubset hrow))).1
  refine ⟨fun call hcall => ?_, ?_⟩
  · cases call with
    | updateRewards batch =>
        apply hbatch
        have hcases : batch = [⟨cfg.commissionsMinerId, msg.commissions⟩] ∨
            batch ∈ chunks MessageInternalMineSuccess.batchSize
              (msg.contributions.values.map msg.updateReward) := by
          simpa [MessageInternalMineSuccess.commissionCalls,
            MessageInternalMineSuccess.calls] using hcall
        obtain rfl | hchunk := hcases
        · exact List.cons_subset.mpr ⟨List.mem_cons_self, List.nil_subset _⟩
        · intro row hrow
          refine List.mem_cons_of_mem _ ?_
          rw [← flatten_chunks MessageInternalMineSuccess.batchSize
            (msg.contributions.values.map msg.updateReward)]
          exact List.mem_flatten.mpr ⟨batch, hchunk, hrow⟩
    | addNewEarningsBatch batch => simp [Account.worth, issuance]
    | addNewContributionsBatch batch => simp [Account.worth, issuance]
    | updatePoolRewards earnedRewards => exact le_rfl
  · rw [Account.issuance_mineSuccess]
    refine le_trans ?_ hsum
    rw [← MessageInternalMineSuccess.map_balance_rewardUpdates cfg]
    exact List.sum_le_sum fun row hrow => (credited_bounds hunique (hrows row hrow)).2

/-- Miners with one row get their credits whole. -/
theorem mineSuccess_of_enrolled
    (h : ∀ row ∈ msg.rewardUpdates cfg, (origin.db.rewardsOf row.minerId).length = 1) :
    (issuance wallet hunique).mineSuccess cfg msg = msg.credits.sum := by
  rw [Account.issuance_mineSuccess,
    ← MessageInternalMineSuccess.map_balance_rewardUpdates cfg]
  refine congrArg List.sum (List.map_congr_left fun row hrow => ?_)
  rw [Database.credited, h row hrow, Nat.cast_one, one_mul]

/-! ## Runs -/

/-- What the rounding keeps back at most. -/
def dustOf (msg : MessageInternalMineSuccess) : ℚ :=
  msg.contributions.len * ((msg.totalRewards : ℚ) / 1_000_000 + 1)

theorem rewards_lt_credits_add (h : msg.Sound) (hpos : 0 < msg.totalHashpower) :
    (msg.rewards : ℚ) < (msg.credits.sum : Int) + dustOf msg := by
  obtain ⟨rewards, hrewards⟩ := Int.eq_ofNat_of_zero_le h.nonneg
  have hfive : 5 * rewards < 2 ^ 63 := by
    have hfit := h.rewards
    omega
  have hsum := h.computed.total_eq h.hashpower ▸ hpos
  obtain ⟨hcommissions, htotal⟩ := h.computed.amounts hrewards hfive
  have hdust := h.computed.earned_dust hrewards hfive h.hashpower hsum
  have hsplit : msg.rewards - msg.credits.sum =
      msg.totalRewards - (msg.contributions.values.map msg.earned).sum := by
    rw [MessageInternalMineSuccess.credits, List.sum_cons, htotal, hcommissions, hrewards]
    omega
  have hcast : (msg.rewards : ℚ) - (msg.credits.sum : Int) =
      msg.totalRewards - ((msg.contributions.values.map msg.earned).sum : Int) := by
    exact_mod_cast congrArg (Int.cast : Int → ℚ) hsplit
  rw [← hcast] at hdust
  exact sub_lt_iff_lt_add'.mp hdust

theorem issued_opening (h : origin.Opening wallet) : origin.issued wallet = 0 := by
  obtain ⟨pool, hpool, hzero⟩ := h.pool
  have htotal : origin.db.balanceTotal = 0 := by
    refine List.sum_eq_zero fun x hx => ?_
    obtain ⟨row, hrow, rfl⟩ := List.mem_map.mp hx
    exact h.balances row hrow
  rw [issued, htotal, Database.claimedRewardsOf, hpool, Option.elim, hzero]
  rfl

theorem sum_gain_issuance (events : List Event) :
    (events.map ((issuance wallet hunique).gain cfg)).sum =
      ((events.filterMap Event.landed).map ((issuance wallet hunique).mineSuccess cfg)).sum := by
  rw [sum_map_filterMap]
  refine congrArg List.sum (List.map_congr_left fun e _ => ?_)
  rw [Account.gain]
  cases hconfirmed : e.confirmed wallet <;> simp [issuance, inPayment]

theorem adds_issuance {e : Event} (hsound : ∀ msg ∈ e.landed, msg.Sound)
    (hamounts : ∀ rc ∈ e.confirmed wallet, rc.amount < 2 ^ 63) :
    (issuance wallet hunique).Adds cfg e where
  landed msg hmsg := (mineSuccess_bounds (hsound msg hmsg)).1
  confirmed rc hrc pc := by
    have hamount : rc.amountI64 = rc.amount := Word.signed_of_nat_lt (w := 63) (hamounts rc hrc)
    show 0 ≤ inPayment rc pc
    cases pc with
    | poolClaimed minerId poolId =>
        rw [inPayment, hamount]
        exact Int.natCast_nonneg _
    | _ => exact le_rfl

/-- From empty tables, in every state of every run, whatever fails and wherever the server
stops, balances and payouts together stay within the rewards of the landed transactions. When
all that has begun is processed and every miner has its row, only the rounding is missing. -/
theorem solvent_of_run (cfg : MineConfig) (wallet : Pubkey) (ledger : Ledger)
    (events : List Event) (s : State) (hopening : ledger.Opening wallet)
    (hunique : (ledger.db.rewards.map Reward.minerId).Nodup)
    (hsound : ∀ msg ∈ events.filterMap Event.landed, msg.Sound)
    (hamounts : ∀ rc ∈ events.filterMap (Event.confirmed wallet), rc.amount < 2 ^ 63)
    (hrun : run (State.step cfg wallet) (.start ledger) events = some s) :
    s.ledger.issued wallet ≤
        ((events.filterMap Event.landed).map MessageInternalMineSuccess.rewards).sum ∧
      (s.Settled → (∀ msg ∈ events.filterMap Event.landed, 0 < msg.totalHashpower ∧
          ∀ row ∈ msg.rewardUpdates cfg, (ledger.db.rewardsOf row.minerId).length = 1) →
        (((events.filterMap Event.landed).map MessageInternalMineSuccess.rewards).sum : ℚ) ≤
          s.ledger.issued wallet + ((events.filterMap Event.landed).map dustOf).sum) := by
  have hstart : (issuance wallet hunique).value ledger = 0 := issued_opening hopening
  constructor
  · have hadds : ∀ e ∈ events, (issuance wallet hunique).Adds cfg e := fun e he =>
      adds_issuance (fun msg hmsg => hsound msg (List.mem_filterMap.mpr ⟨e, he, hmsg⟩))
        (fun rc hrc => hamounts rc (List.mem_filterMap.mpr ⟨e, he, hrc⟩))
    have hle := Account.value_le_of_run hadds hrun
    rw [hstart, zero_add, sum_gain_issuance] at hle
    exact hle.trans (List.sum_le_sum fun msg hmsg => (mineSuccess_bounds (hsound msg hmsg)).2)
  · intro hsettled henrolled
    have hend := (issuance wallet hunique).value_of_run hrun hsettled
    have hcredits : (events.filterMap Event.landed).map
        ((issuance wallet hunique).mineSuccess cfg) =
          (events.filterMap Event.landed).map fun msg => msg.credits.sum :=
      List.map_congr_left fun msg hmsg => mineSuccess_of_enrolled (henrolled msg hmsg).2
    have hbookings : ∀ rc, (issuance wallet hunique).booking rc .getMiner = 0 := fun _ => rfl
    rw [hstart, hcredits] at hend
    simp only [hbookings, List.map_const', List.sum_replicate, nsmul_zero, add_zero,
      zero_add] at hend
    have hissued : s.ledger.issued wallet =
        ((events.filterMap Event.landed).map fun msg => msg.credits.sum).sum := hend
    rw [hissued, Int.cast_list_sum, Int.cast_list_sum, List.map_map, List.map_map,
      ← List.sum_map_add]
    exact List.sum_le_sum fun msg hmsg =>
      (rewards_lt_credits_add (hsound msg hmsg) (henrolled msg hmsg).1).le

theorem sound_sample : MessageInternalMineSuccess.sample.Sound where
  computed := ⟨by decide, by decide⟩
  nonneg := by decide
  rewards := by decide
  hashpower := by decide

/-- In the middle of the interleaved run, and at its end. -/
theorem solvent_interleaved : (∃ s,
    run (State.step ⟨1000, 1002⟩ (.fill 32 9)) (.start sample) (interleaved.take 15) = some s ∧
      s.ledger.issued (.fill 32 9) ≤ MessageInternalMineSuccess.sample.rewards) ∧
    ∃ s, run (State.step ⟨1000, 1002⟩ (.fill 32 9)) (.start sample) interleaved = some s ∧
      (MessageInternalMineSuccess.sample.rewards : ℚ) ≤ s.ledger.issued (.fill 32 9) + dustOf .sample := by
  have hunique : (sample.db.rewards.map Reward.minerId).Nodup := by decide
  have hlanded : interleaved.filterMap Event.landed = [.sample] := rfl
  have hbefore : (interleaved.take 15).filterMap Event.landed = [.sample] := rfl
  constructor
  · obtain ⟨s, hrun, -⟩ := exists_run (State.step ⟨1000, 1002⟩ (.fill 32 9)) (.start sample)
      (interleaved.take 15) (fun _ => True) (by decide +kernel)
    refine ⟨s, hrun, ?_⟩
    have hsolvent := (solvent_of_run _ _ _ _ _ opening_sample hunique
      (by rw [hbefore]; simpa using sound_sample) (by decide) hrun).1
    rw [hbefore] at hsolvent
    simpa using hsolvent
  · obtain ⟨s, hrun, hsettled⟩ := exists_run (State.step ⟨1000, 1002⟩ (.fill 32 9))
      (.start sample) interleaved State.Settled (by decide +kernel)
    refine ⟨s, hrun, ?_⟩
    have hsolvent := (solvent_of_run _ _ _ _ _ opening_sample hunique
      (by rw [hlanded]; simpa using sound_sample) (by decide) hrun).2 hsettled
      (by rw [hlanded]; decide)
    rw [hlanded] at hsolvent
    simpa using hsolvent

end Ledger

end Hashpoo
