import Hashpoo.Ledger.Accounts

/-!
# The ledger is balanced

Six accounts over the tables. The balance of a miner, less its earnings and with its
claims added back, is worth nothing in every mine success and every booking; the others
are worth what the processed messages and payouts say. Together they show that nothing is
skipped and nothing is written twice, however the calls interleave and fail.
-/

namespace Hashpoo

open Foundation Claims

/-! ## Sums over the tables -/

namespace Database

variable {db : Database}

def claimsOf (db : Database) (minerId : Int) : Int :=
  ((db.claims.filter fun row => row.1.minerId = minerId).map fun row => row.1.amount).sum

def claimsTotal (db : Database) : Int := (db.claims.map fun row => row.1.amount).sum

/-- `claimed_rewards` of the pool. -/
def claimedRewardsOf (db : Database) (authority : Pubkey) : Int :=
  (db.pools.lookup authority).elim 0 Pool.claimedRewards

theorem claimsOf_addNewClaim (claim : InsertClaim) (created minerId : Int) :
    (db.addNewClaim claim created).2.claimsOf minerId =
      (if claim.minerId = minerId then claim.amount else 0) + db.claimsOf minerId := by
  by_cases hminer : claim.minerId = minerId <;> simp [claimsOf, addNewClaim, hminer]

theorem balanceOf_addNewClaim (claim : InsertClaim) (created minerId : Int) :
    (db.addNewClaim claim created).2.balanceOf minerId = db.balanceOf minerId := rfl

theorem claimsTotal_addNewClaim (claim : InsertClaim) (created : Int) :
    (db.addNewClaim claim created).2.claimsTotal = claim.amount + db.claimsTotal := by
  simp [claimsTotal, addNewClaim]

/-- A miner without a single row has no row, or more than one. -/
theorem balanceOf_addToRewards_of_rows {minerId delta id : Int}
    (hsingle : (db.rewardsOf id).length = 1) (hrows : (db.rewardsOf minerId).length ≠ 1) :
    (db.addToRewards minerId delta).balanceOf id = db.balanceOf id := by
  have hne : minerId ≠ id := fun heq => hrows (heq ▸ hsingle)
  simp [balanceOf_addToRewards hsingle, hne]

end Database

namespace Ledger

variable {wallet : Pubkey} {ledger origin : Ledger} {cfg : MineConfig}

def earningsOf (ledger : Ledger) (minerId : Int) : Int :=
  ((ledger.earnings.filter fun row => row.minerId = minerId).map InsertEarning.amount).sum

/-! ## The balance of a miner -/

/-- What the miner has beyond its earnings and claims. -/
def surplusOf (ledger : Ledger) (minerId : Int) : Int :=
  ledger.db.balanceOf minerId - ledger.earningsOf minerId + ledger.db.claimsOf minerId

/-- Between the debit and the row of the claim, the claim is missing. -/
def missingClaim (minerId : Int) (rc : Receipt) : BookingPc → Int
  | .getMiner | .getPool _ | .decrease _ _ | .booked => 0
  | .poolClaimed id _ | .addTransaction id _ | .getTransactionId id _ | .addClaim id _ _ =>
      if id = minerId then rc.amountI64 else 0

theorem surplusOf_earnings (minerId : Int) (batch : List InsertEarning) :
    ({ ledger with earnings := ledger.earnings ++ batch } : Ledger).surplusOf minerId =
      ledger.surplusOf minerId +
        (batch.map fun row => if row.minerId = minerId then -row.amount else 0).sum := by
  have hneg : (batch.map fun row => if row.minerId = minerId then -row.amount else 0).sum =
      -((batch.filter fun row => row.minerId = minerId).map InsertEarning.amount).sum := by
    induction batch with
    | nil => rfl
    | cons row batch ih =>
        by_cases hrow : row.minerId = minerId
        · simp only [List.map_cons, List.sum_cons, hrow, if_true, ih, List.filter_cons_of_pos,
            decide_true, neg_add_rev]
          omega
        · simp [hrow, ih]
  rw [hneg]
  simp only [surplusOf, earningsOf, List.filter_append, List.map_append, List.sum_append]
  omega

theorem surplusOf_rewards {minerId : Int} {batch : List UpdateReward} {rowsAffected : Nat}
    {db : Database} (hsingle : (ledger.db.rewardsOf minerId).length = 1)
    (h : ledger.db.rewardsLoop batch 0 = some (rowsAffected, db)) :
    ({ ledger with db := db } : Ledger).surplusOf minerId = ledger.surplusOf minerId +
      (batch.map fun row => if row.minerId = minerId then row.balance else 0).sum := by
  have hbalance := Database.rewardsLoop_balanceOf hsingle h
  have hclaims := (Database.rewardsLoop_onlyBalances h).claims
  simp only [surplusOf, earningsOf, Database.claimsOf, hclaims, hbalance]
  omega

theorem surplusOf_outcome {minerId : Int} {rc : Receipt} {pc pc' : BookingPc} {db : Database}
    (hsingle : (ledger.db.rewardsOf minerId).length = 1)
    (h : rc.Outcome ledger.db pc pc' db) :
    ({ ledger with db := db } : Ledger).surplusOf minerId + missingClaim minerId rc pc' =
      ledger.surplusOf minerId + missingClaim minerId rc pc := by
  cases h with
  | decrease id poolId _ =>
      have hclaims : (ledger.db.addToRewards id (-rc.amountI64)).claimsOf minerId =
          ledger.db.claimsOf minerId := by
        rw [Database.claimsOf, Database.addToRewards_claims, ← Database.claimsOf]
      simp only [surplusOf, Database.balanceOf_addToRewards hsingle, hclaims, missingClaim]
      simp only [earningsOf]
      split <;> omega
  | decreaseRows id poolId hrows =>
      have hclaims : (ledger.db.addToRewards id (-rc.amountI64)).claimsOf minerId =
          ledger.db.claimsOf minerId := by
        rw [Database.claimsOf, Database.addToRewards_claims, ← Database.claimsOf]
      simp only [surplusOf, Database.balanceOf_addToRewards_of_rows hsingle hrows, hclaims]
      simp only [earningsOf]
  | addClaim id poolId txnId created =>
      simp only [surplusOf, Database.claimsOf_addNewClaim, Database.balanceOf_addNewClaim,
        Receipt.insertClaim, missingClaim]
      simp only [earningsOf]
      omega
  | _ => rfl

/-- The balance of a miner against its earnings and claims. -/
def balances (wallet : Pubkey) (minerId : Int)
    (hsingle : (origin.db.rewardsOf minerId).length = 1) : Account origin wallet Int where
  value ledger := ledger.surplusOf minerId
  earning row := if row.minerId = minerId then -row.amount else 0
  reward row := if row.minerId = minerId then row.balance else 0
  contribution _ := 0
  poolRewards _ := 0
  booking := missingClaim minerId
  value_earnings _ batch := surplusOf_earnings minerId batch
  value_rewards hsame hloop :=
    surplusOf_rewards ((hsame.length_rewardsOf minerId).trans hsingle) hloop
  value_contributions ledger batch := by simp [surplusOf, earningsOf]
  value_poolRewards ledger earnedRewards := by simp [surplusOf, earningsOf]
  value_outcome hsame _ houtcome :=
    surplusOf_outcome ((hsame.length_rewardsOf minerId).trans hsingle) houtcome
  booking_booked _ := rfl

/-! ## The pool -/

/-- Between the update of the pool and the row of the claim, the claim is missing. -/
def unclaimed (rc : Receipt) : BookingPc → Int
  | .getMiner | .getPool _ | .decrease _ _ | .poolClaimed _ _ | .booked => 0
  | .addTransaction _ _ | .getTransactionId _ _ | .addClaim _ _ _ => -rc.amountI64

theorem claimedRewards_outcome {rc : Receipt} {pc pc' : BookingPc} {db db' : Database}
    (h : rc.Outcome db pc pc' db') :
    db'.claimedRewardsOf rc.authority - db'.claimsTotal + unclaimed rc pc' =
      db.claimedRewardsOf rc.authority - db.claimsTotal + unclaimed rc pc := by
  cases h with
  | poolClaimed minerId poolId pool hpool =>
      have hclaimed : Database.claimedRewardsOf
          { db with pools := db.pools.insert rc.authority (pool.addClaimed rc.amountI64) }
          rc.authority = db.claimedRewardsOf rc.authority + rc.amountI64 := by
        simp [Database.claimedRewardsOf, hpool, Pool.addClaimed]
      rw [hclaimed]
      simp only [Database.claimsTotal, unclaimed]
      omega
  | addClaim minerId poolId txnId created =>
      rw [Database.claimsTotal_addNewClaim]
      simp only [Database.claimedRewardsOf, Database.addNewClaim, Receipt.insertClaim, unclaimed]
      omega
  | _ => rfl

/-- The claimed rewards of the pool against the claims. -/
def claimedRewards (origin : Ledger) (wallet : Pubkey) : Account origin wallet Int where
  value ledger := ledger.db.claimedRewardsOf wallet - ledger.db.claimsTotal
  earning _ := 0
  reward _ := 0
  contribution _ := 0
  poolRewards _ := 0
  booking := unclaimed
  value_earnings _ batch := by simp
  value_rewards _ hloop := by
    have hsame := Database.rewardsLoop_onlyBalances hloop
    simp [Database.claimedRewardsOf, Database.claimsTotal, hsame.pools, hsame.claims]
  value_contributions _ batch := by simp
  value_poolRewards _ _ := by simp
  value_outcome _ hauthority houtcome := by
    subst hauthority
    exact claimedRewards_outcome houtcome
  booking_booked _ := rfl

/-- The total rewards of the pool. -/
def totals (origin : Ledger) (wallet : Pubkey) : Account origin wallet Int where
  value ledger := ledger.totalRewardsOf wallet
  earning _ := 0
  reward _ := 0
  contribution _ := 0
  poolRewards earnedRewards := earnedRewards
  booking _ _ := 0
  value_earnings _ batch := by simp [totalRewardsOf]
  value_rewards _ _ := by simp [totalRewardsOf]
  value_contributions _ batch := by simp [totalRewardsOf]
  value_poolRewards ledger earnedRewards := by simp [totalRewardsOf]
  value_outcome _ _ _ := rfl
  booking_booked _ := rfl

/-! ## The rows -/

theorem sum_map_singleton {α β : Type} (f : α → β) (xs : List α) :
    (xs.map fun x => ({f x} : Multiset β)).sum = (xs.map f : List β) := by
  induction xs with
  | nil => rfl
  | cons x xs ih => simp [ih]

/-- The rows of `earnings`. -/
def earningRows (origin : Ledger) (wallet : Pubkey) :
    Account origin wallet (Multiset InsertEarning) where
  value ledger := ledger.earnings
  earning row := {row}
  reward _ := 0
  contribution _ := 0
  poolRewards _ := 0
  booking _ _ := 0
  value_earnings ledger batch := by
    rw [sum_map_singleton, List.map_id', Multiset.coe_add]
  value_rewards _ _ := by simp
  value_contributions _ batch := by simp
  value_poolRewards _ _ := by simp
  value_outcome _ _ _ := rfl
  booking_booked _ := rfl

/-- The rows of `contributions`. -/
def contributionRows (origin : Ledger) (wallet : Pubkey) :
    Account origin wallet (Multiset Contribution) where
  value ledger := ledger.contributions
  earning _ := 0
  reward _ := 0
  contribution c := {c.row}
  poolRewards _ := 0
  booking _ _ := 0
  value_earnings _ batch := by simp
  value_rewards _ _ := by simp
  value_contributions ledger batch := by rw [sum_map_singleton, Multiset.coe_add]
  value_poolRewards _ _ := by simp
  value_outcome _ _ _ := rfl
  booking_booked _ := rfl

/-- Miners and amounts of the claims. -/
def claimRows (db : Database) : Multiset (Option Int × Int) :=
  (db.claims.map fun row => (some row.1.minerId, row.1.amount) : List (Option Int × Int))

/-- The row of the claim that the booking is going to write. -/
def claimToCome (origin : Ledger) (rc : Receipt) : BookingPc → Multiset (Option Int × Int)
  | .getMiner => {(origin.db.miners.lookup rc.minerPubkey, rc.amountI64)}
  | .getPool id | .decrease id _ | .poolClaimed id _ | .addTransaction id _
  | .getTransactionId id _ | .addClaim id _ _ => {(some id, rc.amountI64)}
  | .booked => 0

/-- The rows of `claims`. -/
def claims (origin : Ledger) (wallet : Pubkey) :
    Account origin wallet (Multiset (Option Int × Int)) where
  value ledger := claimRows ledger.db
  earning _ := 0
  reward _ := 0
  contribution _ := 0
  poolRewards _ := 0
  booking := claimToCome origin
  value_earnings _ batch := by simp
  value_rewards _ hloop := by
    simp [claimRows, (Database.rewardsLoop_onlyBalances hloop).claims]
  value_contributions _ batch := by simp
  value_poolRewards _ _ := by simp
  value_outcome hsame _ houtcome := by
    cases houtcome with
    | getMiner minerId hminer => rw [claimToCome, claimToCome, ← hsame.miners, hminer]
    | addClaim minerId poolId txnId created =>
        simp only [claimRows, Database.addNewClaim, Receipt.insertClaim, claimToCome,
          List.map_cons, ← Multiset.cons_coe, ← Multiset.singleton_add]
        rw [add_zero, add_comm]
    | _ => rfl
  booking_booked _ := rfl

/-! ## The invariant -/

/-- Empty earnings, claims and contributions, zero balances, and the row of the pool. -/
structure Opening (wallet : Pubkey) (ledger : Ledger) : Prop where
  earnings : ledger.earnings = []
  contributions : ledger.contributions = []
  claims : ledger.db.claims = []
  balances : ∀ row ∈ ledger.db.rewards, row.balance = 0
  pool : ∃ pool, ledger.db.pools.lookup wallet = some pool ∧ pool.claimedRewards = 0
  totalRewards : ledger.totalRewardsOf wallet = 0

/-- The tables tally with the messages and the payouts that have been processed since
`origin`. -/
structure Reconciled (cfg : MineConfig) (wallet : Pubkey) (origin : Ledger)
    (messages : List MessageInternalMineSuccess) (receipts : List Receipt) (ledger : Ledger) :
    Prop where
  /-- The rows of `rewards` are those of the start: a miner with one row still has it. -/
  rows : ledger.db.rewards.map Reward.minerId = origin.db.rewards.map Reward.minerId
  balances : ∀ minerId row, ledger.db.rewardsOf minerId = [row] →
    row.balance = ledger.earningsOf minerId - ledger.db.claimsOf minerId
  totalRewards : ledger.totalRewardsOf wallet =
    (messages.map MessageInternalMineSuccess.rewards).sum
  claimedRewards : ∃ pool, ledger.db.pools.lookup wallet = some pool ∧
    pool.claimedRewards = ledger.db.claimsTotal
  /-- One row for every processed contribution, and no other. -/
  contributions : ledger.contributions.Perm
    (messages.flatMap MessageInternalMineSuccess.contributionRows)
  /-- One row for every share and every commission, and no other. -/
  earnings : ledger.earnings.Perm
    (messages.flatMap (MessageInternalMineSuccess.earningRows cfg))
  /-- One row for every processed payout, and no other. -/
  claims : (ledger.db.claims.map fun row => (some row.1.minerId, row.1.amount)).Perm
    (receipts.map fun rc => (origin.db.miners.lookup rc.minerPubkey, rc.amountI64))

/-- Earnings and credits of the same amounts cancel out. -/
theorem sum_earnings_add_rewards {α : Type} (minerId : Int) (owner amount : α → Int)
    (xs : List α) : (xs.map fun x => if owner x = minerId then -amount x else 0).sum +
      (xs.map fun x => if owner x = minerId then amount x else 0).sum = 0 := by
  induction xs with
  | nil => rfl
  | cons x xs ih =>
      simp only [List.map_cons, List.sum_cons]
      split <;> omega

/-- The shares of a mine success, its commission included, are earned and credited alike. -/
theorem mineSuccess_balances {minerId : Int}
    (hsingle : (origin.db.rewardsOf minerId).length = 1) (msg : MessageInternalMineSuccess) :
    (balances wallet minerId hsingle).mineSuccess cfg msg = 0 := by
  have hshares := sum_earnings_add_rewards minerId InternalMessageContribution.minerId msg.earned
    msg.contributions.values
  have hearnings : ((msg.earningRows cfg).map (balances wallet minerId hsingle).earning).sum =
      (if cfg.commissionsMinerId = minerId then -msg.commissions else 0) +
        (msg.contributions.values.map fun c =>
          if c.minerId = minerId then -msg.earned c else 0).sum := by
    rw [MessageInternalMineSuccess.earningRows_eq, List.map_cons, List.sum_cons, List.map_map]
    refine congrArg₂ (· + ·) ?_ (congrArg List.sum (List.map_congr_left fun c _ => ?_))
    · by_cases hrow : cfg.commissionsMinerId = minerId <;>
        simp [balances, MessageInternalMineSuccess.commissionsEarning, hrow]
    · by_cases hrow : c.minerId = minerId <;>
        simp [balances, MessageInternalMineSuccess.insertEarning, hrow]
  have hrewards : ((msg.rewardUpdates cfg).map (balances wallet minerId hsingle).reward).sum =
      (if cfg.commissionsMinerId = minerId then msg.commissions else 0) +
        (msg.contributions.values.map fun c =>
          if c.minerId = minerId then msg.earned c else 0).sum := by
    rw [MessageInternalMineSuccess.rewardUpdates, List.map_cons, List.sum_cons, List.map_map]
    refine congrArg₂ (· + ·) ?_ (congrArg List.sum (List.map_congr_left fun c _ => ?_))
    · by_cases hrow : cfg.commissionsMinerId = minerId <;> simp [balances, hrow]
    · by_cases hrow : c.minerId = minerId <;>
        simp [balances, MessageInternalMineSuccess.updateReward, hrow]
  have hothers : (msg.contributions.values.map fun c =>
      (balances wallet minerId hsingle).contribution (msg.insertContribution c)).sum = 0 :=
    List.sum_eq_zero fun x hx => by
      obtain ⟨c, -, rfl⟩ := List.mem_map.mp hx
      rfl
  have htotal : (balances wallet minerId hsingle).poolRewards msg.rewards = 0 := rfl
  rw [Account.mineSuccess_eq, hearnings, hrewards, hothers, htotal]
  split <;> omega

theorem mineSuccess_contributionRows (msg : MessageInternalMineSuccess) :
    (contributionRows origin wallet).mineSuccess cfg msg = (msg.contributionRows : Multiset _) := by
  rw [Account.mineSuccess_eq]
  simp [contributionRows, MessageInternalMineSuccess.contributionRows_eq, sum_map_singleton]

theorem mineSuccess_earningRows (msg : MessageInternalMineSuccess) :
    (earningRows origin wallet).mineSuccess cfg msg = (msg.earningRows cfg : Multiset _) := by
  have hrows := sum_map_singleton id (msg.earningRows cfg)
  rw [Account.mineSuccess_eq]
  simpa [earningRows] using hrows

theorem sum_map_coe {α β : Type} (f : α → List β) (xs : List α) :
    (xs.map fun x => (f x : Multiset β)).sum = (xs.flatMap f : List β) := by
  induction xs with
  | nil => rfl
  | cons x xs ih => simp [ih]

section Run

variable {events : List Event} {s : State} (hopening : origin.Opening wallet)
  (hrun : run (State.step cfg wallet) (.start origin) events = some s) (hsettled : s.Settled)

include hrun in
theorem sameRows_of_run : origin.SameRows s.ledger :=
  (invariant_of_step (I := Account.Posting origin wallet)
    (fun _ _ _ h hstep => h.step (State.step_steps hstep)) Account.posting_start hrun).sameRows

include hopening hrun hsettled

theorem balances_of_run (minerId : Int) (row : Reward)
    (hrow : s.ledger.db.rewardsOf minerId = [row]) :
    row.balance = s.ledger.earningsOf minerId - s.ledger.db.claimsOf minerId := by
  have hsingle : (origin.db.rewardsOf minerId).length = 1 := by
    rw [← (sameRows_of_run hrun).length_rewardsOf, hrow]
    rfl
  have hend := (balances wallet minerId hsingle).value_of_run hrun hsettled
  have hmessages : (balances wallet minerId hsingle).mineSuccess cfg = fun _ => 0 :=
    funext (mineSuccess_balances hsingle)
  have hreceipts : ∀ rc, (balances wallet minerId hsingle).booking rc .getMiner = 0 := fun _ => rfl
  have hstart : (balances wallet minerId hsingle).value origin = 0 := by
    have hzero : origin.db.balanceOf minerId = 0 := by
      refine List.sum_eq_zero fun x hx => ?_
      obtain ⟨old, hold, rfl⟩ := List.mem_map.mp hx
      exact hopening.balances old (List.mem_of_mem_filter hold)
    simp [balances, surplusOf, hzero, earningsOf, hopening.earnings, Database.claimsOf,
      hopening.claims]
  have hbalance : s.ledger.db.balanceOf minerId = row.balance := by
    simp [Database.balanceOf, hrow]
  rw [hstart, hmessages] at hend
  simp only [hreceipts, List.map_const', List.sum_replicate, nsmul_zero, add_zero] at hend
  have hsurplus : s.ledger.surplusOf minerId = 0 := hend
  rw [surplusOf, hbalance] at hsurplus
  omega

theorem totalRewards_of_run : s.ledger.totalRewardsOf wallet =
    ((events.filterMap Event.landed).map MessageInternalMineSuccess.rewards).sum := by
  have hend := (totals origin wallet).value_of_run hrun hsettled
  have hmessages : (totals origin wallet).mineSuccess cfg = MessageInternalMineSuccess.rewards := by
    funext msg
    rw [Account.mineSuccess_eq]
    simp [totals]
  rw [hmessages] at hend
  simpa [totals, hopening.totalRewards] using hend

theorem claimedRewards_of_run : ∃ pool, s.ledger.db.pools.lookup wallet = some pool ∧
    pool.claimedRewards = s.ledger.db.claimsTotal := by
  obtain ⟨old, hold, hzero⟩ := hopening.pool
  have hsome : (s.ledger.db.pools.lookup wallet).isSome = true := by
    rw [(sameRows_of_run hrun).pools, hold]
    rfl
  obtain ⟨pool, hpool⟩ := Option.isSome_iff_exists.mp hsome
  have hend := (claimedRewards origin wallet).value_of_run hrun hsettled
  have hmessages : (claimedRewards origin wallet).mineSuccess cfg = fun _ => 0 := by
    funext msg
    rw [Account.mineSuccess_eq]
    simp [claimedRewards]
  have hstart : (claimedRewards origin wallet).value origin = 0 := by
    simp [claimedRewards, Database.claimedRewardsOf, hold, hzero, Database.claimsTotal,
      hopening.claims]
  have hvalue : (claimedRewards origin wallet).value s.ledger =
      pool.claimedRewards - s.ledger.db.claimsTotal := by
    simp [claimedRewards, Database.claimedRewardsOf, hpool]
  have hreceipts : ∀ rc, (claimedRewards origin wallet).booking rc .getMiner = 0 := fun _ => rfl
  rw [hmessages, hstart, hvalue] at hend
  simp only [hreceipts, List.map_const', List.sum_replicate, nsmul_zero, add_zero] at hend
  exact ⟨pool, hpool, by omega⟩

theorem contributions_of_run : s.ledger.contributions.Perm
    ((events.filterMap Event.landed).flatMap MessageInternalMineSuccess.contributionRows) := by
  have hend := (contributionRows origin wallet).value_of_run hrun hsettled
  have hmessages : (contributionRows origin wallet).mineSuccess cfg =
      fun msg => (msg.contributionRows : Multiset _) := funext mineSuccess_contributionRows
  rw [hmessages, sum_map_coe] at hend
  simpa [contributionRows, hopening.contributions] using hend

theorem earnings_of_run : s.ledger.earnings.Perm
    ((events.filterMap Event.landed).flatMap (MessageInternalMineSuccess.earningRows cfg)) := by
  have hend := (earningRows origin wallet).value_of_run hrun hsettled
  have hmessages : (earningRows origin wallet).mineSuccess cfg =
      fun msg => (msg.earningRows cfg : Multiset _) := funext mineSuccess_earningRows
  rw [hmessages, sum_map_coe] at hend
  simpa [earningRows, hopening.earnings] using hend

theorem claims_of_run :
    (s.ledger.db.claims.map fun row => (some row.1.minerId, row.1.amount)).Perm
      ((events.filterMap (Event.confirmed wallet)).map fun rc =>
        (origin.db.miners.lookup rc.minerPubkey, rc.amountI64)) := by
  have hend := (claims origin wallet).value_of_run hrun hsettled
  have hmessages : (claims origin wallet).mineSuccess cfg = fun _ => 0 := by
    funext msg
    rw [Account.mineSuccess_eq]
    simp [claims]
  have hreceipts := sum_map_singleton
    (fun rc : Receipt => (origin.db.miners.lookup rc.minerPubkey, rc.amountI64))
    (events.filterMap (Event.confirmed wallet))
  rw [hmessages] at hend
  simp only [claims, claimToCome, hreceipts, claimRows, hopening.claims, List.map_const',
    List.sum_replicate, nsmul_zero, List.map_nil, Multiset.coe_nil, zero_add] at hend
  exact Multiset.coe_eq_coe.mp hend

end Run

/-- In every run from empty tables, whatever the order of the calls and their failures, the
tables tally as soon as every mine success and every claim that has begun is fully
processed. -/
theorem reconciled_of_run (cfg : MineConfig) (wallet : Pubkey) (ledger : Ledger)
    (events : List Event) (s : State) (hopening : ledger.Opening wallet)
    (hrun : run (State.step cfg wallet) (.start ledger) events = some s)
    (hsettled : s.Settled) :
    ledger.Reconciled cfg wallet (events.filterMap Event.landed)
      (events.filterMap (Event.confirmed wallet)) s.ledger where
  rows := (sameRows_of_run hrun).minerIds
  balances := balances_of_run hopening hrun hsettled
  totalRewards := totalRewards_of_run hopening hrun hsettled
  claimedRewards := claimedRewards_of_run hopening hrun hsettled
  contributions := contributions_of_run hopening hrun hsettled
  earnings := earnings_of_run hopening hrun hsettled
  claims := claims_of_run hopening hrun hsettled

/-- The pool of two miners and the receiver of the commissions. -/
def sample : Ledger where
  db := { Receipt.sampleDb with rewards := [⟨1000, 0⟩, ⟨1001, 0⟩, ⟨1002, 0⟩] }
  totalRewards := ∅
  earnings := []
  contributions := []

theorem opening_sample : sample.Opening (.fill 32 9) where
  earnings := rfl
  contributions := rfl
  claims := rfl
  balances := by decide
  pool := ⟨⟨1000, 0⟩, by decide⟩
  totalRewards := rfl

/-- A mine success and a claim whose calls interleave, some of them failing. -/
def interleaved : List Event :=
  [.land .sample, .commission 0 .failed, .commission 0 .answered, .commission 0 .answered, .send 0,
    .confirm (.fill 32 1) 500 7, .claim 0 false, .receive, .claim 0 false, .success .failed,
    .success .answered, .claim 0 true, .claim 0 false, .success .answered, .claim 0 false,
    .success .failed, .success .answered, .claim 0 false, .claim 0 false, .success .answered,
    .claim 0 false, .dequeue]

theorem reconciled_interleaved : ∃ s,
    run (State.step ⟨1000, 1002⟩ (.fill 32 9)) (.start sample) interleaved = some s ∧
      sample.Reconciled ⟨1000, 1002⟩ (.fill 32 9) (interleaved.filterMap Event.landed)
        (interleaved.filterMap (Event.confirmed (.fill 32 9))) s.ledger := by
  obtain ⟨s, hrun, hsettled⟩ := exists_run (State.step ⟨1000, 1002⟩ (.fill 32 9)) (.start sample)
    interleaved State.Settled (by decide +kernel)
  exact ⟨s, hrun, reconciled_of_run _ _ _ _ _ opening_sample hrun hsettled⟩

end Ledger

end Hashpoo
