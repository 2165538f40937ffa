import Hashpoo.Foundation.Apportion
import Hashpoo.Server.Types
import Mathlib.Algebra.BigOperators.Ring.Finset

/-!
# Commission and shares of a landed mine transaction

The landed-tx task infers the pool's reward from two snapshots of the proof account
and takes the commission. `pool_mine_success_processor` divides the rest by hashpower.
Both compute with release-profile words: every definition below keeps the wrapping,
saturation and casts of the source, and `ExactShares` states what they lose, namely
nothing, as long as five times the reward fits `i64` and the hashpowers fit `u64`.
-/

namespace Hashpoo

open Foundation

/-! ## The landed-tx task -/

/-- `(latest_proof.balance - old_proof.balance) as i64`. -/
def poolRewards (latest old : Nat) : Int :=
  Word.signed 64 (Word.unsigned 64 ((latest : Int) - old))

/-- `pool_rewards.mul(5).saturating_div(100)`. -/
def commissionsOf (poolRewards : Int) : Int := (Word.signed 64 (poolRewards * 5)).tdiv 100

/-- The loop that adds up `contribution.1.hashpower`. -/
def totalHashpower (contributions : Contributions) : Nat :=
  contributions.values.foldl (fun total c => Word.unsigned 64 ((total : Int) + c.hashpower)) 0

/-- The message sent for the submission of `solution` between the two snapshots. -/
def mineSuccess (drillx : Drillx) (old latest : Proof) (solution : Solution)
    (contributions : Contributions) (challengeId : Int) : MessageInternalMineSuccess :=
  let rewards := poolRewards latest.balance old.balance
  { difficulty := drillx.difficulty solution
    rewards := rewards
    commissions := commissionsOf rewards
    challengeId := challengeId
    challenge := old.challenge
    bestNonce := solution.nonce
    totalHashpower := totalHashpower contributions
    contributions := contributions }

/-! ## `pool_mine_success_processor` -/

/-- `(hashpower as u128).saturating_mul(1_000_000).saturating_div(total as u128)`. -/
def hashpowerPercent (hashpower total : Nat) : Nat :=
  Word.saturatingMul 128 hashpower 1_000_000 / total

/-- `hashpower_percent.saturating_mul(total_rewards as u128).saturating_div(1_000_000)
as u64 as i64`. -/
def earnedRewards (hashpower total : Nat) (totalRewards : Int) : Int :=
  Word.signed 64 (Word.unsigned 64
    (Word.saturatingMul 128 (hashpowerPercent hashpower total) (Word.unsigned 128 totalRewards)
      / 1_000_000 : Nat))

namespace MessageInternalMineSuccess

variable (msg : MessageInternalMineSuccess)

/-- `msg.rewards - msg.commissions`. -/
def totalRewards : Int := Word.signed 64 (msg.rewards - msg.commissions)

/-- The earning of one contribution of the message. -/
def earned (c : InternalMessageContribution) : Int :=
  earnedRewards c.hashpower msg.totalHashpower msg.totalRewards

/-- The earnings in the iteration order of the map. `saturating_div` panics on a zero
divisor, which the loop meets only when there is a contribution. -/
def earnings : Except Panic (List (Pubkey × Int)) :=
  if msg.contributions.entries ≠ [] ∧ msg.totalHashpower = 0 then
    .error .divideByZero
  else
    .ok (msg.contributions.entries.map fun e => (e.1, msg.earned e.2))

/-- The credits that the message leads to: the commission and every earning. -/
def credits : List Int := msg.commissions :: msg.contributions.values.map msg.earned

/-- The message carries the commission and the total that the landed-tx task computes
from its rewards and contributions. -/
structure Computed : Prop where
  commissions : msg.commissions = commissionsOf msg.rewards
  totalHashpower : msg.totalHashpower = Hashpoo.totalHashpower msg.contributions

end MessageInternalMineSuccess

@[simp] theorem mineSuccess_rewards (drillx : Drillx) (old latest : Proof) (solution : Solution)
    (contributions : Contributions) (challengeId : Int) :
    (mineSuccess drillx old latest solution contributions challengeId).rewards =
      poolRewards latest.balance old.balance := by
  simp only [mineSuccess]

@[simp] theorem mineSuccess_contributions (drillx : Drillx) (old latest : Proof)
    (solution : Solution) (contributions : Contributions) (challengeId : Int) :
    (mineSuccess drillx old latest solution contributions challengeId).contributions =
      contributions := by
  simp only [mineSuccess]

theorem mineSuccess_computed (drillx : Drillx) (old latest : Proof) (solution : Solution)
    (contributions : Contributions) (challengeId : Int) :
    (mineSuccess drillx old latest solution contributions challengeId).Computed := by
  constructor <;> simp only [mineSuccess]

/-! ## Absence of loss -/

/-- Exact sum of the hashpowers, not a machine operation. -/
def hashpowerSum (contributions : Contributions) : Nat :=
  (contributions.values.map InternalMessageContribution.hashpower).sum

theorem totalHashpower_eq {contributions : Contributions}
    (hfit : hashpowerSum contributions < 2 ^ 64) :
    totalHashpower contributions = hashpowerSum contributions := by
  have loop : ∀ (cs : List InternalMessageContribution) (total : Nat),
      total + (cs.map InternalMessageContribution.hashpower).sum < 2 ^ 64 →
      cs.foldl (fun total c => Word.unsigned 64 ((total : Int) + c.hashpower)) total =
        total + (cs.map InternalMessageContribution.hashpower).sum := by
    intro cs
    induction cs with
    | nil =>
        intro total _
        rfl
    | cons c cs ih =>
        intro total h
        simp only [List.map_cons, List.sum_cons] at h
        have hstep : Word.unsigned 64 ((total : Int) + c.hashpower) = total + c.hashpower := by
          rw [← Nat.cast_add, Word.unsigned_of_lt (by omega)]
        rw [List.foldl_cons, hstep, ih _ (by omega), List.map_cons, List.sum_cons, Nat.add_assoc]
  have h := loop contributions.values 0 (by simpa [hashpowerSum] using hfit)
  simpa [totalHashpower, hashpowerSum] using h

theorem hashpower_le_sum {contributions : Contributions} {c : InternalMessageContribution}
    (hc : c ∈ contributions.values) : c.hashpower ≤ hashpowerSum contributions :=
  List.single_le_sum (fun _ _ => Nat.zero_le _) _ (List.mem_map_of_mem hc)

/-- The snapshots give the mathematical difference when it neither is negative nor
reaches the sign bit. -/
theorem poolRewards_eq {latest old : Nat} (hle : old ≤ latest) (hfit : latest - old < 2 ^ 63) :
    poolRewards latest old = (latest - old : Nat) := by
  have hcast : (latest : Int) - old = ((latest - old : Nat) : Int) := by omega
  rw [poolRewards, hcast, Word.unsigned_of_lt (by omega), Word.signed_of_nat_lt (w := 63) hfit]

theorem commissionsOf_eq {rewards : Nat} (hfit : 5 * rewards < 2 ^ 63) :
    commissionsOf rewards = (rewards * 5 / 100 : Nat) := by
  have hcast : (rewards : Int) * 5 = ((rewards * 5 : Nat) : Int) := by push_cast; rfl
  rw [commissionsOf, hcast, Word.signed_of_nat_lt (w := 63) (by omega)]
  rfl

/-- With a divisor that bounds the hashpower and an amount below the sign bit, no
operation saturates and no cast truncates. -/
theorem earnedRewards_eq {hashpower total amount : Nat} (hpos : 0 < total)
    (hle : hashpower ≤ total) (htotal : total < 2 ^ 64) (hamount : amount < 2 ^ 63) :
    earnedRewards hashpower total amount =
      (Apportion.share 1_000_000 total amount hashpower : Nat) := by
  have hparts : hashpowerPercent hashpower total =
      Apportion.parts 1_000_000 total hashpower := by
    rw [hashpowerPercent, Word.saturatingMul_eq (by omega), Apportion.parts]
  have hpartsLe := Apportion.parts_le (S := 1_000_000) hpos hle
  have hproduct : Apportion.parts 1_000_000 total hashpower * amount < 2 ^ 128 := by
    have := Nat.mul_le_mul hpartsLe hamount.le
    omega
  have hshare := Apportion.share_le (S := 1_000_000) (R := amount) hpos hle
  have hcast : Word.unsigned 128 (amount : Int) = amount := Word.unsigned_of_lt (by omega)
  rw [earnedRewards, hparts, hcast, Word.saturatingMul_eq hproduct]
  change Word.signed 64 (Word.unsigned 64 (Apportion.share 1_000_000 total amount hashpower)) = _
  rw [Word.unsigned_of_lt (by omega), Word.signed_of_nat_lt (w := 63) (by omega)]

/-! ## Conservation -/

namespace MessageInternalMineSuccess

/-- The division of the rewards of `msg` among its contributions, with every word
operation of the source equal to the operation on mathematical integers. -/
structure ExactShares (msg : MessageInternalMineSuccess) : Prop where
  /-- The total does not wrap. -/
  total : msg.totalHashpower = hashpowerSum msg.contributions
  /-- The commission is five percent of the rewards, rounded down. -/
  commissions : msg.commissions = msg.rewards * 5 / 100
  remainder : msg.totalRewards = msg.rewards - msg.commissions
  remainder_nonneg : 0 ≤ msg.totalRewards
  /-- Neither `saturating_mul` saturates. -/
  percent_unsaturated : ∀ c ∈ msg.contributions.values, c.hashpower * 1_000_000 < 2 ^ 128
  share_unsaturated : ∀ c ∈ msg.contributions.values,
    hashpowerPercent c.hashpower msg.totalHashpower * msg.totalRewards.toNat < 2 ^ 128
  /-- No cast truncates: the earning is the nested quotient itself. -/
  earned : ∀ c ∈ msg.contributions.values, msg.earned c =
    ((c.hashpower * 1_000_000 / msg.totalHashpower : Nat) : Int) * msg.totalRewards / 1_000_000
  earned_nonneg : ∀ c ∈ msg.contributions.values, 0 ≤ msg.earned c
  /-- The shares never exceed what is left after the commission. -/
  sum_le : (msg.contributions.values.map msg.earned).sum ≤ msg.totalRewards
  /-- Rounding loses less than `R / 10^6 + 1` for each contribution. -/
  dust : (msg.totalRewards : ℚ) - ((msg.contributions.values.map msg.earned).sum : Int) <
    msg.contributions.len * ((msg.totalRewards : ℚ) / 1_000_000 + 1)
  /-- More hashpower never earns less. -/
  mono : ∀ c ∈ msg.contributions.values, ∀ c' ∈ msg.contributions.values,
    c.hashpower ≤ c'.hashpower → msg.earned c ≤ msg.earned c'

/-- A message over the same rewards whose map lists the same entries in another order. -/
structure Reordered (msg msg' : MessageInternalMineSuccess) : Prop where
  computed : msg'.Computed
  rewards : msg'.rewards = msg.rewards
  entries : msg'.contributions.entries.Perm msg.contributions.entries

variable {msg : MessageInternalMineSuccess}

theorem Reordered.values_perm {msg' : MessageInternalMineSuccess} (h : msg.Reordered msg') :
    msg'.contributions.values.Perm msg.contributions.values := by
  rw [HashMap.values]
  exact h.entries.map _

theorem Reordered.hashpowerSum_eq {msg' : MessageInternalMineSuccess} (h : msg.Reordered msg') :
    hashpowerSum msg'.contributions = hashpowerSum msg.contributions :=
  (h.values_perm.map InternalMessageContribution.hashpower).sum_eq

/-- Natural-number form of the amounts: the commission and what is left of the
rewards are both within the rewards. -/
theorem Computed.amounts {rewards : Nat} (h : msg.Computed) (hrewards : msg.rewards = rewards)
    (hfit : 5 * rewards < 2 ^ 63) :
    msg.commissions = (rewards * 5 / 100 : Nat) ∧
      msg.totalRewards = (rewards - rewards * 5 / 100 : Nat) := by
  have hcommissions : msg.commissions = (rewards * 5 / 100 : Nat) := by
    rw [h.commissions, hrewards, commissionsOf_eq hfit]
  refine ⟨hcommissions, ?_⟩
  have hcast : msg.rewards - msg.commissions = ((rewards - rewards * 5 / 100 : Nat) : Int) := by
    rw [hcommissions, hrewards]
    omega
  rw [totalRewards, hcast, Word.signed_of_nat_lt (w := 63) (by omega)]

theorem Computed.total_eq (h : msg.Computed)
    (hsum : hashpowerSum msg.contributions < 2 ^ 64) :
    msg.totalHashpower = hashpowerSum msg.contributions :=
  h.totalHashpower.trans (totalHashpower_eq hsum)

/-- The divisor, and the earnings that it gives, depend on the entries alone. -/
theorem Reordered.earned_eq {msg' : MessageInternalMineSuccess} (h : msg.Reordered msg')
    (hcomputed : msg.Computed) (hsum : hashpowerSum msg.contributions < 2 ^ 64) :
    msg'.earned = msg.earned := by
  have htotal : msg'.totalHashpower = msg.totalHashpower := by
    rw [h.computed.total_eq (by rw [h.hashpowerSum_eq]; exact hsum), h.hashpowerSum_eq,
      hcomputed.total_eq hsum]
  have hrewards : msg'.totalRewards = msg.totalRewards := by
    rw [totalRewards, totalRewards, h.computed.commissions, hcomputed.commissions, h.rewards]
  funext c
  rw [earned, earned, htotal, hrewards]

section Earnings

variable {rewards : Nat} (h : msg.Computed) (hrewards : msg.rewards = rewards)
  (hfit : 5 * rewards < 2 ^ 63) (hsum : hashpowerSum msg.contributions < 2 ^ 64)
  (hpos : 0 < hashpowerSum msg.contributions)

include h hrewards hfit hsum hpos

/-- Every earning is the rounded share of the remaining rewards. -/
theorem Computed.earned_eq {c : InternalMessageContribution}
    (hc : c ∈ msg.contributions.values) :
    msg.earned c = (Apportion.share 1_000_000 (hashpowerSum msg.contributions)
      (rewards - rewards * 5 / 100) c.hashpower : Nat) := by
  rw [earned, h.total_eq hsum, (h.amounts hrewards hfit).2,
    earnedRewards_eq hpos (hashpower_le_sum hc) hsum (by omega)]

/-- The earnings in one list, as a list of natural shares. -/
theorem Computed.sum_earned : (msg.contributions.values.map msg.earned).sum =
    (((msg.contributions.values.map InternalMessageContribution.hashpower).map
      (Apportion.share 1_000_000 (hashpowerSum msg.contributions)
        (rewards - rewards * 5 / 100))).sum : Nat) := by
  have hlist : msg.contributions.values.map msg.earned =
      msg.contributions.values.map fun c => ((Apportion.share 1_000_000
        (hashpowerSum msg.contributions) (rewards - rewards * 5 / 100) c.hashpower : Nat) : Int) :=
    List.map_congr_left fun c hc => h.earned_eq hrewards hfit hsum hpos hc
  rw [hlist]
  simp only [Nat.cast_list_sum, List.map_map, Function.comp_def]

/-- Without contributions there is nothing to earn, and otherwise the shares are taken
from what the commission leaves. -/
theorem Computed.sum_earned_le :
    (msg.contributions.values.map msg.earned).sum ≤ msg.totalRewards := by
  rw [h.sum_earned hrewards hfit hsum hpos, (h.amounts hrewards hfit).2]
  exact_mod_cast Apportion.sum_share_le (S := 1_000_000) hpos le_rfl

theorem Computed.earned_dust : (msg.totalRewards : ℚ) -
    ((msg.contributions.values.map msg.earned).sum : Int) <
      msg.contributions.len * ((msg.totalRewards : ℚ) / 1_000_000 + 1) := by
  have hweights : (msg.contributions.values.map InternalMessageContribution.hashpower).sum =
      hashpowerSum msg.contributions := rfl
  have hdust := Apportion.dust_lt (S := 1_000_000) (R := rewards - rewards * 5 / 100)
    (by omega) hpos hweights
  rw [h.sum_earned hrewards hfit hsum hpos, (h.amounts hrewards hfit).2]
  simpa only [Int.cast_natCast, HashMap.len, HashMap.values, List.length_map, Nat.cast_ofNat]
    using hdust

/-- The product of the second `saturating_mul` stays within `u128`. -/
theorem Computed.share_unsaturated {c : InternalMessageContribution}
    (hc : c ∈ msg.contributions.values) :
    hashpowerPercent c.hashpower msg.totalHashpower * msg.totalRewards.toNat < 2 ^ 128 := by
  have hle := hashpower_le_sum hc
  have hpercent : hashpowerPercent c.hashpower msg.totalHashpower ≤ 1_000_000 := by
    rw [h.total_eq hsum, hashpowerPercent, Word.saturatingMul_eq (by omega)]
    exact Apportion.parts_le hpos hle
  have hamount : msg.totalRewards.toNat < 2 ^ 63 := by
    rw [(h.amounts hrewards hfit).2]
    omega
  have := Nat.mul_le_mul hpercent hamount.le
  omega

theorem Computed.exactShares : msg.ExactShares := by
  obtain ⟨hcommissions, htotal⟩ := h.amounts hrewards hfit
  have hearned := fun c (hc : c ∈ msg.contributions.values) =>
    h.earned_eq hrewards hfit hsum hpos hc
  refine ⟨h.total_eq hsum, ?_, ?_, ?_, ?_, ?_, ?_, ?_, ?_, ?_, ?_⟩
  · rw [hcommissions, hrewards]
    push_cast
    rfl
  · rw [htotal, hcommissions, hrewards]
    omega
  · rw [htotal]
    omega
  · intro c hc
    have := hashpower_le_sum hc
    omega
  · exact fun c hc => h.share_unsaturated hrewards hfit hsum hpos hc
  · intro c hc
    rw [hearned c hc, h.total_eq hsum, htotal, Apportion.share, Apportion.parts]
    push_cast
    rfl
  · intro c hc
    rw [hearned c hc]
    omega
  · exact h.sum_earned_le hrewards hfit hsum hpos
  · exact h.earned_dust hrewards hfit hsum hpos
  · intro c hc c' hc' hle
    rw [hearned c hc, hearned c' hc']
    exact_mod_cast Apportion.share_mono hle

end Earnings

theorem hashpowerSum_pos (hne : msg.contributions.entries ≠ [])
    (hhash : ∀ c ∈ msg.contributions.values, 0 < c.hashpower) :
    0 < hashpowerSum msg.contributions := by
  obtain ⟨e, rest, hentries⟩ := List.exists_cons_of_ne_nil hne
  have hmem : e.2 ∈ msg.contributions.values := by
    simp [HashMap.values, hentries]
  exact Nat.lt_of_lt_of_le (hhash e.2 hmem) (hashpower_le_sum hmem)

/-- For a nonempty map of positive hashpowers whose exact sum fits `u64` and a reward
`R0` with `5 * R0 < 2^63`, the division loses nothing but the two roundings, and every
reordering of the map gives every miner the same earning. -/
theorem shares_exact (msg : MessageInternalMineSuccess) (h : msg.Computed)
    (hne : msg.contributions.entries ≠ [])
    (hhash : ∀ c ∈ msg.contributions.values, 0 < c.hashpower)
    (hsum : hashpowerSum msg.contributions < 2 ^ 64)
    (hnonneg : 0 ≤ msg.rewards) (hfit : 5 * msg.rewards < 2 ^ 63) :
    msg.ExactShares ∧ ∀ msg', msg.Reordered msg' →
      (msg'.contributions.entries.map fun e => (e.1, msg'.earned e.2)).Perm
        (msg.contributions.entries.map fun e => (e.1, msg.earned e.2)) := by
  obtain ⟨rewards, hrewards⟩ := Int.eq_ofNat_of_zero_le hnonneg
  refine ⟨h.exactShares hrewards (by omega) hsum (hashpowerSum_pos hne hhash), ?_⟩
  intro msg' hreordered
  rw [hreordered.earned_eq h hsum]
  exact hreordered.entries.map _

/-- Two miners of difficulty 9 and 10 share the reward of one ORE. -/
def sample : MessageInternalMineSuccess :=
  let contributions : Contributions := (∅ : Contributions)
    |>.insert (Bytes.fill 32 1) ⟨1000, 9, Bytes.fill 16 0, 7, 2⟩
    |>.insert (Bytes.fill 32 2) ⟨1001, 10, Bytes.fill 16 0, 40_000_007, 4⟩
  { difficulty := 10
    rewards := 100_000_000_000
    commissions := 5_000_000_000
    challengeId := 1
    challenge := Bytes.fill 32 0
    bestNonce := 40_000_007
    totalHashpower := 6
    contributions := contributions }

theorem shares_exact_sample : sample.ExactShares ∧ ∀ msg', sample.Reordered msg' →
    (msg'.contributions.entries.map fun e => (e.1, msg'.earned e.2)).Perm
      (sample.contributions.entries.map fun e => (e.1, sample.earned e.2)) :=
  shares_exact sample ⟨by decide, by decide⟩ (by decide) (by decide) (by decide) (by decide)
    (by decide)

/-- The credits of a message never pay out more than its rewards, and none is a debit. -/
theorem Computed.credits_within {rewards : Nat} (h : msg.Computed)
    (hrewards : msg.rewards = rewards) (hfit : 5 * rewards < 2 ^ 63)
    (hsum : hashpowerSum msg.contributions < 2 ^ 64) (hpos : 0 < msg.totalHashpower) :
    (∀ x ∈ msg.credits, 0 ≤ x) ∧ msg.credits.sum ≤ msg.rewards := by
  have hpos' : 0 < hashpowerSum msg.contributions := h.total_eq hsum ▸ hpos
  obtain ⟨hcommissions, htotal⟩ := h.amounts hrewards hfit
  constructor
  · intro x hx
    rcases List.mem_cons.mp hx with rfl | hearned
    · rw [hcommissions]
      omega
    · obtain ⟨c, hc, rfl⟩ := List.mem_map.mp hearned
      rw [h.earned_eq hrewards hfit hsum hpos' hc]
      omega
  · have hle := h.sum_earned_le hrewards hfit hsum hpos'
    rw [htotal] at hle
    rw [credits, List.sum_cons, hcommissions, hrewards]
    omega

end MessageInternalMineSuccess

end Hashpoo
