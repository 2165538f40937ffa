import Hashpoo.Server.Rewards

/-!
# When hashpowers mean something

`normalized_hashpower` weighs a difficulty `d` with `2 ^ (d - 8)`, and nothing keeps the
difficulties of the contributions at or above that base: the threshold of an accepted
submission is a setting of its own. Below the base the subtraction wraps, the power
shifts every bit out and the weight is zero.
-/

namespace Hashpoo

open Foundation

/-! ## One entry -/

theorem contributionHashpower_of_lt {diff : Nat} (h : diff < minDiff) :
    contributionHashpower diff = 0 := by
  have hall : ∀ d < minDiff, contributionHashpower d = 0 := by decide
  exact hall diff h

/-- Between the base and the width of the word nothing wraps. -/
theorem contributionHashpower_of_le {diff : Nat} (hbase : minDiff ≤ diff) (hword : diff < 64) :
    contributionHashpower diff = 2 ^ (diff - minDiff) := by
  have hpow : 2 ^ (diff - minDiff) < 2 ^ 64 := Nat.pow_lt_pow_right (by omega) (by omega)
  have hexponent : Word.unsigned 32 ((diff : Int) - minDiff) = diff - minDiff := by
    rw [← Nat.cast_sub hbase, Word.unsigned_of_lt (by omega)]
  rw [contributionHashpower, normalizedHashpower, hexponent, Word.wrappingPow2_eq,
    Nat.mod_eq_of_lt hpow, unitHashpower, Nat.cast_one, one_mul, Word.unsigned_of_lt hpow]

theorem contributionHashpower_le (diff : Nat) (hword : diff < 64) :
    contributionHashpower diff ≤ 2 ^ diff := by
  by_cases hbase : minDiff ≤ diff
  · rw [contributionHashpower_of_le hbase hword]
    exact Nat.pow_le_pow_right (by omega) (Nat.sub_le _ _)
  · rw [contributionHashpower_of_lt (Nat.not_le.mp hbase)]
    exact Nat.zero_le _

theorem contributionHashpower_pos {diff : Nat} (hbase : minDiff ≤ diff) (hword : diff < 64) :
    0 < contributionHashpower diff := by
  rw [contributionHashpower_of_le hbase hword]
  exact Nat.two_pow_pos _

theorem contributionHashpower_lt {diff diff' : Nat} (hbase : minDiff ≤ diff)
    (hlt : diff < diff') (hword : diff' < 64) :
    contributionHashpower diff < contributionHashpower diff' := by
  rw [contributionHashpower_of_le hbase (by omega), contributionHashpower_of_le (by omega) hword]
  exact Nat.pow_lt_pow_right (by omega) (by omega)

/-! ## The contributions of an epoch -/

/-- Sum of `2 ^ d` over the difficulties held. -/
def powerSum (contributions : Contributions) : Nat :=
  (contributions.values.map fun c => 2 ^ c.suppliedDiff).sum

/-- Every entry is weighed by its difficulty, as the contributions processor records it. -/
def Weighed (contributions : Contributions) : Prop :=
  ∀ c ∈ contributions.values, c.hashpower = contributionHashpower c.suppliedDiff

/-- The hashpowers order the entries as their difficulties do, and the total is a sound
divisor. -/
structure SoundHashpower (contributions : Contributions) : Prop where
  positive : ∀ c ∈ contributions.values, 1 ≤ c.hashpower
  strict : ∀ c ∈ contributions.values, ∀ c' ∈ contributions.values,
    c.suppliedDiff < c'.suppliedDiff → c.hashpower < c'.hashpower
  total : totalHashpower contributions = hashpowerSum contributions
  total_pos : contributions.entries ≠ [] → 0 < totalHashpower contributions
  /-- No message over these contributions makes the processor of the successes panic. -/
  divides : ∀ msg : MessageInternalMineSuccess, msg.Computed →
    msg.contributions = contributions → msg.earnings ≠ .error .divideByZero

variable {contributions : Contributions}

theorem pow_le_powerSum {c : InternalMessageContribution} (hc : c ∈ contributions.values) :
    2 ^ c.suppliedDiff ≤ powerSum contributions :=
  List.single_le_sum (fun _ _ => Nat.zero_le _) _
    (List.mem_map_of_mem (f := fun c => 2 ^ c.suppliedDiff) hc)

theorem suppliedDiff_lt (hfit : powerSum contributions < 2 ^ 64)
    {c : InternalMessageContribution} (hc : c ∈ contributions.values) : c.suppliedDiff < 64 :=
  (Nat.pow_lt_pow_iff_right (by omega)).mp ((pow_le_powerSum hc).trans_lt hfit)

/-- No weight exceeds the power it stands for. -/
theorem hashpowerSum_le (hweighed : Weighed contributions)
    (hfit : powerSum contributions < 2 ^ 64) :
    hashpowerSum contributions ≤ powerSum contributions := by
  apply List.sum_le_sum
  intro c hc
  rw [hweighed c hc]
  exact contributionHashpower_le _ (suppliedDiff_lt hfit hc)

/-- The hashpowers are sound exactly when no difficulty lies below the base. -/
theorem soundHashpower_iff (hweighed : Weighed contributions)
    (hfit : powerSum contributions < 2 ^ 64) :
    SoundHashpower contributions ↔ ∀ c ∈ contributions.values, minDiff ≤ c.suppliedDiff := by
  constructor
  · intro h c hc
    by_contra hbelow
    have hpos := h.positive c hc
    rw [hweighed c hc, contributionHashpower_of_lt (Nat.not_le.mp hbelow)] at hpos
    omega
  · intro hbase
    have htotal : totalHashpower contributions = hashpowerSum contributions :=
      totalHashpower_eq ((hashpowerSum_le hweighed hfit).trans_lt hfit)
    have hpositive : ∀ c ∈ contributions.values, 0 < c.hashpower := by
      intro c hc
      rw [hweighed c hc]
      exact contributionHashpower_pos (hbase c hc) (suppliedDiff_lt hfit hc)
    have hpos : contributions.entries ≠ [] → 0 < totalHashpower contributions := by
      intro hne
      obtain ⟨e, rest, hentries⟩ := List.exists_cons_of_ne_nil hne
      have hmem : e.2 ∈ contributions.values := by simp [HashMap.values, hentries]
      rw [htotal]
      exact (hpositive e.2 hmem).trans_le (hashpower_le_sum hmem)
    refine ⟨hpositive, ?_, htotal, hpos, ?_⟩
    · intro c hc c' hc' hlt
      rw [hweighed c hc, hweighed c' hc']
      exact contributionHashpower_lt (hbase c hc) hlt (suppliedDiff_lt hfit hc')
    · rintro msg hcomputed rfl
      rw [MessageInternalMineSuccess.earnings, if_neg]
      · simp
      · rintro ⟨hne, hzero⟩
        have := hpos hne
        rw [hcomputed.totalHashpower] at hzero
        omega

end Hashpoo
