import Hashpoo.Fees.Price

/-!
# The surcharge for precious difficulties

A difficulty from `extra_fee_difficulty` on is meant to pay more. The surcharge never lowers a
price by itself, but the limit that comes with it, the cap or 300K, does not hold for the price
without surcharge, and the product stops at the largest word before it is divided.
-/

namespace Hashpoo

open Foundation

namespace FeeSettings

/-- The limit of a raised price. -/
def limit (s : FeeSettings) : Nat := s.priorityFeeCap.getD 300_000

/-- The fee before the surcharge: the static one, or what `dynamic_fee` returns. -/
def base (s : FeeSettings) (source : FeeSource) : Except FeePanic (Except FeeError Nat) :=
  if s.dynamicFee = true then Hashpoo.dynamicFee source s.dynamicFeeUrl s.priorityFeeCap
  else .ok (.ok (s.priorityFee.getD 0))

theorem price_eq_base (s : FeeSettings) (source : FeeSource) (difficulty : Nat) :
    s.price source difficulty = s.base source >>= fun result =>
      match result with
      | .ok fee => .ok (s.priceFor difficulty fee)
      | .error _ => .ok (s.priorityFee.getD 0) := by
  rw [base]
  split
  · next hdynamic => exact price_of_dynamicFee hdynamic source difficulty
  · next hstatic => exact if_neg hstatic

theorem raised_eq (s : FeeSettings) (prioFee : Nat) : s.raised prioFee = min s.limit
    (Word.saturatingMul 64 prioFee (Word.saturatingAdd 64 100 s.extraFeePercent) / 100) := by
  rw [raised, limit]
  cases s.priorityFeeCap <;> rfl

/-- The surcharge lowers exactly the prices above the limit and those whose product is too
large for a word. -/
theorem le_raised_iff (s : FeeSettings) (prioFee : Nat) :
    prioFee ≤ s.raised prioFee ↔ prioFee ≤ s.limit ∧ prioFee * 100 < 2 ^ 64 := by
  have hpercent : 100 ≤ Word.saturatingAdd 64 100 s.extraFeePercent := by
    rw [Word.saturatingAdd]
    omega
  rw [raised_eq, le_min_iff, Word.le_saturatingMul_div_iff (by decide) hpercent]

/-- No solution is sent with a lower price than one of a lower difficulty. -/
def MonotonePrice (s : FeeSettings) (source : FeeSource) : Prop :=
  ∀ difficulty difficulty' price price', difficulty ≤ difficulty' →
    s.price source difficulty = .ok price → s.price source difficulty' = .ok price' →
    price ≤ price'

theorem priceFor_mono_iff (s : FeeSettings) (prioFee : Nat) :
    Monotone (s.priceFor · prioFee) ↔ s.extraFeeDifficulty = 0 ∨ prioFee ≤ s.raised prioFee := by
  constructor
  · intro h
    by_cases hzero : s.extraFeeDifficulty = 0
    · exact .inl hzero
    · have hle := h (Nat.zero_le s.extraFeeDifficulty)
      simp only [priceFor, ge_iff_le, le_refl, if_true, Nat.le_zero, hzero, if_false] at hle
      exact .inr hle
  · rintro (hzero | hraised) difficulty difficulty' hle
    · simp [priceFor, hzero]
    · simp only [priceFor]
      split
      · next hprecious => rw [if_pos (hprecious.trans hle)]
      · split
        · exact hraised
        · exact le_rfl

/-- The prices of all difficulties come from one base. -/
theorem monotonePrice_iff_base {s : FeeSettings} {source : FeeSource} :
    s.MonotonePrice source ↔
      ∀ fee, s.base source = .ok (.ok fee) → Monotone (s.priceFor · fee) := by
  constructor
  · intro h fee hfee difficulty difficulty' hle
    have hprice : ∀ d, s.price source d = .ok (s.priceFor d fee) := fun d => by
      rw [price_eq_base, hfee]
      rfl
    exact h difficulty difficulty' _ _ hle (hprice difficulty) (hprice difficulty')
  · intro h difficulty difficulty' price price' hle hprice hprice'
    rw [price_eq_base] at hprice hprice'
    obtain ⟨result, hresult, hprice⟩ := bind_eq_ok.mp hprice
    rw [hresult] at hprice'
    cases result with
    | ok fee =>
        cases hprice
        cases hprice'
        exact h fee hresult hle
    | error err =>
        -- The static fee that replaces a missing estimate has no surcharge.
        cases hprice
        cases hprice'
        exact le_rfl

/-- The price is monotone exactly when there is no difficulty below the precious ones, or the fee
before the surcharge is within the limit and far enough from the largest word. -/
theorem monotonePrice_iff (s : FeeSettings) (source : FeeSource) :
    s.MonotonePrice source ↔ s.extraFeeDifficulty = 0 ∨
      ∀ fee, s.base source = .ok (.ok fee) → fee ≤ s.limit ∧ fee * 100 < 2 ^ 64 := by
  simp only [monotonePrice_iff_base, priceFor_mono_iff, le_raised_iff]
  by_cases hzero : s.extraFeeDifficulty = 0
  · simp [hzero]
  · simp [hzero]

/-- With a cap only the default of an unanswered request can be above the limit. -/
theorem base_le_limit {s : FeeSettings} {source : FeeSource} {cap fee : Nat}
    (hdynamic : s.dynamicFee = true) (hcap : s.priorityFeeCap = some cap)
    (hanswered : ¬ source.Unanswered s.dynamicFeeUrl) (h : s.base source = .ok (.ok fee)) :
    fee ≤ s.limit := by
  rw [base, if_pos hdynamic] at h
  obtain ⟨hunanswered, -⟩ | ⟨-, err, herr⟩ | ⟨estimate, hestimate, hle⟩ := dynamicFee_cases h
  · exact absurd hunanswered hanswered
  · cases herr
  · cases hestimate
    rw [limit, hcap]
    exact hle cap hcap

/-- A static fee above the cap is lowered for a precious difficulty. -/
theorem not_monotonePrice : ¬ ∀ (s : FeeSettings) (source : FeeSource),
    s.MonotonePrice source := by
  intro h
  let s : FeeSettings :=
    { defaults with dynamicFee := false, priorityFee := some 200_000, extraFeePercent := 50 }
  have hprice : ∀ difficulty, s.price unreachable difficulty =
      .ok (s.priceFor difficulty 200_000) := fun _ => if_neg Bool.false_ne_true
  have hplain : s.priceFor 28 200_000 = 200_000 := if_neg (by decide)
  have hprecious : s.priceFor 29 200_000 ≤ 100_000 := by
    rw [priceFor, if_pos (by decide)]
    exact raised_le rfl _
  have hle := h s unreachable 28 29 _ _ (by decide) (hprice 28) (hprice 29)
  rw [hplain] at hle
  exact absurd (hle.trans hprecious) (by decide)

end FeeSettings

end Hashpoo
