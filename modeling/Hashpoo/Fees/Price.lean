import Hashpoo.Fees.DynamicFee
import Hashpoo.Foundation.Results

/-!
# The price of a compute unit

`pool_submission_processor` sets the price of its transaction: the estimate, or the static fee
when there is none, and more than that for a precious difficulty. The cap is applied in two
places, to an estimate and to a raised price, and to nothing else.
-/

namespace Hashpoo

open Foundation

/-- The arguments of the server that the price depends on. -/
structure FeeSettings where
  dynamicFee : Bool
  dynamicFeeUrl : Option String
  priorityFee : Option Nat
  priorityFeeCap : Option Nat
  extraFeePercent : Nat
  extraFeeDifficulty : Nat
  deriving DecidableEq

namespace FeeSettings

/-- The defaults of the arguments, with dynamic fees enabled. -/
def defaults : FeeSettings where
  dynamicFee := true
  dynamicFeeUrl := none
  priorityFee := some 100
  priorityFeeCap := some 100_000
  extraFeePercent := 0
  extraFeeDifficulty := 29

/-- The price for a precious difficulty: at most the cap, or 300K without one. -/
def raised (s : FeeSettings) (prioFee : Nat) : Nat :=
  let price :=
    Word.saturatingMul 64 prioFee (Word.saturatingAdd 64 100 s.extraFeePercent) / 100
  match s.priorityFeeCap with
  | some cap => min cap price
  | none => min 300_000 price

/-- The price for the difficulty of the best solution. -/
def priceFor (s : FeeSettings) (difficulty prioFee : Nat) : Nat :=
  if difficulty ≥ s.extraFeeDifficulty then s.raised prioFee else prioFee

/-- What goes into `set_compute_unit_price`. An estimate that fails is replaced by the static
fee, as it is. -/
def price (s : FeeSettings) (source : FeeSource) (difficulty : Nat) : Except FeePanic Nat :=
  if s.dynamicFee = true then do
    match ← Hashpoo.dynamicFee source s.dynamicFeeUrl s.priorityFeeCap with
    | .ok fee => return s.priceFor difficulty fee
    | .error _ => return s.priorityFee.getD 0
  else .ok (s.priceFor difficulty (s.priorityFee.getD 0))

theorem price_of_dynamicFee {s : FeeSettings} (h : s.dynamicFee = true) (source : FeeSource)
    (difficulty : Nat) : s.price source difficulty =
      Hashpoo.dynamicFee source s.dynamicFeeUrl s.priorityFeeCap >>= fun result =>
        match result with
        | .ok fee => .ok (s.priceFor difficulty fee)
        | .error _ => .ok (s.priorityFee.getD 0) := if_pos h

theorem raised_le {s : FeeSettings} {cap : Nat} (h : s.priorityFeeCap = some cap) (prioFee : Nat) :
    s.raised prioFee ≤ cap := by
  rw [raised, h]
  exact min_le_left _ _

theorem priceFor_le_iff {s : FeeSettings} {cap : Nat} (h : s.priorityFeeCap = some cap)
    (difficulty prioFee : Nat) :
    s.priceFor difficulty prioFee ≤ cap ↔ s.extraFeeDifficulty ≤ difficulty ∨ prioFee ≤ cap := by
  rw [priceFor]
  split
  · next hprecious => exact ⟨fun _ => .inl hprecious, fun _ => raised_le h prioFee⟩
  · next hplain => exact ⟨.inr, fun hor => hor.resolve_left hplain⟩

end FeeSettings

/-! ## Without an estimate -/

/-- The response does not have the fee where the strategy expects it. -/
def Malformed (strategy : FeeStrategy) (response : Value)
    (recent : Except String (List RpcPrioritizationFee)) : Prop :=
  match strategy with
  | .helius => ((response.get "result").get "priorityFeeEstimate").asF64 = none
  | .quiknode => (((response.get "result").get "per_compute_unit").get "medium").asF64 = none
  | .alchemy => (response.get "result").asArray = none
  | .triton => feesFromValue (response.get "result") = none
  | .LOCAL => ∀ fees, recent = .ok fees → fees = []

/-- The request of `dynamic_fee` fails, or its answer is no JSON. -/
def FeeSource.Unanswered (source : FeeSource) (dynamicFeeUrl : Option String) : Prop :=
  ∃ host, source.hostStr (dynamicFeeUrl.getD source.rpcUrl) = some host ∧
    source.response (.ofHost host) = none

/-- The request is answered, but not with a fee. -/
def FeeSource.Unavailable (source : FeeSource) (dynamicFeeUrl : Option String) : Prop :=
  ∃ host response, source.hostStr (dynamicFeeUrl.getD source.rpcUrl) = some host ∧
    source.response (.ofHost host) = some response ∧
    Malformed (.ofHost host) response source.recentPrioritizationFees

theorem unwrap_eq_ok {α : Type} {a : Option α} {b : α} : unwrap a = .ok b ↔ a = some b := by
  cases a <;> simp [unwrap]

theorem localDynamicFee_error_iff {recent : Except String (List RpcPrioritizationFee)} :
    (∃ err, localDynamicFee recent = .ok (.error err)) ↔ ∀ fees, recent = .ok fees → fees = [] := by
  cases recent with
  | error err => exact ⟨fun _ => nofun, fun _ => ⟨_, rfl⟩⟩
  | ok fees =>
      rw [localDynamicFee]
      by_cases hnil : fees = []
      · simp [hnil]
      · rw [if_neg hnil]
        constructor
        · rintro ⟨err, h⟩
          obtain ⟨percentiles, -, hresult⟩ := bind_eq_ok.mp h
          cases hresult
        · intro h
          exact absurd (h fees rfl) hnil

theorem calculatedFee_error_iff {strategy : FeeStrategy} {response : Value}
    {recent : Except String (List RpcPrioritizationFee)} :
    (∃ err, calculatedFee strategy response recent = .ok (.error err)) ↔
      Malformed strategy response recent := by
  cases strategy with
  | helius =>
      simp only [calculatedFee, Malformed]
      split <;> simp_all
  | quiknode =>
      simp only [calculatedFee, Malformed]
      split <;> simp_all
  | alchemy =>
      simp only [calculatedFee, Malformed]
      split
      · next values hvalues => simp [bind_eq_ok, hvalues, -bind_pure_comp]
      · next hnone => simp [hnone]
  | triton =>
      simp only [calculatedFee, Malformed]
      split
      · next fees hfees => simp [bind_eq_ok, hfees, -bind_pure_comp]
      · next hnone => simp [hnone]
  | LOCAL =>
      simp only [calculatedFee, Malformed, ← localDynamicFee_error_iff, bind_eq_ok]
      constructor
      · rintro ⟨err, result, hresult, h⟩
        cases result with
        | ok fee => cases h
        | error localErr => exact ⟨localErr, hresult⟩
      · rintro ⟨localErr, h⟩
        exact ⟨_, _, h, rfl⟩

section Outcomes

variable {source : FeeSource} {dynamicFeeUrl : Option String} {priorityFeeCap : Option Nat}

theorem dynamicFee_unanswered (h : source.Unanswered dynamicFeeUrl) :
    dynamicFee source dynamicFeeUrl priorityFeeCap = .ok (.ok defaultPriorityFee) := by
  obtain ⟨host, hhost, hnone⟩ := h
  simp only [dynamicFee, hhost, unwrap, bind_of_ok rfl, hnone]
  rfl

/-- With an answer, the fee in it is cut at the cap. -/
theorem dynamicFee_answered {host : String} {response : Value}
    (hhost : source.hostStr (dynamicFeeUrl.getD source.rpcUrl) = some host)
    (hresponse : source.response (.ofHost host) = some response) :
    dynamicFee source dynamicFeeUrl priorityFeeCap =
      calculatedFee (.ofHost host) response source.recentPrioritizationFees >>= fun estimate =>
        .ok (estimate.map fun fee => priorityFeeCap.elim fee (min fee ·)) := by
  simp only [dynamicFee, hhost, unwrap, bind_of_ok rfl, hresponse]
  congr 1
  funext estimate
  cases estimate with
  | error err => rfl
  | ok fee => cases priorityFeeCap <;> rfl

theorem dynamicFee_unavailable (h : source.Unavailable dynamicFeeUrl) :
    ∃ err, dynamicFee source dynamicFeeUrl priorityFeeCap = .ok (.error err) := by
  obtain ⟨host, response, hhost, hresponse, hmalformed⟩ := h
  obtain ⟨err, herr⟩ := calculatedFee_error_iff.mpr hmalformed
  rw [dynamicFee_answered hhost hresponse, bind_of_ok herr]
  exact ⟨err, rfl⟩

/-- An estimate that is neither the default nor missing obeys the cap. -/
theorem dynamicFee_cases {result : Except FeeError Nat}
    (h : dynamicFee source dynamicFeeUrl priorityFeeCap = .ok result) :
    (source.Unanswered dynamicFeeUrl ∧ result = .ok defaultPriorityFee) ∨
      (source.Unavailable dynamicFeeUrl ∧ ∃ err, result = .error err) ∨
      ∃ fee, result = .ok fee ∧ ∀ cap, priorityFeeCap = some cap → fee ≤ cap := by
  obtain ⟨host, hunwrap, -⟩ := bind_eq_ok.mp h
  have hhost := unwrap_eq_ok.mp hunwrap
  cases hresponse : source.response (.ofHost host) with
  | none =>
      have hunanswered : source.Unanswered dynamicFeeUrl := ⟨host, hhost, hresponse⟩
      rw [dynamicFee_unanswered hunanswered] at h
      exact .inl ⟨hunanswered, (Except.ok.inj h).symm⟩
  | some response =>
      rw [dynamicFee_answered hhost hresponse] at h
      obtain ⟨estimate, hestimate, hresult⟩ := bind_eq_ok.mp h
      cases hresult
      cases estimate with
      | error err =>
          exact .inr (.inl ⟨⟨host, response, hhost, hresponse,
            calculatedFee_error_iff.mp ⟨err, hestimate⟩⟩, err, rfl⟩)
      | ok fee =>
          refine .inr (.inr ⟨_, rfl, fun cap hcap => ?_⟩)
          cases hcap
          exact min_le_right _ _

end Outcomes

/-! ## The cap -/

namespace FeeSettings

/-- The price of a transaction is at most the cap. -/
def WithinCap (s : FeeSettings) (source : FeeSource) (difficulty cap : Nat) : Prop :=
  ∀ price, s.price source difficulty = .ok price → price ≤ cap

/-- With dynamic fees the default has to be raised or below the cap, and so has the static fee
where it stands in for the estimate. -/
theorem withinCap_iff (s : FeeSettings) (source : FeeSource) (difficulty cap : Nat)
    (hdynamic : s.dynamicFee = true) (hcap : s.priorityFeeCap = some cap) :
    s.WithinCap source difficulty cap ↔
      (source.Unanswered s.dynamicFeeUrl →
        s.extraFeeDifficulty ≤ difficulty ∨ defaultPriorityFee ≤ cap) ∧
      (source.Unavailable s.dynamicFeeUrl → s.priorityFee.getD 0 ≤ cap) := by
  simp only [WithinCap, price_of_dynamicFee hdynamic, bind_eq_ok]
  constructor
  · intro h
    constructor
    · intro hunanswered
      rw [← priceFor_le_iff hcap]
      exact h _ ⟨_, dynamicFee_unanswered hunanswered, rfl⟩
    · intro hunavailable
      obtain ⟨err, herr⟩ := dynamicFee_unavailable hunavailable
      exact h _ ⟨_, herr, rfl⟩
  · rintro ⟨hdefault, hstatic⟩ price ⟨result, hresult, hprice⟩
    obtain ⟨hunanswered, rfl⟩ | ⟨hunavailable, err, rfl⟩ | ⟨fee, rfl, hfee⟩ :=
      dynamicFee_cases hresult
    · cases hprice
      exact (priceFor_le_iff hcap _ _).mpr (hdefault hunanswered)
    · cases hprice
      exact hstatic hunavailable
    · cases hprice
      exact (priceFor_le_iff hcap _ _).mpr (.inr (hfee cap hcap))

/-- The service for the estimate cannot be reached. -/
def unreachable : FeeSource where
  rpcUrl := "https://mainnet.helius-rpc.com"
  hostStr := fun _ => some "mainnet.helius-rpc.com"
  reply := .unsent
  recentPrioritizationFees := .error "unreachable"

theorem unanswered_unreachable (url : Option String) : unreachable.Unanswered url :=
  ⟨_, rfl, by rfl⟩

/-- The default cap has room for the default estimate. -/
theorem withinCap_defaults : defaults.WithinCap unreachable 10 100_000 :=
  (withinCap_iff defaults unreachable 10 100_000 rfl rfl).mpr
    ⟨fun _ => .inr (by decide), fun _ => by decide⟩

/-- Below the default the cap is not kept. -/
theorem not_withinCap : ¬ ∀ (s : FeeSettings) (source : FeeSource) (difficulty cap : Nat),
    s.dynamicFee = true → s.priorityFeeCap = some cap → s.WithinCap source difficulty cap := by
  intro h
  let s : FeeSettings := { defaults with priorityFeeCap := some 5_000 }
  have hprice : s.price unreachable 10 = .ok 10_000 := by
    rw [price_of_dynamicFee rfl, dynamicFee_unanswered (unanswered_unreachable _)]
    rfl
  exact absurd (h s unreachable 10 5_000 rfl rfl _ hprice) (by decide)

end FeeSettings

end Hashpoo
