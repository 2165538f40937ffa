import Hashpoo.Fees.Price

/-!
# Answers without a fee

An answer that does not have the fee where it is expected becomes an error, except where
`dynamic_fee.rs` goes on with the elements of a list: it unwraps the fees of the strategy for
Alchemy, panics when that for Triton receives none, and divides by the number of the former.
The local strategy looks at an empty list first.
-/

namespace Hashpoo

open Foundation

/-! ## The local strategy -/

theorem roundDiv_le {a b n : Nat} (hb : 0 < b) (h : a ≤ n * b) : roundDiv a b ≤ n := by
  have hdouble : (n + 1) * (2 * b) = 2 * (n * b) + 2 * b := by
    rw [Nat.add_one_mul, Nat.mul_left_comm]
  rw [roundDiv, ← Nat.lt_succ_iff, Nat.div_lt_iff_lt_mul (by omega), hdouble]
  omega

theorem feeAt_returns {sortedFees : List Nat} {index : Nat} (h : index < sortedFees.length) :
    ∃ fee, feeAt sortedFees index = .ok fee := by
  rw [feeAt, List.getElem?_eq_getElem h]
  exact ⟨_, rfl⟩

theorem calculatePercentiles_returns {fees : List Nat} (h : fees ≠ []) :
    ∃ percentiles, calculatePercentiles fees = .ok percentiles := by
  have hkeys : ∀ p ∈ percentileKeys, p ≤ 100 := by decide
  have hpos : 0 < (fees.insertionSort (· ≤ ·)).length := by
    rw [List.length_insertionSort]
    exact List.length_pos_of_ne_nil h
  rw [calculatePercentiles]
  generalize fees.insertionSort (· ≤ ·) = sortedFees at hpos
  refine exists_mapM_ok.mpr fun p hp => ?_
  -- No percentage is above a hundred, so the index is one of the list.
  have hindex : roundDiv (p * sortedFees.length) 100 ≤ sortedFees.length := by
    refine roundDiv_le (by decide) ?_
    rw [Nat.mul_comm _ 100]
    exact Nat.mul_le_mul_right _ (hkeys p hp)
  have hlt : roundDiv (p * sortedFees.length) 100 - 1 < sortedFees.length := by omega
  obtain ⟨fee, hfee⟩ := feeAt_returns hlt
  exact exists_bind_ok.mpr ⟨fee, hfee, _, rfl⟩

/-- The local strategy never panics. -/
theorem localDynamicFee_returns (recent : Except String (List RpcPrioritizationFee)) :
    ∃ result, localDynamicFee recent = .ok result := by
  cases recent with
  | error err => exact ⟨_, rfl⟩
  | ok fees =>
      rw [localDynamicFee]
      split
      · exact ⟨_, rfl⟩
      · refine exists_bind_ok.mpr ((exists_foldlM_ok ?_ []).imp fun percentiles h => ⟨h, _, rfl⟩)
        intro _ chunk hchunk
        refine calculatePercentiles_returns ?_
        rw [ne_eq, List.map_eq_nil_iff]
        exact ne_nil_of_mem_chunks (List.mem_of_mem_take hchunk)

/-! ## The strategies with a response -/

theorem estimatePrioritizationFeeMicroLamports_returns_iff {fees : List RpcPrioritizationFee} :
    (∃ fee, estimatePrioritizationFeeMicroLamports fees = .ok fee) ↔ fees ≠ [] := by
  rw [estimatePrioritizationFeeMicroLamports]
  by_cases hnil : fees = []
  · simp [hnil]
  · simp [hnil]

theorem unwrap_returns_iff {α : Type} {a : Option α} : (∃ b, unwrap a = .ok b) ↔ a ≠ none := by
  simp only [unwrap_eq_ok, Option.ne_none_iff_exists']

theorem feesFromValue_eq_nil {v : Value} : feesFromValue v = some [] ↔ v.asArray = some [] := by
  rw [feesFromValue]
  cases hvalues : v.asArray with
  | none => simp
  | some values =>
      cases values with
      | nil => simp
      | cons value values => simp [List.mapM_cons, Option.bind_eq_some_iff]

/-- The fees that the response lists can be gone through: they are numbers, and there are some. -/
def ListsFees (strategy : FeeStrategy) (response : Value) : Prop :=
  match strategy with
  | .alchemy => ∀ values, (response.get "result").asArray = some values →
      values ≠ [] ∧ ∀ v ∈ values, (v.get "prioritizationFee").asU64 ≠ none
  | .triton => (response.get "result").asArray ≠ some []
  | .helius | .quiknode | .LOCAL => True

/-- There is no fee to read in the response: it is of another shape, or it lists no fees. -/
def Faulty (strategy : FeeStrategy) (response : Value)
    (recent : Except String (List RpcPrioritizationFee)) : Prop :=
  match strategy with
  | .alchemy => ∀ values, (response.get "result").asArray = some values →
      values = [] ∨ ∃ v ∈ values, (v.get "prioritizationFee").asU64 = none
  | .triton => ∀ fees, feesFromValue (response.get "result") = some fees → fees = []
  | .helius | .quiknode | .LOCAL => Malformed strategy response recent

section Responses

variable {strategy : FeeStrategy} {response : Value}
variable {recent : Except String (List RpcPrioritizationFee)}

theorem calculatedFee_returns_of_listsFees (h : ListsFees strategy response) :
    ∃ estimate, calculatedFee strategy response recent = .ok estimate := by
  cases strategy with
  | helius =>
      simp only [calculatedFee]
      split <;> exact ⟨_, rfl⟩
  | quiknode =>
      simp only [calculatedFee]
      split <;> exact ⟨_, rfl⟩
  | alchemy =>
      simp only [calculatedFee]
      split
      · next values hvalues =>
        obtain ⟨fees, hfees⟩ := exists_mapM_ok.mpr fun v hv =>
          unwrap_returns_iff.mpr ((h values hvalues).2 v hv)
        exact exists_bind_ok.mpr ⟨fees, hfees, _, rfl⟩
      · exact ⟨_, rfl⟩
  | triton =>
      simp only [calculatedFee]
      split
      · next fees hfees =>
        have hne : fees ≠ [] := by
          rintro rfl
          exact h (feesFromValue_eq_nil.mp hfees)
        obtain ⟨fee, hfee⟩ := estimatePrioritizationFeeMicroLamports_returns_iff.mpr hne
        exact exists_bind_ok.mpr ⟨fee, hfee, _, rfl⟩
      · exact ⟨_, rfl⟩
  | LOCAL =>
      obtain ⟨result, hresult⟩ := localDynamicFee_returns recent
      refine exists_bind_ok.mpr ⟨result, hresult, ?_⟩
      cases result <;> exact ⟨_, rfl⟩

/-- A response that can be gone through but has no fee is malformed, which is an error. -/
theorem Faulty.malformed (h : Faulty strategy response recent)
    (hlists : ListsFees strategy response) : Malformed strategy response recent := by
  cases strategy with
  | helius => exact h
  | quiknode => exact h
  | LOCAL => exact h
  | alchemy =>
      show (response.get "result").asArray = none
      cases hvalues : (response.get "result").asArray with
      | none => rfl
      | some values =>
          obtain ⟨hne, hall⟩ := hlists values hvalues
          obtain hnil | ⟨v, hv, hnone⟩ := h values hvalues
          · exact absurd hnil hne
          · exact absurd hnone (hall v hv)
  | triton =>
      show feesFromValue (response.get "result") = none
      cases hfees : feesFromValue (response.get "result") with
      | none => rfl
      | some fees =>
          rw [h fees hfees, feesFromValue_eq_nil] at hfees
          exact absurd hfees hlists

theorem raisedAverage_nil : raisedAverage [] = 0 := by decide +kernel

theorem calculatedFee_alchemy_nil (h : (response.get "result").asArray = some []) :
    calculatedFee .alchemy response recent = .ok (.ok 0) := by
  rw [← raisedAverage_nil]
  simp only [calculatedFee, h]
  rfl

theorem listsFees_of_calculatedFee {estimate : Except FeeError Nat}
    (h : calculatedFee strategy response recent = .ok estimate)
    (hnil : strategy = .alchemy → (response.get "result").asArray ≠ some []) :
    ListsFees strategy response := by
  cases strategy with
  | helius => trivial
  | quiknode => trivial
  | LOCAL => trivial
  | alchemy =>
      intro values hvalues
      constructor
      · rintro rfl
        exact hnil rfl hvalues
      · simp only [calculatedFee, hvalues] at h
        obtain ⟨fees, hfees, -⟩ := bind_eq_ok.mp h
        exact fun v hv => unwrap_returns_iff.mp (exists_mapM_ok.mp ⟨fees, hfees⟩ v hv)
  | triton =>
      intro hempty
      simp only [calculatedFee, feesFromValue_eq_nil.mpr hempty] at h
      obtain ⟨fee, hfee, -⟩ := bind_eq_ok.mp h
      exact estimatePrioritizationFeeMicroLamports_returns_iff.mp ⟨fee, hfee⟩ rfl

/-- No fees are no panic with Alchemy, and no fee either. -/
theorem calculatedFee_returns_iff :
    (∃ estimate, calculatedFee strategy response recent = .ok estimate) ↔
      ListsFees strategy response ∨
        (strategy = .alchemy ∧ (response.get "result").asArray = some []) := by
  constructor
  · rintro ⟨estimate, hestimate⟩
    by_cases hnil : strategy = .alchemy ∧ (response.get "result").asArray = some []
    · exact .inr hnil
    · exact .inl (listsFees_of_calculatedFee hestimate fun hstrategy hempty =>
        hnil ⟨hstrategy, hempty⟩)
  · rintro (hlists | ⟨rfl, hnil⟩)
    · exact calculatedFee_returns_of_listsFees hlists
    · exact ⟨_, calculatedFee_alchemy_nil hnil⟩

end Responses

/-! ## Failed estimates -/

section Estimates

variable {source : FeeSource} {dynamicFeeUrl : Option String} {priorityFeeCap : Option Nat}

/-- The request fails, or there is no fee in its answer. -/
def FeeSource.Fails (source : FeeSource) (dynamicFeeUrl : Option String) : Prop :=
  ∀ host response, source.hostStr (dynamicFeeUrl.getD source.rpcUrl) = some host →
    source.response (.ofHost host) = some response →
    Faulty (.ofHost host) response source.recentPrioritizationFees

/-- `dynamic_fee` returns, and when there is no fee to read it returns an error or the default. -/
def Graceful (source : FeeSource) (dynamicFeeUrl : Option String) (priorityFeeCap : Option Nat) :
    Prop :=
  ∃ result, dynamicFee source dynamicFeeUrl priorityFeeCap = .ok result ∧
    (source.Fails dynamicFeeUrl →
      (∃ err, result = .error err) ∨ result = .ok defaultPriorityFee)

/-- When `dynamic_fee` does not panic. -/
theorem dynamicFee_returns_iff :
    (∃ result, dynamicFee source dynamicFeeUrl priorityFeeCap = .ok result) ↔
      ∃ host, source.hostStr (dynamicFeeUrl.getD source.rpcUrl) = some host ∧
        ∀ response, source.response (.ofHost host) = some response →
          ListsFees (.ofHost host) response ∨
            (FeeStrategy.ofHost host = .alchemy ∧ (response.get "result").asArray = some []) := by
  constructor
  · rintro ⟨result, hresult⟩
    obtain ⟨host, hunwrap, -⟩ := bind_eq_ok.mp hresult
    have hhost := unwrap_eq_ok.mp hunwrap
    refine ⟨host, hhost, fun response hresponse => ?_⟩
    rw [dynamicFee_answered hhost hresponse] at hresult
    obtain ⟨estimate, hestimate, -⟩ := bind_eq_ok.mp hresult
    exact calculatedFee_returns_iff.mp ⟨estimate, hestimate⟩
  · rintro ⟨host, hhost, hresponses⟩
    cases hresponse : source.response (.ofHost host) with
    | none => exact ⟨_, dynamicFee_unanswered ⟨host, hhost, hresponse⟩⟩
    | some response =>
        obtain ⟨estimate, hestimate⟩ :=
          calculatedFee_returns_iff.mpr (hresponses response hresponse)
        rw [dynamicFee_answered hhost hresponse, bind_of_ok hestimate]
        exact ⟨_, rfl⟩

/-- The zero that comes from no fees is neither an error nor the default. -/
theorem not_graceful_of_alchemy_nil {host : String} {response : Value}
    (hhost : source.hostStr (dynamicFeeUrl.getD source.rpcUrl) = some host)
    (hresponse : source.response (.ofHost host) = some response)
    (hstrategy : FeeStrategy.ofHost host = .alchemy)
    (hnil : (response.get "result").asArray = some []) :
    ¬ Graceful source dynamicFeeUrl priorityFeeCap := by
  rintro ⟨result, hresult, hfails⟩
  have hfaulty : source.Fails dynamicFeeUrl := by
    intro host' response' hhost' hresponse'
    cases hhost.symm.trans hhost'
    cases hresponse.symm.trans hresponse'
    rw [hstrategy]
    intro values hvalues
    cases hnil.symm.trans hvalues
    exact .inl rfl
  rw [dynamicFee_answered hhost hresponse, hstrategy, calculatedFee_alchemy_nil hnil] at hresult
  cases hresult
  obtain ⟨err, herr⟩ | hdefault := hfails hfaulty
  · cases herr
  · cases priorityFeeCap with
    | none => exact absurd hdefault (by simp [Except.map, defaultPriorityFee])
    | some cap => exact absurd hdefault (by simp [Except.map, defaultPriorityFee])

/-- `dynamic_fee` deals with an answer exactly when the list in it, if the strategy goes through
one, has fees only, and at least one. -/
theorem graceful_iff (source : FeeSource) (dynamicFeeUrl : Option String)
    (priorityFeeCap : Option Nat) : Graceful source dynamicFeeUrl priorityFeeCap ↔
      ∃ host, source.hostStr (dynamicFeeUrl.getD source.rpcUrl) = some host ∧
        ∀ response, source.response (.ofHost host) = some response →
          ListsFees (.ofHost host) response := by
  constructor
  · intro hgraceful
    obtain ⟨host, hhost, hresponses⟩ :=
      dynamicFee_returns_iff.mp (hgraceful.imp fun _ hresult => hresult.1)
    refine ⟨host, hhost, fun response hresponse => ?_⟩
    obtain hlists | ⟨hstrategy, hnil⟩ := hresponses response hresponse
    · exact hlists
    · exact absurd hgraceful (not_graceful_of_alchemy_nil hhost hresponse hstrategy hnil)
  · rintro ⟨host, hhost, hlists⟩
    obtain ⟨result, hresult⟩ := dynamicFee_returns_iff.mpr
      ⟨host, hhost, fun response hresponse => .inl (hlists response hresponse)⟩
    refine ⟨result, hresult, fun hfails => ?_⟩
    cases hresponse : source.response (.ofHost host) with
    | none =>
        rw [dynamicFee_unanswered ⟨host, hhost, hresponse⟩] at hresult
        exact .inr (Except.ok.inj hresult).symm
    | some response =>
        have hmalformed := (hfails host response hhost hresponse).malformed
          (hlists response hresponse)
        obtain ⟨err, herr⟩ := dynamicFee_unavailable ⟨host, response, hhost, hresponse, hmalformed⟩
        rw [herr] at hresult
        exact .inl ⟨err, (Except.ok.inj hresult).symm⟩

end Estimates

/-! ## An empty list -/

/-- The service for Triton has seen no fees. -/
def noRecentFees : FeeSource where
  rpcUrl := "https://mainnet.rpcpool.com"
  hostStr := fun _ => some "mainnet.rpcpool.com"
  reply := .json (.object [("result", .array [])])
  recentPrioritizationFees := .error "not asked"

theorem dynamicFee_noRecentFees (dynamicFeeUrl : Option String) (priorityFeeCap : Option Nat) :
    dynamicFee noRecentFees dynamicFeeUrl priorityFeeCap = .error .noPrioritizationFees := rfl

/-- An answer without fees ends the server, which has a host and an answer in JSON. -/
theorem not_graceful : ¬ ∀ (source : FeeSource) (dynamicFeeUrl : Option String)
    (priorityFeeCap : Option Nat) (host : String),
    source.hostStr (dynamicFeeUrl.getD source.rpcUrl) = some host →
    Graceful source dynamicFeeUrl priorityFeeCap := by
  intro h
  obtain ⟨result, hresult, -⟩ := h noRecentFees none none _ rfl
  rw [dynamicFee_noRecentFees] at hresult
  cases hresult

end Hashpoo
