import Hashpoo.Foundation.Chunks
import Hashpoo.Foundation.Word
import Mathlib.Data.List.Infix
import Mathlib.Data.List.Sort

/-!
# The estimate of the priority fee

`dynamic_fee.rs` asks a service for the fees of recent transactions. The host of the service
decides on the request and on where the fee stands in the answer. Fees are `u64`s; sums of
them wrap, as the release profile has no overflow checks.
-/

namespace Hashpoo

open Foundation

/-! ## JSON -/

/-- `serde_json::Number`. -/
inductive JsonNumber where
  | posInt (n : UInt64)
  | negInt (n : Int64)
  | float (x : Float)

/-- `serde_json::Value`. -/
inductive Value where
  | null
  | bool (b : Bool)
  | number (n : JsonNumber)
  | string (s : String)
  | array (values : List Value)
  | object (fields : List (String × Value))

namespace Value

/-- `value[key]`: what is not there is `null`. -/
def get (key : String) : Value → Value
  | object fields => (fields.lookup key).getD null
  | _ => null

def asU64 : Value → Option Nat
  | number (.posInt n) => some n.toNat
  | _ => none

def asF64 : Value → Option Float
  | number (.posInt n) => some n.toFloat
  | number (.negInt n) => some n.toFloat
  | number (.float x) => some x
  | _ => none

def asArray : Value → Option (List Value)
  | array values => some values
  | _ => none

end Value

/-! ## Strategies -/

/-- What ends the server. `estimate_prioritization_fee_micro_lamports` says "Response does not
contain any prioritization fees". -/
inductive FeePanic where
  | unwrapOnNone
  | indexOutOfBounds
  | noPrioritizationFees
  deriving DecidableEq

/-- `Option::unwrap`. -/
def unwrap {α : Type} : Option α → Except FeePanic α
  | some a => .ok a
  | none => .error .unwrapOnNone

def defaultPriorityFee : Nat := 10_000

inductive FeeStrategy where
  | helius
  | triton
  | LOCAL
  | alchemy
  | quiknode
  deriving DecidableEq

/-- The tests `host.contains(..)`, in their order. -/
def FeeStrategy.ofHost (host : String) : FeeStrategy :=
  let contains (part : String) : Bool := part.toList <:+: host.toList
  if contains "helius-rpc.com" then .helius
  else if contains "alchemy.com" then .alchemy
  else if contains "quiknode.pro" then .quiknode
  else if contains "rpcpool.com" then .triton
  else .LOCAL

/-! ## Lists of fees -/

structure RpcPrioritizationFee where
  slot : Nat
  prioritizationFee : Nat
  deriving DecidableEq

/-- A fee from its fields in an object or, in their order, in an array. Other fields of an
object are ignored. -/
def RpcPrioritizationFee.fromValue (v : Value) : Option RpcPrioritizationFee :=
  match v with
  | .object _ => do return ⟨← (v.get "slot").asU64, ← (v.get "prioritizationFee").asU64⟩
  | .array [slot, fee] => do return ⟨← slot.asU64, ← fee.asU64⟩
  | _ => none

/-- `serde_json::from_value::<Vec<RpcPrioritizationFee>>`. -/
def feesFromValue (v : Value) : Option (List RpcPrioritizationFee) :=
  v.asArray.bind (List.mapM RpcPrioritizationFee.fromValue)

/-- `fees.iter().sum::<u64>()`. -/
def sumFees (fees : List Nat) : Nat := Word.unsigned 64 (fees.sum : Nat)

/-- `estimate_prioritization_fee_micro_lamports`: the average of the last twenty fees. -/
def estimatePrioritizationFeeMicroLamports (fees : List RpcPrioritizationFee) :
    Except FeePanic Nat :=
  let last := (fees.reverse.take 20).map RpcPrioritizationFee.prioritizationFee
  if last = [] then .error .noPrioritizationFees
  else .ok (sumFees last / last.length)

/-- `f32::ceil` of a number that is not negative. From `2 ^ 23` on all of them are whole. -/
def ceil (x : Float32) : Float32 :=
  if x < 8_388_608 ∧ x.toUInt64.toFloat32 < x then (x.toUInt64 + 1).toFloat32 else x

/-- The fee of the strategy for Alchemy. The average of no fees is not a number, which becomes
zero. -/
def raisedAverage (fees : List Nat) : Nat :=
  let average := (UInt64.ofNat (sumFees fees)).toFloat32 / (UInt64.ofNat fees.length).toFloat32
  (ceil average * 1.2).toUInt64.toNat

/-! ## The local strategy -/

/-- `(a as f64 / b as f64).round()`, without the rounding of the quotient. -/
def roundDiv (a b : Nat) : Nat := (2 * a + b) / (2 * b)

/-- `sorted_fees[index]`. -/
def feeAt (sortedFees : List Nat) (index : Nat) : Except FeePanic Nat :=
  match sortedFees[index]? with
  | some fee => .ok fee
  | none => .error .indexOutOfBounds

def percentileKeys : List Nat := [10, 25, 50, 60, 70, 75, 80, 85, 90, 100]

def calculatePercentiles (fees : List Nat) : Except FeePanic (List (Nat × Nat)) :=
  let sortedFees := fees.insertionSort (· ≤ ·)
  percentileKeys.mapM fun p => do
    let index := roundDiv (p * sortedFees.length) 100
    return (p, ← feeAt sortedFees (index - 1))

/-- The errors of `local_dynamic_fee`: that of the request, and "No recent prioritization
fees". -/
inductive LocalFeeError where
  | request (err : String)
  | noRecentFees
  deriving DecidableEq

/-- `local_dynamic_fee`, from what `get_recent_prioritization_fees` returns. Every chunk
replaces the percentiles of the one before. -/
def localDynamicFee (recent : Except String (List RpcPrioritizationFee)) :
    Except FeePanic (Except LocalFeeError Nat) :=
  match recent with
  | .error err => .ok (.error (.request err))
  | .ok recentPrioritizationFees =>
      if recentPrioritizationFees = [] then .ok (.error .noRecentFees)
      else do
        let sortedFees := recentPrioritizationFees.insertionSort fun a b => b.slot ≤ a.slot
        let chunks := (chunks 150 sortedFees).take 3
        let feesOf (chunk : List RpcPrioritizationFee) : List Nat :=
          chunk.map RpcPrioritizationFee.prioritizationFee
        let percentiles ← chunks.foldlM (fun _ chunk => calculatePercentiles (feesOf chunk)) []
        return .ok ((percentiles.lookup 75).getD 0)

/-! ## The estimate -/

/-- The errors of `dynamic_fee`, with what their texts show: "Failed to parse priority fee
response: ..", and for Quiknode "Please enable the Solana Priority Fee API add-on in your
QuickNode account.". -/
inductive FeeError where
  | response (response : Value)
  | addOn
  | localFee (err : LocalFeeError)

/-- The response is read where the strategy expects the fee. -/
def calculatedFee (strategy : FeeStrategy) (response : Value)
    (recent : Except String (List RpcPrioritizationFee)) :
    Except FeePanic (Except FeeError Nat) :=
  match strategy with
  | .helius =>
      match ((response.get "result").get "priorityFeeEstimate").asF64 with
      | some fee => .ok (.ok fee.toUInt64.toNat)
      | none => .ok (.error (.response response))
  | .quiknode =>
      match (((response.get "result").get "per_compute_unit").get "medium").asF64 with
      | some fee => .ok (.ok fee.toUInt64.toNat)
      | none => .ok (.error .addOn)
  | .alchemy =>
      match (response.get "result").asArray with
      | some values => do
          let fees ← values.mapM fun v => unwrap (v.get "prioritizationFee").asU64
          return .ok (raisedAverage fees)
      | none => .ok (.error (.response response))
  | .triton =>
      match feesFromValue (response.get "result") with
      | some fees => do
          let fee ← estimatePrioritizationFeeMicroLamports fees
          return .ok fee
      | none => .ok (.error (.response response))
  | .LOCAL => do
      match ← localDynamicFee recent with
      | .ok fee => return .ok fee
      | .error err => return .error (.localFee err)

/-- How the request for an estimate ends. -/
inductive FeeReply where
  | unsent
  | unparsable
  | json (response : Value)

/-- What `dynamic_fee` meets outside: the URL of the RPC client, `Url::parse(..).host_str()`,
the reply to its request, and that of the RPC client. -/
structure FeeSource where
  rpcUrl : String
  hostStr : String → Option String
  reply : FeeReply
  recentPrioritizationFees : Except String (List RpcPrioritizationFee)

/-- The response to read. No request is sent for the local strategy. -/
def FeeSource.response (source : FeeSource) (strategy : FeeStrategy) : Option Value :=
  if strategy = .LOCAL then some .null
  else match source.reply with
    | .json response => some response
    | .unsent | .unparsable => none

/-- `dynamic_fee`. The default for a failed request comes before the cap. -/
def dynamicFee (source : FeeSource) (dynamicFeeUrl : Option String)
    (priorityFeeCap : Option Nat) : Except FeePanic (Except FeeError Nat) := do
  let rpcUrl := dynamicFeeUrl.getD source.rpcUrl
  let host ← unwrap (source.hostStr rpcUrl)
  let strategy := FeeStrategy.ofHost host
  match source.response strategy with
  | none => return .ok defaultPriorityFee
  | some response =>
      match ← calculatedFee strategy response source.recentPrioritizationFees with
      | .error err => return .error err
      | .ok fee =>
          match priorityFeeCap with
          | some maxFee => return .ok (min fee maxFee)
          | none => return .ok fee

end Hashpoo
