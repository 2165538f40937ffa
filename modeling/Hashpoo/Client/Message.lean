import Hashpoo.Server.Message
import Hashpoo.Server.Outgoing

/-!
# Websocket messages received by a client

`process_message` and `new_from_bytes` stand twice in the client, in `mine.rs` and in
`turbomine.rs`, with the same text. They read fixed offsets of a message; the server
writes the fields in order and no offset. `copyLoop_of_drop` goes from field to field.
-/

namespace Hashpoo.Client

open Foundation

/-- Nonces and seconds are compared and added by the miners, as natural numbers. -/
inductive ServerMessage where
  | startMining (challenge : Challenge) (nonceRange : NonceRange) (cutoff : Nat)
  | poolSubmissionResult (data : ServerMessagePoolSubmissionResult)
  deriving DecidableEq

/-- `ControlFlow<(), bool>`: the receive loop stops, or learns whether a mission came. -/
inductive ReceiveFlow where
  | continue (gotStartMiningMessage : Bool)
  | break
  deriving DecidableEq

/-! ## The decoder -/

/-- `ServerMessagePoolSubmissionResult::new_from_bytes`. -/
def newFromBytes (b : List UInt8) : Except Panic ServerMessagePoolSubmissionResult := do
  let bIndex := 1
  let difficulty ← copyLoop b bIndex 4
  let bIndex := bIndex + 4
  let totalBalance ← copyLoop b bIndex 8
  let bIndex := bIndex + 8
  let totalRewards ← copyLoop b bIndex 8
  let bIndex := bIndex + 8
  let topStake ← copyLoop b bIndex 8
  let bIndex := bIndex + 8
  let multiplier ← copyLoop b bIndex 8
  let bIndex := bIndex + 8
  let activeMiners ← copyLoop b bIndex 4
  let bIndex := bIndex + 4
  let challenge ← copyLoop b bIndex 32
  let bIndex := bIndex + 32
  let bestNonce ← copyLoop b bIndex 8
  let bIndex := bIndex + 8
  let minerSuppliedDifficulty ← copyLoop b bIndex 4
  let bIndex := bIndex + 4
  let minerEarnedRewards ← copyLoop b bIndex 8
  let bIndex := bIndex + 8
  let minerPercentage ← copyLoop b bIndex 8
  return {
    difficulty := u32OfLeBytes difficulty
    totalBalance := u64OfLeBytes totalBalance
    totalRewards := u64OfLeBytes totalRewards
    topStake := u64OfLeBytes topStake
    multiplier := u64OfLeBytes multiplier
    activeMiners := u32OfLeBytes activeMiners
    challenge := challenge
    bestNonce := u64OfLeBytes bestNonce
    minerSuppliedDifficulty := u32OfLeBytes minerSuppliedDifficulty
    minerEarnedRewards := u64OfLeBytes minerEarnedRewards
    minerPercentage := u64OfLeBytes minerPercentage }

/-- The branch of message type 0. The length test asks for less than the loops read. -/
def processStartMining (b : List UInt8) : Except Panic (List ServerMessage × ReceiveFlow) :=
  if b.length < 49 then
    .ok ([], .continue false)
  else do
    let bIndex := 1
    let hashBytes ← copyLoop b bIndex 32
    let bIndex := bIndex + 32
    let cutoff ← copyLoop b bIndex 8
    let bIndex := bIndex + 8
    let nonceStart ← copyLoop b bIndex 8
    let bIndex := bIndex + 8
    let nonceEnd ← copyLoop b bIndex 8
    let nonceRange : NonceRange :=
      ⟨(u64OfLeBytes nonceStart).toNat, (u64OfLeBytes nonceEnd).toNat⟩
    return ([.startMining hashBytes nonceRange (u64OfLeBytes cutoff).toNat], .continue true)

/-- `process_message`: what is sent to `message_channel`, and the result. -/
def processMessage (msg : WsMessage) : Except Panic (List ServerMessage × ReceiveFlow) :=
  match msg with
  | .binary b => do
      let messageType ← index b 0
      if messageType = 0 then
        processStartMining b
      else if messageType = 1 then
        let data ← newFromBytes b
        return ([.poolSubmissionResult data], .continue false)
      else
        return ([], .continue false)
  | .close => .ok ([], .break)
  | .text | .ping | .pong => .ok ([], .continue false)

/-! ## The two copies -/

/-- `mine.rs::ServerMessagePoolSubmissionResult::new_from_bytes`. -/
def Mine.newFromBytes := Client.newFromBytes

/-- `turbomine.rs::ServerMessagePoolSubmissionResult::new_from_bytes`. -/
def Turbomine.newFromBytes := Client.newFromBytes

/-- `mine.rs::process_message`. -/
def Mine.processMessage := Client.processMessage

/-- `turbomine.rs::process_message`. -/
def Turbomine.processMessage := Client.processMessage

/-! ## Round trips -/

theorem newFromBytes_toMessageBinary (m : ServerMessagePoolSubmissionResult) :
    newFromBytes m.toMessageBinary = .ok m := by
  have h0 : m.toMessageBinary.drop 1 = (u32LeBytes m.difficulty).val ++ _ := rfl
  have h1 := drop_of_drop h0
  have h2 := drop_of_drop h1
  have h3 := drop_of_drop h2
  have h4 := drop_of_drop h3
  have h5 := drop_of_drop h4
  have h6 := drop_of_drop h5
  have h7 := drop_of_drop h6
  have h8 := drop_of_drop h7
  have h9 := drop_of_drop h8
  -- Nothing follows the last field.
  have h10 := (drop_of_drop h9).trans (List.append_nil _).symm
  simp only [newFromBytes, copyLoop_of_drop h0, copyLoop_of_drop h1, copyLoop_of_drop h2,
    copyLoop_of_drop h3, copyLoop_of_drop h4, copyLoop_of_drop h5, copyLoop_of_drop h6,
    copyLoop_of_drop h7, copyLoop_of_drop h8, copyLoop_of_drop h9, copyLoop_of_drop h10,
    bind, Except.bind, pure, Except.pure, u32OfLeBytes_u32LeBytes, u64OfLeBytes_u64LeBytes]

/-- The cutoff comes out as it was put in, unless it is negative. -/
theorem processMessage_startMining (m : ServerMessageStartMining) (h : 0 ≤ m.cutoff.toInt) :
    processMessage (.binary m.toMessageBinary) =
      .ok ([.startMining m.challenge ⟨m.nonceRangeStart.toNat, m.nonceRangeEnd.toNat⟩
        m.cutoff.toInt.toNat], .continue true) := by
  have hlength : ¬ m.toMessageBinary.length < 49 := by
    simp [ServerMessageStartMining.toMessageBinary, m.challenge.property,
      (i64LeBytes m.cutoff).property, (u64LeBytes m.nonceRangeStart).property,
      (u64LeBytes m.nonceRangeEnd).property]
  have h0 : m.toMessageBinary.drop 1 = m.challenge.val ++ _ := rfl
  have h1 := drop_of_drop h0
  have h2 := drop_of_drop h1
  have h3 := (drop_of_drop h2).trans (List.append_nil _).symm
  have hindex : index m.toMessageBinary 0 = .ok 0 := rfl
  simp only [processMessage, hindex, processStartMining, hlength, copyLoop_of_drop h0,
    copyLoop_of_drop h1, copyLoop_of_drop h2, copyLoop_of_drop h3, bind, Except.bind, pure,
    Except.pure, u64OfLeBytes_u64LeBytes, toNat_u64OfLeBytes_i64LeBytes h, if_true, if_false]

end Hashpoo.Client
