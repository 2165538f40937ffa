import Hashpoo.Server.Contributions
import Mathlib.Data.Finset.Basic

/-!
# State shared by the tasks of the server

The tasks communicate through locks, channels and the chain. Between two awaits a task
touches at most one of them, so every step of a task is one `Effect` on the `Shared`
state, and any interleaving of the steps is possible.

Three fields record the past and are read by no task: the counts of the resets of the
nonce counter and of the epoch hashes, and the list of the blocks of nonces handed out.
-/

namespace Hashpoo.Mining

/-! ## The proof account -/

/-- A mine transaction. An attempt of a submission sends at most one, so the two numbers
identify it. -/
structure MineTx where
  submission : Nat
  attempt : Nat
  solution : Solution
  deriving DecidableEq

/-- A mine transaction that landed, with its reward and the proof account around it. -/
structure Landing where
  tx : MineTx
  reward : Nat
  before : Proof
  after : Proof
  deriving DecidableEq

/-- The pool's proof account with its past, and the mine transactions on their way. A
reader of the account may lag: it sees the current or some past value. -/
structure Chain where
  current : Proof
  past : List Proof
  sent : List MineTx
  landings : List Landing
  deriving DecidableEq

namespace Chain

/-- What a reader sees that lags `lag` updates behind. -/
def proofAt (c : Chain) (lag : Nat) : Option Proof := (c.current :: c.past)[lag]?

def Landed (c : Chain) (tx : MineTx) : Prop := ∃ l ∈ c.landings, l.tx = tx

instance (c : Chain) (tx : MineTx) : Decidable (c.Landed tx) :=
  inferInstanceAs (Decidable (∃ l ∈ c.landings, l.tx = tx))

def update (c : Chain) (proof : Proof) : Chain :=
  { c with current := proof, past := c.current :: c.past }

/-- The mine instruction: it pays the reward and changes the challenge. -/
def land (c : Chain) (tx : MineTx) (reward : Nat) (challenge : Challenge) (time : Int) :
    Chain :=
  let after : Proof := ⟨challenge, c.current.balance + reward, time⟩
  { c.update after with landings := ⟨tx, reward, c.current, after⟩ :: c.landings }

/-- The claim instruction: it debits the account and keeps the challenge. -/
def claim (c : Chain) (amount : Nat) : Chain :=
  c.update { c.current with balance := c.current.balance - amount }

end Chain

/-! ## Components of the shared state -/

/-- A block of nonces taken from the counter for the client behind a socket. -/
structure Assignment where
  owner : Option Pubkey
  epoch : Nat
  range : NonceRange
  deriving DecidableEq

/-- `app_nonce` and its past. -/
structure Nonces where
  appNonce : Nat
  resets : Nat
  assigned : List Assignment
  deriving DecidableEq

namespace Nonces

/-- `start..end` of the next block. Both additions wrap. -/
def nextRange (n : Nonces) : NonceRange :=
  ⟨n.appNonce, Foundation.Word.unsigned 64 (nonceRangeSize + n.appNonce : Nat)⟩

def take (n : Nonces) (owner : Option Pubkey) : Nonces :=
  { n with
    appNonce := n.nextRange.stop
    assigned := ⟨owner, n.resets, n.nextRange⟩ :: n.assigned }

def reset (n : Nonces) : Nonces := { n with appNonce := 0, resets := n.resets + 1 }

theorem nextRange_stop {n : Nonces} (hfit : n.appNonce + nonceRangeSize < 2 ^ 64) :
    n.nextRange.stop = n.appNonce + nonceRangeSize := by
  rw [nextRange, Foundation.Word.unsigned_of_lt (by omega), Nat.add_comm]

end Nonces

/-- `app_epoch_hashes` and the count of its resets. -/
structure Hashes where
  epoch : EpochHashes
  resets : Nat
  deriving DecidableEq

/-- The reset after a success also moves on to the new challenge. -/
def Hashes.reset (h : Hashes) (challenge : Option Challenge) : Hashes :=
  ⟨.fresh (challenge.getD h.epoch.challenge), h.resets + 1⟩

/-- A spawned task that delivers a mission: it sends the message to the connection and
then records the range of the key. -/
structure Mission where
  pubkey : Pubkey
  socket : Nat
  challenge : Challenge
  cutoff : Int
  nonceRange : NonceRange
  sent : Bool
  deriving DecidableEq

structure Shared where
  appProof : Proof
  lastChallenge : Challenge
  hashes : Hashes
  nonces : Nonces
  clientNonceRanges : HashMap Pubkey NonceRange
  sockets : HashMap SocketAddr ClientConnection
  readyClients : Finset SocketAddr
  pongs : HashMap SocketAddr Nat
  /-- The flag `PAUSED`. -/
  paused : Bool
  clientChannel : List ClientMessage
  /-- `none` after the receiver has been dropped. -/
  contributionsChannel : Option (List ClientBestSolution)
  missions : List Mission
  chain : Chain
  /-- Seconds on the server's clock. -/
  now : Nat
  deriving DecidableEq

abbrev Shared.epochHashes (sh : Shared) : EpochHashes := sh.hashes.epoch

/-- The state in which `main` spawns the tasks. The proof has just been fetched. -/
def Shared.start (proof : Proof) : Shared where
  appProof := proof
  lastChallenge := .fill 32 0
  hashes := ⟨.fresh proof.challenge, 0⟩
  nonces := ⟨0, 0, []⟩
  clientNonceRanges := ∅
  sockets := ∅
  readyClients := ∅
  pongs := ∅
  paused := false
  clientChannel := []
  contributionsChannel := some []
  missions := []
  chain := ⟨proof, [], [], []⟩
  now := 0

/-! ## Effects -/

/-- One access of a task, or of the chain, to the shared state. -/
inductive Effect where
  | silent
  | storeProof (proof : Proof)
  | setPaused (paused : Bool)
  | resetNonce
  | takeNonce (owner : Option Pubkey)
  | resetHashes (challenge : Option Challenge)
  | record (pubkey : Pubkey) (c : InternalMessageContribution) (solution : Solution)
  | spawnMission (mission : Mission)
  | sendMission (k : Nat)
  | recordRange (k : Nat) (pubkey : Pubkey) (nonceRange : NonceRange)
  | insertReady (addr : SocketAddr)
  | removeReady (addr : SocketAddr)
  | insertPong (addr : SocketAddr)
  | removePong (addr : SocketAddr)
  | insertSocket (addr : SocketAddr) (conn : ClientConnection)
  | removeSocket (addr : SocketAddr)
  | sendClient (messages : List ClientMessage)
  | receiveClient
  | sendContribution (m : ClientBestSolution)
  | receiveContribution
  | closeContributions
  | sendTx (tx : MineTx)
  | land (tx : MineTx) (reward : Nat) (challenge : Challenge) (time : Int)
  | claim (amount : Nat)
  | tick (seconds : Nat)

/-- The part of the shared state that an effect writes. -/
inductive Scope where
  | nothing
  | proof
  | paused
  | nonces
  | hashes
  | ranges
  | missions
  | ready
  | pongs
  | sockets
  | clientChannel
  | contributionsChannel
  | sent
  | landings
  | clock
  deriving DecidableEq

def Effect.scope : Effect → Scope
  | .silent => .nothing
  | .storeProof _ => .proof
  | .setPaused _ => .paused
  | .resetNonce | .takeNonce _ => .nonces
  | .resetHashes _ | .record _ _ _ => .hashes
  | .spawnMission _ | .sendMission _ => .missions
  | .recordRange _ _ _ => .ranges
  | .insertReady _ | .removeReady _ => .ready
  | .insertPong _ | .removePong _ => .pongs
  | .insertSocket _ _ | .removeSocket _ => .sockets
  | .sendClient _ | .receiveClient => .clientChannel
  | .sendContribution _ | .receiveContribution | .closeContributions => .contributionsChannel
  | .sendTx _ => .sent
  | .land _ _ _ _ | .claim _ => .landings
  | .tick _ => .clock

namespace Shared

def apply (sh : Shared) : Effect → Shared
  | .silent => sh
  | .storeProof proof => { sh with appProof := proof }
  | .setPaused paused => { sh with paused := paused }
  | .resetNonce => { sh with nonces := sh.nonces.reset }
  | .takeNonce owner => { sh with nonces := sh.nonces.take owner }
  | .resetHashes challenge => { sh with hashes := sh.hashes.reset challenge }
  | .record pubkey c solution =>
      { sh with hashes := { sh.hashes with epoch := sh.epochHashes.record pubkey c solution } }
  | .spawnMission mission => { sh with missions := sh.missions ++ [mission] }
  | .sendMission k =>
      { sh with missions := sh.missions.modify k fun mission => { mission with sent := true } }
  | .recordRange k pubkey nonceRange =>
      { sh with
        missions := sh.missions.eraseIdx k
        clientNonceRanges := sh.clientNonceRanges.insert pubkey nonceRange }
  | .insertReady addr => { sh with readyClients := insert addr sh.readyClients }
  | .removeReady addr => { sh with readyClients := sh.readyClients.erase addr }
  | .insertPong addr => { sh with pongs := sh.pongs.insert addr sh.now }
  | .removePong addr => { sh with pongs := sh.pongs.erase addr }
  | .insertSocket addr conn => { sh with sockets := sh.sockets.insert addr conn }
  | .removeSocket addr => { sh with sockets := sh.sockets.erase addr }
  | .sendClient messages => { sh with clientChannel := sh.clientChannel ++ messages }
  | .receiveClient => { sh with clientChannel := sh.clientChannel.tail }
  | .sendContribution m =>
      { sh with contributionsChannel := sh.contributionsChannel.map (· ++ [m]) }
  | .receiveContribution =>
      { sh with contributionsChannel := sh.contributionsChannel.map List.tail }
  | .closeContributions => { sh with contributionsChannel := none }
  | .sendTx tx => { sh with chain := { sh.chain with sent := tx :: sh.chain.sent } }
  | .land tx reward challenge time =>
      { sh with chain := sh.chain.land tx reward challenge time }
  | .claim amount => { sh with chain := sh.chain.claim amount }
  | .tick seconds => { sh with now := sh.now + seconds }

/-! ## Frames -/

variable {sh : Shared} {eff : Effect}

theorem apply_nonces (h : eff.scope ≠ .nonces) : (sh.apply eff).nonces = sh.nonces := by
  cases eff with
  | resetNonce | takeNonce => exact absurd rfl h
  | _ => rfl

theorem apply_appProof (h : eff.scope ≠ .proof) : (sh.apply eff).appProof = sh.appProof := by
  cases eff with
  | storeProof => exact absurd rfl h
  | _ => rfl

theorem apply_hashes (h : eff.scope ≠ .hashes) : (sh.apply eff).hashes = sh.hashes := by
  cases eff with
  | resetHashes | record => exact absurd rfl h
  | _ => rfl

theorem apply_epochHashes (h : eff.scope ≠ .hashes) :
    (sh.apply eff).epochHashes = sh.epochHashes := congrArg Hashes.epoch (apply_hashes h)

theorem apply_sockets (h : eff.scope ≠ .sockets) : (sh.apply eff).sockets = sh.sockets := by
  cases eff with
  | insertSocket | removeSocket => exact absurd rfl h
  | _ => rfl

theorem apply_readyClients (h : eff.scope ≠ .ready) :
    (sh.apply eff).readyClients = sh.readyClients := by
  cases eff with
  | insertReady | removeReady => exact absurd rfl h
  | _ => rfl

theorem apply_landings (h : eff.scope ≠ .landings) :
    (sh.apply eff).chain.landings = sh.chain.landings := by
  cases eff with
  | land | claim => exact absurd rfl h
  | _ => rfl

theorem apply_account (h : eff.scope ≠ .landings) :
    (sh.apply eff).chain.current = sh.chain.current ∧
      (sh.apply eff).chain.past = sh.chain.past := by
  cases eff with
  | land | claim => exact absurd rfl h
  | _ => exact ⟨rfl, rfl⟩

@[simp] theorem apply_record_contributions (pubkey : Pubkey) (c : InternalMessageContribution)
    (solution : Solution) : (sh.apply (.record pubkey c solution)).epochHashes.contributions =
      sh.epochHashes.contributions.insert pubkey c := by
  exact EpochHashes.record_contributions _ _ _ _

@[simp] theorem apply_resetHashes_contributions (challenge : Option Challenge) :
    (sh.apply (.resetHashes challenge)).epochHashes.contributions = ∅ := by
  rfl

@[simp] theorem apply_insertSocket_sockets (addr : SocketAddr) (conn : ClientConnection) :
    (sh.apply (.insertSocket addr conn)).sockets = sh.sockets.insert addr conn := by
  rfl

@[simp] theorem apply_removeSocket_sockets (addr : SocketAddr) :
    (sh.apply (.removeSocket addr)).sockets = sh.sockets.erase addr := by
  rfl

@[simp] theorem apply_claim_landings (amount : Nat) :
    (sh.apply (.claim amount)).chain.landings = sh.chain.landings := by
  rfl

/-- No effect takes a landing back. -/
theorem mem_landings_apply {l : Landing} (h : l ∈ sh.chain.landings) :
    l ∈ (sh.apply eff).chain.landings := by
  cases eff with
  | land tx reward challenge time => exact List.mem_cons_of_mem _ h
  | claim amount => rwa [apply_claim_landings]
  | _ => exact h

theorem Landed_apply {tx : MineTx} (h : sh.chain.Landed tx) : (sh.apply eff).chain.Landed tx := by
  obtain ⟨l, hl, htx⟩ := h
  exact ⟨l, mem_landings_apply hl, htx⟩

/-- A mission is spawned, or it was there and may have been sent. -/
theorem mem_missions_apply {mission : Mission} (h : mission ∈ (sh.apply eff).missions) :
    eff = .spawnMission mission ∨
      ∃ m ∈ sh.missions, mission = m ∨ mission = { m with sent := true } := by
  cases eff with
  | spawnMission m =>
      obtain hold | hnew := List.mem_append.mp h
      · exact .inr ⟨mission, hold, .inl rfl⟩
      · cases List.mem_singleton.mp hnew
        exact .inl rfl
  | sendMission k =>
      obtain ⟨j, hj⟩ := List.mem_iff_getElem?.mp h
      change (sh.missions.modify k _)[j]? = _ at hj
      rw [List.getElem?_modify] at hj
      obtain ⟨m, hm, rfl⟩ := Option.map_eq_some_iff.mp hj
      refine .inr ⟨m, List.mem_of_getElem? hm, ?_⟩
      split
      · exact .inr rfl
      · exact .inl rfl
  | recordRange k pubkey nonceRange =>
      exact .inr ⟨mission, List.mem_of_mem_eraseIdx h, .inl rfl⟩
  | _ => exact .inr ⟨mission, h, .inl rfl⟩

end Shared

/-! ## Settings -/

/-- Foreign code and command-line settings of the server. -/
structure Config where
  drillx : Drillx
  sdk : SignatureScheme
  bufferTime : Nat
  riskTime : Nat
  minDifficulty : Nat

/-- `get_cutoff_with_risk` when a risk time is set, else `get_cutoff`, at the on-chain time
`now`. The sums wrap in `i64`. -/
def Config.getCutoff (cfg : Config) (proof : Proof) (now : Int) : Int :=
  let risk : Int := if cfg.riskTime > 0 then cfg.riskTime else 0
  Foundation.Word.signed 64 (if now > proof.lastHashAt then
    proof.lastHashAt + 60 + risk - cfg.bufferTime - now
  else
    60 + risk - cfg.bufferTime)

end Hashpoo.Mining
