import Hashpoo.Mining.Shared
import Mathlib.Data.Finset.Dedup

/-!
# `ready_clients_processor` and the delivery of missions

The processor takes a block of nonces for every ready client and spawns a task that
sends the mission and records the range of the client's key. The spawned tasks live in
the shared state, since they outlast the turn that spawned them.
-/

namespace Hashpoo.Mining

/-- What the environment contributes to a step of `ready_clients_processor`. -/
inductive ReadyInput where
  | proceed
  /-- The iteration order of the set of ready clients. -/
  | collect (clients : List SocketAddr)
  | clock (now : Int)
  deriving DecidableEq

/-- What all missions of one batch have in common. -/
structure Batch where
  cutoff : Int
  challenge : Challenge
  sockets : HashMap SocketAddr ClientConnection
  deriving DecidableEq

/-- The key behind an address, in the batch's copy of the sockets. -/
def Batch.owner (batch : Batch) (client : SocketAddr) : Option Pubkey :=
  (batch.sockets.lookup client).map ClientConnection.pubkey

inductive ReadyPc where
  | idle
  | checkPaused (clients : List SocketAddr)
  | readProof (clients : List SocketAddr)
  | cutoff (clients : List SocketAddr) (proof : Proof)
  | checkBest (clients : List SocketAddr)
  | readChallenge (clients : List SocketAddr) (cutoff : Int)
  | readSockets (clients : List SocketAddr) (cutoff : Int) (challenge : Challenge)
  | distribute (clients : List SocketAddr) (batch : Batch)
  | deliver (client : SocketAddr) (rest : List SocketAddr) (batch : Batch)
      (nonceRange : NonceRange)
  | removeReady (client : SocketAddr) (rest : List SocketAddr) (batch : Batch)
  deriving DecidableEq

namespace ReadyPc

def step (cfg : Config) (sh : Shared) : ReadyPc → ReadyInput → Option (ReadyPc × Effect)
  | .idle, .collect clients =>
      if clients.Nodup ∧ clients.toFinset = sh.readyClients then
        some (.checkPaused clients, .silent)
      else
        none
  | .checkPaused clients, .proceed =>
      some (if sh.paused = false ∧ clients.length > 0 then .readProof clients else .idle, .silent)
  | .readProof clients, .proceed => some (.cutoff clients sh.appProof, .silent)
  | .cutoff clients proof, .clock now =>
      let seconds := cfg.getCutoff proof now
      some (if seconds < 10 then .checkBest clients else .readChallenge clients seconds, .silent)
  | .checkBest clients, .proceed =>
      some (if sh.epochHashes.bestHash.solution.isSome then .idle else .readChallenge clients 0,
        .silent)
  | .readChallenge clients seconds, .proceed =>
      some (.readSockets clients seconds sh.appProof.challenge, .silent)
  | .readSockets clients seconds challenge, .proceed =>
      some (.distribute clients ⟨seconds, challenge, sh.sockets⟩, .silent)
  | .distribute [] _, .proceed => some (.idle, .silent)
  | .distribute (client :: rest) batch, .proceed =>
      some (.deliver client rest batch sh.nonces.nextRange, .takeNonce (batch.owner client))
  | .deliver client rest batch nonceRange, .proceed =>
      match batch.sockets.lookup client with
      | some sender =>
          let mission : Mission :=
            { pubkey := sender.pubkey
              socket := sender.socket
              challenge := batch.challenge
              cutoff := batch.cutoff
              nonceRange := nonceRange
              sent := false }
          some (.removeReady client rest batch, .spawnMission mission)
      | none => some (.removeReady client rest batch, .silent)
  | .removeReady client rest batch, .proceed =>
      some (.distribute rest batch, .removeReady client)
  | _, _ => none

/-- The mission of `nonceRange` for the client behind `sender`. -/
def missionOf (batch : Batch) (sender : ClientConnection) (nonceRange : NonceRange) : Mission where
  pubkey := sender.pubkey
  socket := sender.socket
  challenge := batch.challenge
  cutoff := batch.cutoff
  nonceRange := nonceRange
  sent := false

/-- The steps of the processor, one constructor for each. -/
inductive Moves (cfg : Config) (sh : Shared) (pc : ReadyPc) : ReadyPc → Effect → Prop
  | collect (clients : List SocketAddr) : pc = .idle → clients.toFinset = sh.readyClients →
      Moves cfg sh pc (.checkPaused clients) .silent
  | pass (clients : List SocketAddr) : pc = .checkPaused clients →
      ¬ (sh.paused = false ∧ clients.length > 0) → Moves cfg sh pc .idle .silent
  | start (clients : List SocketAddr) : pc = .checkPaused clients → sh.paused = false →
      Moves cfg sh pc (.readProof clients) .silent
  | readProof (clients : List SocketAddr) : pc = .readProof clients →
      Moves cfg sh pc (.cutoff clients sh.appProof) .silent
  | late (clients : List SocketAddr) (proof : Proof) (now : Int) : pc = .cutoff clients proof →
      cfg.getCutoff proof now < 10 → Moves cfg sh pc (.checkBest clients) .silent
  | early (clients : List SocketAddr) (proof : Proof) (now : Int) : pc = .cutoff clients proof →
      10 ≤ cfg.getCutoff proof now →
      Moves cfg sh pc (.readChallenge clients (cfg.getCutoff proof now)) .silent
  | found (clients : List SocketAddr) : pc = .checkBest clients → Moves cfg sh pc .idle .silent
  | noBest (clients : List SocketAddr) : pc = .checkBest clients →
      sh.epochHashes.bestHash.solution = none →
      Moves cfg sh pc (.readChallenge clients 0) .silent
  | readChallenge (clients : List SocketAddr) (seconds : Int) :
      pc = .readChallenge clients seconds →
      Moves cfg sh pc (.readSockets clients seconds sh.appProof.challenge) .silent
  | readSockets (clients : List SocketAddr) (seconds : Int) (challenge : Challenge) :
      pc = .readSockets clients seconds challenge →
      Moves cfg sh pc (.distribute clients ⟨seconds, challenge, sh.sockets⟩) .silent
  | finish (batch : Batch) : pc = .distribute [] batch → Moves cfg sh pc .idle .silent
  | take (client : SocketAddr) (rest : List SocketAddr) (batch : Batch) :
      pc = .distribute (client :: rest) batch →
      Moves cfg sh pc (.deliver client rest batch sh.nonces.nextRange)
        (.takeNonce (batch.owner client))
  | spawn (client : SocketAddr) (rest : List SocketAddr) (batch : Batch)
      (nonceRange : NonceRange) (sender : ClientConnection) :
      pc = .deliver client rest batch nonceRange → batch.sockets.lookup client = some sender →
      Moves cfg sh pc (.removeReady client rest batch)
        (.spawnMission (missionOf batch sender nonceRange))
  | gone (client : SocketAddr) (rest : List SocketAddr) (batch : Batch)
      (nonceRange : NonceRange) : pc = .deliver client rest batch nonceRange →
      batch.sockets.lookup client = none →
      Moves cfg sh pc (.removeReady client rest batch) .silent
  | remove (client : SocketAddr) (rest : List SocketAddr) (batch : Batch) :
      pc = .removeReady client rest batch →
      Moves cfg sh pc (.distribute rest batch) (.removeReady client)

theorem step_moves {cfg : Config} {sh : Shared} {pc pc' : ReadyPc} {input : ReadyInput}
    {eff : Effect} (h : pc.step cfg sh input = some (pc', eff)) : pc.Moves cfg sh pc' eff := by
  simp only [step] at h
  split at h
  case h_1 clients =>
    split at h
    · next hclients =>
      cases h
      exact .collect clients rfl hclients.2
    · cases h
  case h_2 clients =>
    cases h
    split
    · next hpaused => exact .start clients rfl hpaused.1
    · next hpaused => exact .pass clients rfl hpaused
  case h_3 clients =>
    cases h
    exact .readProof clients rfl
  case h_4 clients proof now =>
    cases h
    split
    · next hlate => exact .late clients proof now rfl hlate
    · next hearly => exact .early clients proof now rfl (Int.not_lt.mp hearly)
  case h_5 clients =>
    cases h
    cases hbest : sh.epochHashes.bestHash.solution with
    | none => exact .noBest clients rfl hbest
    | some solution => exact .found clients rfl
  case h_6 clients seconds =>
    cases h
    exact .readChallenge clients seconds rfl
  case h_7 clients seconds challenge =>
    cases h
    exact .readSockets clients seconds challenge rfl
  case h_8 batch =>
    cases h
    exact .finish batch rfl
  case h_9 client rest batch =>
    cases h
    exact .take client rest batch rfl
  case h_10 client rest batch nonceRange =>
    split at h
    · next sender hsender =>
      cases h
      exact .spawn client rest batch nonceRange sender rfl hsender
    · next hgone =>
      cases h
      exact .gone client rest batch nonceRange rfl hgone
  case h_11 client rest batch =>
    cases h
    exact .remove client rest batch rfl
  case h_12 => cases h

theorem step_scope {cfg : Config} {sh : Shared} {pc pc' : ReadyPc} {input : ReadyInput}
    {eff : Effect} (h : pc.step cfg sh input = some (pc', eff)) :
    eff.scope ∈ [.nothing, .nonces, .missions, .ready] := by
  cases step_moves h <;> simp [Effect.scope]

/-- The block that has been taken and not yet handed on. -/
def holding : ReadyPc → Option NonceRange
  | .deliver _ _ _ nonceRange => some nonceRange
  | _ => none

/-- A step takes a block, spawns the mission of the block it holds, drops the block of a
client that has gone, or does neither. -/
theorem step_holding {cfg : Config} {sh : Shared} {pc pc' : ReadyPc} {input : ReadyInput}
    {eff : Effect} (h : pc.step cfg sh input = some (pc', eff)) :
    (pc'.holding = some sh.nonces.nextRange ∧ ∃ owner, eff = .takeNonce owner) ∨
    (pc'.holding = none ∧ ∃ mission, eff = .spawnMission mission ∧ mission.sent = false ∧
      pc.holding = some mission.nonceRange) ∨
    (pc'.holding = none ∧ (eff.scope = .nothing ∨ eff.scope = .ready)) := by
  cases step_moves h with
  | take client rest batch => exact .inl ⟨rfl, _, rfl⟩
  | spawn client rest batch nonceRange sender hpc =>
      subst hpc
      exact .inr (.inl ⟨rfl, _, rfl, rfl, rfl⟩)
  | remove => exact .inr (.inr ⟨rfl, .inr rfl⟩)
  | _ => exact .inr (.inr ⟨rfl, .inl rfl⟩)

theorem step_nonces {cfg : Config} {sh : Shared} {pc pc' : ReadyPc} {input : ReadyInput}
    {eff : Effect} (h : pc.step cfg sh input = some (pc', eff)) (hscope : eff.scope = .nonces) :
    ∃ owner, eff = .takeNonce owner := by
  cases step_moves h with
  | take client rest batch => exact ⟨_, rfl⟩
  | _ => cases hscope

end ReadyPc

/-- The next step of the `k`-th spawned task: the send, or the record of the range, with
which the task ends. -/
def missionStep (sh : Shared) (k : Nat) : Option Effect :=
  match sh.missions[k]? with
  | some mission =>
      if mission.sent then some (.recordRange k mission.pubkey mission.nonceRange)
      else some (.sendMission k)
  | none => none

theorem missionStep_cases {sh : Shared} {k : Nat} {eff : Effect}
    (h : missionStep sh k = some eff) : ∃ mission, sh.missions[k]? = some mission ∧
      (mission.sent = true ∧ eff = .recordRange k mission.pubkey mission.nonceRange ∨
        mission.sent = false ∧ eff = .sendMission k) := by
  rw [missionStep] at h
  split at h
  · next mission hk =>
    refine ⟨mission, hk, ?_⟩
    cases hsent : mission.sent with
    | true =>
        rw [if_pos hsent] at h
        cases h
        exact .inl ⟨rfl, rfl⟩
    | false =>
        rw [if_neg (by simp [hsent])] at h
        cases h
        exact .inr ⟨rfl, rfl⟩
  · cases h

theorem missionStep_scope {sh : Shared} {k : Nat} {eff : Effect}
    (h : missionStep sh k = some eff) : eff.scope ∈ [.missions, .ranges] := by
  obtain ⟨mission, -, ⟨-, rfl⟩ | ⟨-, rfl⟩⟩ := missionStep_cases h <;> simp [Effect.scope]

end Hashpoo.Mining
