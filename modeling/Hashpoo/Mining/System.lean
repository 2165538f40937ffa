import Hashpoo.Foundation.Transition
import Hashpoo.Mining.Clients
import Hashpoo.Mining.Missions
import Hashpoo.Mining.Submission

/-!
# The mining side of the server as one system

The tasks that `main` spawns, the connections and the chain take turns in any order. An
event names who takes the next step and carries what the environment contributes to it.
`perform` gives the new locals of that task and its effect on the shared state;
`Event.scopes` says which parts of the shared state each of them can write at all.
-/

namespace Hashpoo.Mining

/-! ## The tracking processors -/

/-- `proof_tracking_processor`, from one websocket notification to the next. -/
inductive TrackingPc where
  | idle
  | checkLast (newProof : Proof)
  | store (newProof : Proof)
  deriving DecidableEq

/-- `lag` is the age of the notification, when the step is its arrival. -/
def TrackingPc.step (sh : Shared) : TrackingPc → Option Nat → Option (TrackingPc × Effect)
  | .idle, some lag =>
      match sh.chain.proofAt lag with
      | some newProof => some (.checkLast newProof, .silent)
      | none => none
  | .checkLast newProof, none =>
      some (if sh.lastChallenge = newProof.challenge then .idle else .store newProof, .silent)
  | .store newProof, none => some (.idle, .storeProof newProof)
  | _, _ => none

/-- `ping_check_processor`. A ping was sent to each of the addresses that remain. -/
inductive PingPc where
  | idle
  | await (pinged : List SocketAddr)
  deriving DecidableEq

def PingPc.step (sh : Shared) (failed : Bool) : PingPc → PingPc × Effect
  | .idle => (.await sh.sockets.keys, .silent)
  | .await [] => (.idle, .silent)
  | .await (who :: rest) => (.await rest, if failed then .removeSocket who else .silent)

theorem PingPc.step_scope (sh : Shared) (failed : Bool) (pc : PingPc) :
    (pc.step sh failed).2.scope ∈ [.nothing, .sockets] := by
  simp only [step]
  split <;> (try split) <;> simp [Effect.scope]

theorem PingPc.step_sockets {sh : Shared} {failed : Bool} {pc : PingPc}
    (h : (pc.step sh failed).2.scope = .sockets) :
    ∃ addr, (pc.step sh failed).2 = .removeSocket addr := by
  simp only [step] at h ⊢
  split at h
  case h_3 who rest =>
    cases failed with
    | true => exact ⟨who, rfl⟩
    | false => cases h
  all_goals cases h

/-- `pong_tracking_processor`. -/
inductive PongPc where
  | idle
  | check (pongs : List (SocketAddr × Nat))
  | removePong (addr : SocketAddr) (rest : List (SocketAddr × Nat))
  deriving DecidableEq

def PongPc.step (sh : Shared) : PongPc → PongPc × Effect
  | .idle => (.check (sh.pongs.entries.map fun e => (e.1, e.2)), .silent)
  | .check [] => (.idle, .silent)
  | .check ((addr, last) :: rest) =>
      if sh.now - last > 90 then (.removePong addr rest, .removeSocket addr)
      else (.check rest, .silent)
  | .removePong addr rest => (.check rest, .removePong addr)

theorem PongPc.step_scope (sh : Shared) (pc : PongPc) :
    (pc.step sh).2.scope ∈ [.nothing, .pongs, .sockets] := by
  simp only [step]
  split <;> (try split) <;> simp [Effect.scope]

theorem PongPc.step_sockets {sh : Shared} {pc : PongPc}
    (h : (pc.step sh).2.scope = .sockets) : ∃ addr, (pc.step sh).2 = .removeSocket addr := by
  simp only [step] at h ⊢
  split at h
  case h_3 addr last rest =>
    split at h
    · next hlate => exact ⟨addr, by simp [hlate]⟩
    · cases h
  all_goals cases h

/-! ## States and events -/

structure State where
  shared : Shared
  submission : PoolSubmissionProcessor
  ready : ReadyPc
  messages : MessagePc
  contributions : ContributionsPc
  tracking : TrackingPc
  pings : PingPc
  pongs : PongPc
  connections : List Connection
  /-- Connections accepted so far, the source of their identities. -/
  accepted : Nat
  /-- A panic has ended the server. -/
  aborted : Bool
  deriving DecidableEq

/-- The server right after `main` has spawned its tasks. -/
def State.start (proof : Proof) : State where
  shared := .start proof
  submission := .start
  ready := .idle
  messages := .idle
  contributions := .idle
  tracking := .idle
  pings := .idle
  pongs := .idle
  connections := []
  accepted := 0
  aborted := false

inductive Event where
  | submission (input : SubmissionInput)
  | ready (input : ReadyInput)
  | mission (k : Nat)
  | message
  | contribution
  | tracking (lag : Option Nat)
  | ping (failed : Bool)
  | pong
  /-- A handshake has authenticated a client as the owner of the key and miner id. -/
  | connect (addr : SocketAddr) (pubkey : Pubkey) (minerId : Int)
  | receive (k : Nat) (msg : WsMessage)
  | streamEnded (k : Nat)
  | disconnect (k : Nat)
  | land (tx : MineTx) (reward : Nat) (challenge : Challenge) (time : Int)
  | claim (amount : Nat)
  | tick (seconds : Nat)

/-- The event is a step of the submission processor. -/
def Event.isSubmission : Event → Bool
  | .submission _ => true
  | _ => false

/-- The event is a step of `ready_clients_processor`. -/
def Event.isReady : Event → Bool
  | .ready _ => true
  | _ => false

namespace State

/-! ## Steps -/

/-- The locals after a step, and the effect of the step. -/
def perform (cfg : Config) (s : State) : Event → Option (State × Effect)
  | .submission input =>
      (s.submission.step cfg s.shared input).map fun (p, eff) => ({ s with submission := p }, eff)
  | .ready input =>
      (s.ready.step cfg s.shared input).map fun (pc, eff) => ({ s with ready := pc }, eff)
  | .mission k => (missionStep s.shared k).map fun eff => (s, eff)
  | .message => (s.messages.step s.shared).map fun (pc, eff) => ({ s with messages := pc }, eff)
  | .contribution =>
      (s.contributions.step cfg s.shared).map fun (pc, eff) => ({ s with contributions := pc }, eff)
  | .tracking lag =>
      (s.tracking.step s.shared lag).map fun (pc, eff) => ({ s with tracking := pc }, eff)
  | .ping failed =>
      let (pc, eff) := s.pings.step s.shared failed
      some ({ s with pings := pc }, eff)
  | .pong =>
      let (pc, eff) := s.pongs.step s.shared
      some ({ s with pongs := pc }, eff)
  | .connect addr pubkey minerId =>
      if addr ∈ s.shared.sockets then
        -- "Socket addr already has an active connection"
        some (s, .silent)
      else
        some ({ s with
            connections := s.connections ++ [⟨addr, pubkey, true⟩], accepted := s.accepted + 1 },
          .insertSocket addr ⟨pubkey, minerId, s.accepted⟩)
  | .receive k msg =>
      match s.connections[k]? with
      | some ⟨addr, pubkey, true⟩ =>
          match processMessage cfg.sdk msg addr with
          | .ok (sent, .continue) => some (s, .sendClient sent)
          | .ok (sent, .break) =>
              some ({ s with connections := s.connections.set k ⟨addr, pubkey, false⟩ },
                .sendClient sent)
          | .error _ => some ({ s with aborted := true }, .silent)
      | _ => none
  | .streamEnded k =>
      match s.connections[k]? with
      | some ⟨addr, pubkey, true⟩ =>
          some ({ s with connections := s.connections.set k ⟨addr, pubkey, false⟩ }, .silent)
      | _ => none
  | .disconnect k =>
      match s.connections[k]? with
      | some ⟨addr, _, false⟩ =>
          some ({ s with connections := s.connections.eraseIdx k }, .removeSocket addr)
      | _ => none
  | .land tx reward challenge time =>
      if tx ∈ s.shared.chain.sent ∧ ¬ s.shared.chain.Landed tx ∧
          cfg.drillx.isValid tx.solution s.shared.chain.current.challenge ∧
          challenge ≠ s.shared.chain.current.challenge ∧
          s.shared.chain.current.balance + reward < 2 ^ 64 then
        some (s, .land tx reward challenge time)
      else
        none
  | .claim amount =>
      if amount ≤ s.shared.chain.current.balance then some (s, .claim amount) else none
  | .tick seconds => some (s, .tick seconds)

/-- The proof that the tracking processor stores next. -/
def tracked (s : State) : Option Proof :=
  match s.tracking with
  | .store newProof => some newProof
  | _ => none

/-- One step of the system. -/
def step (cfg : Config) (s : State) (e : Event) : Option State :=
  if s.aborted then none
  else (s.perform cfg e).map fun (s', eff) => { s' with shared := s.shared.apply eff }

theorem step_eq_some {cfg : Config} {s t : State} {e : Event} :
    s.step cfg e = some t ↔ s.aborted = false ∧
      ∃ s' eff, s.perform cfg e = some (s', eff) ∧
        t = { s' with shared := s.shared.apply eff } := by
  rw [step]
  cases s.aborted with
  | true => simp
  | false => simp [eq_comm]

/-! ## Who writes what -/

end State

/-- The parts of the shared state that a step can write. -/
def Event.scopes : Event → List Scope
  | .submission _ => submissionScopes
  | .ready _ => [.nothing, .nonces, .missions, .ready]
  | .mission _ => [.missions, .ranges]
  | .message => [.nothing, .pongs, .ready, .clientChannel, .contributionsChannel]
  | .contribution => [.nothing, .hashes, .contributionsChannel]
  | .tracking _ => [.nothing, .proof]
  | .ping _ => [.nothing, .sockets]
  | .pong => [.nothing, .pongs, .sockets]
  | .connect _ _ _ => [.nothing, .sockets]
  | .receive _ _ => [.nothing, .clientChannel]
  | .streamEnded _ => [.nothing]
  | .disconnect _ => [.sockets]
  | .land _ _ _ _ | .claim _ => [.landings]
  | .tick _ => [.clock]

namespace State

variable {cfg : Config} {s s' t : State} {e : Event} {eff : Effect}

theorem perform_scope (h : s.perform cfg e = some (s', eff)) : eff.scope ∈ e.scopes := by
  cases e with
  | submission input =>
      obtain ⟨⟨p, eff'⟩, hstep, heq⟩ := Option.map_eq_some_iff.mp h
      cases heq
      exact (PoolSubmissionProcessor.step_moves hstep).scope
  | ready input =>
      obtain ⟨⟨pc, eff'⟩, hstep, heq⟩ := Option.map_eq_some_iff.mp h
      cases heq
      exact ReadyPc.step_scope hstep
  | mission k =>
      obtain ⟨eff', hstep, heq⟩ := Option.map_eq_some_iff.mp h
      cases heq
      exact missionStep_scope hstep
  | message =>
      obtain ⟨⟨pc, eff'⟩, hstep, heq⟩ := Option.map_eq_some_iff.mp h
      cases heq
      exact MessagePc.step_scope hstep
  | contribution =>
      obtain ⟨⟨pc, eff'⟩, hstep, heq⟩ := Option.map_eq_some_iff.mp h
      cases heq
      exact ContributionsPc.step_scope hstep
  | tracking lag =>
      obtain ⟨⟨pc, eff'⟩, hstep, heq⟩ := Option.map_eq_some_iff.mp h
      cases heq
      simp only [TrackingPc.step] at hstep
      split at hstep <;> (try split at hstep) <;> cases hstep <;> simp [Effect.scope, Event.scopes]
  | ping failed =>
      cases h
      exact PingPc.step_scope _ _ _
  | pong =>
      cases h
      exact PongPc.step_scope _ _
  | receive k msg =>
      simp only [perform] at h
      split at h <;> (try split at h) <;> cases h <;> simp [Effect.scope, Event.scopes]
  | _ =>
      simp only [perform] at h
      (try split at h) <;> cases h <;> simp [Effect.scope, Event.scopes]

/-- The tasks that move by their own steps only. -/
structure Frame (s s' : State) (e : Event) : Prop where
  submission : (∀ input, e ≠ .submission input) → s'.submission = s.submission
  ready : (∀ input, e ≠ .ready input) → s'.ready = s.ready
  contributions : e ≠ .contribution → s'.contributions = s.contributions
  tracking : (∀ lag, e ≠ .tracking lag) → s'.tracking = s.tracking

theorem Frame.of_eq (hsubmission : s'.submission = s.submission) (hready : s'.ready = s.ready)
    (hcontributions : s'.contributions = s.contributions) (htracking : s'.tracking = s.tracking) :
    s.Frame s' e :=
  ⟨fun _ => hsubmission, fun _ => hready, fun _ => hcontributions, fun _ => htracking⟩

theorem perform_frame (h : s.perform cfg e = some (s', eff)) : s.Frame s' e := by
  cases e with
  | submission input =>
      obtain ⟨⟨p, eff'⟩, -, heq⟩ := Option.map_eq_some_iff.mp h
      cases heq
      exact ⟨fun hne => absurd rfl (hne input), fun _ => rfl, fun _ => rfl, fun _ => rfl⟩
  | ready input =>
      obtain ⟨⟨pc, eff'⟩, -, heq⟩ := Option.map_eq_some_iff.mp h
      cases heq
      exact ⟨fun _ => rfl, fun hne => absurd rfl (hne input), fun _ => rfl, fun _ => rfl⟩
  | contribution =>
      obtain ⟨⟨pc, eff'⟩, -, heq⟩ := Option.map_eq_some_iff.mp h
      cases heq
      exact ⟨fun _ => rfl, fun _ => rfl, fun hne => absurd rfl hne, fun _ => rfl⟩
  | tracking lag =>
      obtain ⟨⟨pc, eff'⟩, -, heq⟩ := Option.map_eq_some_iff.mp h
      cases heq
      exact ⟨fun _ => rfl, fun _ => rfl, fun _ => rfl, fun hne => absurd rfl (hne lag)⟩
  | mission | message =>
      obtain ⟨_, -, heq⟩ := Option.map_eq_some_iff.mp h
      cases heq
      exact .of_eq rfl rfl rfl rfl
  | receive k msg =>
      simp only [perform] at h
      split at h <;> (try split at h) <;> cases h <;> exact .of_eq rfl rfl rfl rfl
  | _ =>
      simp only [perform] at h
      (try split at h) <;> cases h <;> exact .of_eq rfl rfl rfl rfl

/-- The nonce counter is reset by the submission processor and advanced by the batches. -/
theorem perform_nonces (h : s.perform cfg e = some (s', eff)) (hscope : eff.scope = .nonces) :
    (∃ input, e = .submission input) ∧ eff = .resetNonce ∨
      ∃ input owner, e = .ready input ∧ eff = .takeNonce owner := by
  cases e with
  | submission input =>
      obtain ⟨⟨p, eff'⟩, hstep, heq⟩ := Option.map_eq_some_iff.mp h
      cases heq
      exact .inl ⟨⟨input, rfl⟩, (PoolSubmissionProcessor.step_moves hstep).resets.1 hscope⟩
  | ready input =>
      obtain ⟨⟨pc, eff'⟩, hstep, heq⟩ := Option.map_eq_some_iff.mp h
      cases heq
      obtain ⟨owner, howner⟩ := ReadyPc.step_nonces hstep hscope
      exact .inr ⟨input, owner, rfl, howner⟩
  | _ =>
      have hmem := perform_scope h
      rw [hscope] at hmem
      simp [Event.scopes] at hmem

/-- The epoch hashes are reset by the submission processor and written by the
contributions processor. -/
theorem perform_hashes (h : s.perform cfg e = some (s', eff)) (hscope : eff.scope = .hashes) :
    (∃ input, e = .submission input) ∧ (∃ challenge, eff = .resetHashes challenge) ∨
      e = .contribution ∧ ∃ m nonceRange minerId, s.contributions = .write m nonceRange minerId ∧
        eff = .record m.pubkey (.of cfg.drillx minerId m.solution) m.solution := by
  cases e with
  | submission input =>
      obtain ⟨⟨p, eff'⟩, hstep, heq⟩ := Option.map_eq_some_iff.mp h
      cases heq
      exact .inl ⟨⟨input, rfl⟩, (PoolSubmissionProcessor.step_moves hstep).resets.2 hscope⟩
  | contribution =>
      obtain ⟨⟨pc, eff'⟩, hstep, heq⟩ := Option.map_eq_some_iff.mp h
      cases heq
      obtain ⟨m, nonceRange, minerId, hpc, -, heff⟩ := ContributionsPc.step_hashes hstep hscope
      exact .inr ⟨rfl, m, nonceRange, minerId, hpc, heff⟩
  | _ =>
      have hmem := perform_scope h
      rw [hscope] at hmem
      simp [Event.scopes] at hmem

/-- Missions are spawned by the batches and carried out by the spawned tasks. -/
theorem perform_missions (h : s.perform cfg e = some (s', eff))
    (hscope : eff.scope = .missions ∨ eff.scope = .ranges) :
    (∃ input, e = .ready input) ∨ ∃ k, e = .mission k := by
  cases e with
  | ready input => exact .inl ⟨input, rfl⟩
  | mission k => exact .inr ⟨k, rfl⟩
  | _ =>
      have hmem := perform_scope h
      obtain hscope | hscope := hscope <;> rw [hscope] at hmem <;>
        simp [Event.scopes, submissionScopes] at hmem

/-- Missions are spawned by the batches alone. -/
theorem perform_spawnMission {mission : Mission}
    (h : s.perform cfg e = some (s', .spawnMission mission)) : ∃ input, e = .ready input := by
  obtain hready | ⟨k, rfl⟩ := perform_missions h (.inl rfl)
  · exact hready
  · obtain ⟨eff, hstep, heq⟩ := Option.map_eq_some_iff.mp h
    cases heq
    obtain ⟨m, -, ⟨-, heff⟩ | ⟨-, heff⟩⟩ := missionStep_cases hstep <;> cases heff

/-- The shared proof is written by the submission processor and the tracking processor. -/
theorem perform_proof (h : s.perform cfg e = some (s', eff)) (hscope : eff.scope = .proof) :
    (∃ input, e = .submission input) ∨
      ∃ proof, e = .tracking none ∧ s.tracking = .store proof ∧ eff = .storeProof proof := by
  cases e with
  | submission input => exact .inl ⟨input, rfl⟩
  | tracking lag =>
      obtain ⟨⟨pc, eff'⟩, hstep, heq⟩ := Option.map_eq_some_iff.mp h
      cases heq
      simp only [TrackingPc.step] at hstep
      split at hstep
      case h_3 proof hpc =>
        cases hstep
        exact .inr ⟨proof, rfl, hpc, rfl⟩
      all_goals (try split at hstep) <;> cases hstep <;> cases hscope
  | _ =>
      have hmem := perform_scope h
      rw [hscope] at hmem
      simp [Event.scopes] at hmem

/-- The proof account changes by mining and by claims. -/
theorem perform_landings (h : s.perform cfg e = some (s', eff)) (hscope : eff.scope = .landings) :
    (∃ tx reward challenge time, e = .land tx reward challenge time ∧
      eff = .land tx reward challenge time) ∨
    ∃ amount, e = .claim amount ∧ eff = .claim amount := by
  cases e with
  | land tx reward challenge time =>
      simp only [perform] at h
      split at h
      · cases h
        exact .inl ⟨tx, reward, challenge, time, rfl, rfl⟩
      · cases h
  | claim amount =>
      simp only [perform] at h
      split at h
      · cases h
        exact .inr ⟨amount, rfl, rfl⟩
      · cases h
  | _ =>
      have hmem := perform_scope h
      rw [hscope] at hmem
      simp [Event.scopes, submissionScopes] at hmem

/-- Sockets are only entered by an accepted handshake. -/
theorem perform_sockets (h : s.perform cfg e = some (s', eff)) (hscope : eff.scope = .sockets) :
    (∃ addr, eff = .removeSocket addr) ∨
      ∃ addr pubkey minerId, e = .connect addr pubkey minerId ∧
        eff = .insertSocket addr ⟨pubkey, minerId, s.accepted⟩ := by
  cases e with
  | connect addr pubkey minerId =>
      simp only [perform] at h
      split at h
      · cases h
        cases hscope
      · cases h
        exact .inr ⟨addr, pubkey, minerId, rfl, rfl⟩
  | ping failed =>
      cases h
      exact .inl (PingPc.step_sockets hscope)
  | pong =>
      cases h
      exact .inl (PongPc.step_sockets hscope)
  | disconnect k =>
      simp only [perform] at h
      split at h
      · cases h
        exact .inl ⟨_, rfl⟩
      · cases h
  | _ =>
      have hmem := perform_scope h
      rw [hscope] at hmem
      simp [Event.scopes, submissionScopes] at hmem

/-- The contributions processor moves by its own steps, which see the state before. -/
theorem perform_contributions (h : s.perform cfg e = some (s', eff)) :
    s'.contributions = s.contributions ∨
      e = .contribution ∧ s.contributions.step cfg s.shared = some (s'.contributions, eff) := by
  by_cases hcontribution : e = .contribution
  · subst hcontribution
    obtain ⟨⟨pc, eff'⟩, hstep, heq⟩ := Option.map_eq_some_iff.mp h
    cases heq
    exact .inr ⟨rfl, hstep⟩
  · exact .inl ((perform_frame h).contributions hcontribution)

/-- The ready processor moves by its own steps. -/
theorem perform_ready (h : s.perform cfg e = some (s', eff)) :
    s'.ready = s.ready ∨
      ∃ input, e = .ready input ∧ s.ready.Moves cfg s.shared s'.ready eff := by
  by_cases hready : ∃ input, e = .ready input
  · obtain ⟨input, rfl⟩ := hready
    obtain ⟨⟨pc, eff'⟩, hstep, heq⟩ := Option.map_eq_some_iff.mp h
    cases heq
    exact .inr ⟨input, rfl, ReadyPc.step_moves hstep⟩
  · exact .inl ((perform_frame h).ready (by simpa using hready))

/-- The submission processor moves by its own steps. -/
theorem perform_submission (h : s.perform cfg e = some (s', eff)) :
    (∀ input, e ≠ .submission input) ∧ s'.submission = s.submission ∨
      ∃ input, e = .submission input ∧
        s.submission.Moves cfg s.shared s'.submission eff := by
  by_cases hsubmission : ∃ input, e = .submission input
  · obtain ⟨input, rfl⟩ := hsubmission
    obtain ⟨⟨p, eff'⟩, hstep, heq⟩ := Option.map_eq_some_iff.mp h
    cases heq
    exact .inr ⟨input, rfl, PoolSubmissionProcessor.step_moves hstep⟩
  · have hne : ∀ input, e ≠ .submission input := by simpa using hsubmission
    exact .inl ⟨hne, (perform_frame h).submission hne⟩

end State

/-! ## A small scenario

One client, one solution. The concrete runs of the following modules start like this. -/

namespace Scenario

/-- Every solution has difficulty 10 and is valid for the challenge `7, 7, …` only. -/
def config : Config where
  drillx := ⟨fun _ => 10, fun _ challenge => challenge = .fill 32 7⟩
  sdk := ⟨Unit, fun _ => some (), fun _ _ _ => true⟩
  bufferTime := 0
  riskTime := 0
  minDifficulty := 8

def proof : Proof := ⟨.fill 32 7, 1_000_000_000, 0⟩

def solution : Solution := ⟨.fill 16 0, .fill 8 0⟩

/-- A solution with the first nonce of the second block. -/
def solution' : Solution := ⟨.fill 16 0, ⟨[0x00, 0x5a, 0x62, 0x02, 0, 0, 0, 0], rfl⟩⟩

/-- The wire form of a solution. No text follows the key. -/
def solutionBytes (solution : Solution) (pubkey : Pubkey) : List UInt8 :=
  2 :: (solution.d.val ++ (solution.n.val ++ pubkey.val))

/-- The `k`-th connection is opened at the address `k` and says that it is ready. -/
def join (k : Nat) (pubkey : Pubkey) (minerId : Int) : List Event :=
  [.connect k pubkey minerId, .receive k (.binary [0]), .message, .message]

/-- A batch of missions, up to the delivery of each. -/
def batch (clients : List SocketAddr) : List Event :=
  [.ready (.collect clients), .ready .proceed, .ready .proceed, .ready (.clock 0)] ++
    List.replicate (3 * clients.length + 3) (.ready .proceed) ++
    clients.flatMap fun _ => [.mission 0, .mission 0]

/-- The `k`-th connection submits a solution that passes every check. -/
def submit (k : Nat) (solution : Solution) (pubkey : Pubkey) : List Event :=
  [.receive k (.binary (solutionBytes solution pubkey)), .message, .message] ++
    List.replicate 6 .contribution

/-- After the cutoff the solution is sent. -/
def send : List Event :=
  [.submission .proceed, .submission (.clock 100)] ++
    List.replicate 5 (.submission .proceed) ++
    [.submission (.rpcProof (some 0)), .submission .proceed]

/-- It fails, and the submission is cleaned up. -/
def fail : List Event :=
  [.submission (.outcome .hashInvalid), .submission (.rpcProof none)] ++
    List.replicate 3 (.submission .proceed)

/-- It lands with the reward. -/
def land (reward : Nat) : List Event := [.land ⟨0, 0, solution⟩ reward (.fill 32 8) 100]

/-- The events up to the landing. -/
def untilLanded (reward : Nat) : List Event :=
  join 0 (.fill 32 1) 1 ++ batch [0] ++ submit 0 solution (.fill 32 1) ++ send ++ land reward

/-- Two clients submit, each over its own connection and from its own block. -/
def twoKeys : List Event :=
  join 0 (.fill 32 1) 1 ++ join 1 (.fill 32 2) 2 ++ batch [0, 1] ++
    submit 0 solution (.fill 32 1) ++ submit 1 solution' (.fill 32 2)

/-- The confirmation is returned, and the landed-tx task finds the new proof by RPC. -/
def report : List Event :=
  [.submission (.outcome .ok), .submission .proceed, .submission (.rpcProof (some 0)),
    .submission .proceed, .submission .proceed, .submission (.challengeId 1),
    .submission .proceed]

end Scenario

end Hashpoo.Mining
