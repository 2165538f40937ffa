import Hashpoo.Admission.Enrolment
import Hashpoo.Ledger.DbChallenge

/-!
# Starts and restarts

Before `main` serves anything it makes sure that the pool, the receiver of the commissions
and the challenge of the loaded proof are in the database, with up to eight calls. Every
call may fail, the process may be killed at any time, and the next start finds the tables
as the last one, and the handshakes it served, have left them.

The ids that a start reads never change, so all starts mine for the same pool and the same
receiver, and nothing can keep a start from succeeding whose calls are all answered.
-/

namespace Hashpoo

open Foundation

namespace Registry

/-- No miner and no pool has gone away or changed its id. -/
structure Extends (reg reg' : Registry) : Prop where
  miners : ∀ pubkey id, reg.db.miners.lookup pubkey = some id →
    reg'.db.miners.lookup pubkey = some id
  pools : ∀ authority pool, reg.db.pools.lookup authority = some pool →
    reg'.db.pools.lookup authority = some pool

/-- An accounting task or a claim changes the balance of a miner. -/
def addToRewards (reg : Registry) (minerId delta : Int) : Registry :=
  { reg with db := reg.db.addToRewards minerId delta }

variable {reg reg' reg'' : Registry} {pubkey authority : Pubkey}

theorem Extends.refl (reg : Registry) : Extends reg reg := ⟨fun _ _ => id, fun _ _ => id⟩

theorem Extends.trans (h : Extends reg reg') (h' : Extends reg' reg'') : Extends reg reg'' where
  miners pubkey id hid := h'.miners pubkey id (h.miners pubkey id hid)
  pools authority pool hpool := h'.pools authority pool (h.pools authority pool hpool)

theorem extends_insertMiner (hnone : reg.db.miners.lookup pubkey = none) (isEnabled : Bool) :
    Extends reg (reg.insertMiner pubkey isEnabled) where
  miners _ _ := lookup_insertMiner hnone isEnabled
  pools _ _ := id

theorem extends_insertReward (reward : InsertReward) : Extends reg (reg.insertReward reward) :=
  ⟨fun _ _ => id, fun _ _ => id⟩

theorem extends_setEnabled (pubkey : Pubkey) (enabled : Bool) :
    Extends reg (reg.setEnabled pubkey enabled) := ⟨fun _ _ => id, fun _ _ => id⟩

theorem extends_addToRewards (minerId delta : Int) :
    Extends reg (reg.addToRewards minerId delta) := ⟨fun _ _ => id, fun _ _ => id⟩

theorem extends_addNewPool {result : Except DatabaseError Unit}
    (h : reg.addNewPool authority = (result, reg')) : Extends reg reg' := by
  rw [addNewPool] at h
  split at h
  · cases h
    exact .refl reg
  · next hnone =>
    cases h
    refine ⟨fun _ _ => id, fun other pool hpool => ?_⟩
    rw [HashMap.lookup_insert_eq_some]
    refine .inr ⟨?_, hpool⟩
    rintro rfl
    rw [hnone] at hpool
    cases hpool

theorem extends_signupEnrollment {result : Except DatabaseError Unit}
    (h : reg.signupEnrollment pubkey authority = .ok (result, reg')) : Extends reg reg' := by
  obtain rfl | ⟨hnone, poolId, rfl⟩ := signupEnrollment_cases h
  · exact .refl reg'
  · exact (extends_insertMiner hnone true).trans (extends_insertReward _)

end Registry

/-- A call of a handshake keeps all ids. -/
theorem Admission.Calls.extends {cfg : Admission.Config} {reg reg' : Registry}
    {userPubkey : Pubkey} {pc : Admission.HandshakePc} {attempt : Admission.Attempt}
    {out : Admission.Outcome} (h : Admission.Calls cfg reg userPubkey pc attempt out reg') :
    reg.Extends reg' := by
  cases h with
  | inserted hnone => exact Registry.extends_insertMiner hnone true
  | poolInserted added miner reg' hadd => exact Registry.extends_addNewPool hadd
  | rewarded miner pool => exact Registry.extends_insertReward _
  | _ => exact .refl _

/-- Whatever the server does while it is up keeps all ids. -/
theorem Admission.State.Steps.extends {cfg : Admission.Config} {s t : Admission.State}
    {e : Admission.Event} (h : s.Steps cfg e t) : s.registry.Extends t.registry := by
  cases h with
  | next k attempt h pc reg hk hcalls => exact hcalls.extends
  | enrolled k attempt pubkey poolId hnone =>
      exact (Registry.extends_insertMiner hnone true).trans (Registry.extends_insertReward _)
  | setEnabled pubkey enabled => exact Registry.extends_setEnabled pubkey enabled
  | _ => exact .refl _

/-- The transaction enrols a new miner when the pool is there. -/
theorem Registry.signupEnrollment_eq {reg : Registry} (pubkey : Pubkey) {authority : Pubkey}
    {pool : Pool} (hminer : reg.db.miners.lookup pubkey = none)
    (hpool : reg.db.pools.lookup authority = some pool) :
    reg.signupEnrollment pubkey authority =
      .ok (.ok (), (reg.insertMiner pubkey true).insertReward ⟨reg.nextMiner, pool.id⟩) := by
  have hread : (reg.insertMiner pubkey true).getMinerByPubkeyStr pubkey =
      .ok ⟨reg.nextMiner, (reg.insertMiner pubkey true).isEnabled pubkey⟩ :=
    getMinerByPubkeyStr_eq.mpr ⟨by simp, rfl⟩
  have hread' : (reg.insertMiner pubkey true).db.getPoolByAuthorityPubkey authority = .ok pool :=
    Database.getPoolByAuthorityPubkey_eq.mpr hpool
  simp only [signupEnrollment, addNewMiner, hminer, hread, hread', addNewReward]

/-- A missing pool is inserted. -/
theorem Registry.addNewPool_eq_ok {reg : Registry} {authority : Pubkey}
    (hpool : reg.db.pools.lookup authority = none) :
    ∃ reg', reg.addNewPool authority = (.ok (), reg') ∧
      reg'.db.pools.lookup authority = some ⟨reg.nextPool, 0⟩ := by
  simp only [addNewPool, hpool]
  exact ⟨_, rfl, by simp⟩

theorem ChallengeTable.getChallengeByChallenge_error {table : ChallengeTable}
    {challenge : List UInt8} {err : DatabaseError}
    (h : table.getChallengeByChallenge .postgres challenge = .error err) :
    err = .queryFailed := by
  simp only [getChallengeByChallenge, queryOne] at h
  split at h
  · cases h
  · exact (Except.error.inj h).symm

namespace Startup

open Admission (Attempt)

/-! ## `main` -/

structure Config where
  admission : Admission.Config
  commissionPubkey : Pubkey

/-- The next thing that `main` does. -/
inductive Pc where
  | getPool
  | addPool
  | getCommissions
  | signup
  | getNewCommissions
  /-- The pool is read again for its id. -/
  | getMiningPool (commissionMinerId : Int)
  | getChallenge (mineConfig : MineConfig)
  | addChallenge (mineConfig : MineConfig)
  /-- The server is up. -/
  | ready (mineConfig : MineConfig)
  /-- The process has panicked, or there is none yet. -/
  | down
  deriving DecidableEq

/-- The tables that a start reads and writes. -/
structure Store where
  registry : Registry
  challenges : ChallengeTable

/-- `new_challenge`. -/
def newChallenge (mineConfig : MineConfig) (proof : Proof) : InsertChallenge :=
  ⟨mineConfig.poolId, proof.challenge.val, none⟩

section Main

variable (cfg : Config) (proof : Proof) (store : Store) (attempt : Attempt)

def getPool : Pc × Store :=
  match attempt.query
      (store.registry.db.getPoolByAuthorityPubkey cfg.admission.walletPubkey) with
  | .ok (.ok _) => (.getCommissions, store)
  | .ok (.error .failedToGetConnectionFromPool) => (.down, store)
  | .ok (.error _) => (.addPool, store)
  | .error _ => (.down, store)

def addPool : Pc × Store :=
  match attempt.update store.registry
      (store.registry.addNewPool cfg.admission.walletPubkey) with
  | .ok (.ok _, reg) => (.getCommissions, { store with registry := reg })
  | .ok (.error _, reg) => (.down, { store with registry := reg })
  | .error _ => (.down, store)

def getCommissions : Pc × Store :=
  match attempt.query (store.registry.getMinerByPubkeyStr cfg.commissionPubkey) with
  | .ok (.ok miner) => (.getMiningPool miner.id, store)
  | .ok (.error _) => (.signup, store)
  | .error _ => (.down, store)

def signup : Pc × Store :=
  match attempt with
  | .answered =>
      match store.registry.signupEnrollment cfg.commissionPubkey cfg.admission.walletPubkey with
      | .ok (.ok _, reg) => (.getNewCommissions, { store with registry := reg })
      | .ok (.error _, reg) => (.down, { store with registry := reg })
      | .error _ => (.down, store)
  | .failed _ | .unwrapped => (.down, store)

def getNewCommissions : Pc × Store :=
  match attempt.query (store.registry.getMinerByPubkeyStr cfg.commissionPubkey) with
  | .ok (.ok m) => (.getMiningPool m.id, store)
  | .ok (.error _) | .error _ => (.down, store)

def getMiningPool (commissionMinerId : Int) : Pc × Store :=
  match attempt.query
      (store.registry.db.getPoolByAuthorityPubkey cfg.admission.walletPubkey) with
  | .ok (.ok miningPool) => (.getChallenge ⟨miningPool.id, commissionMinerId⟩, store)
  | .ok (.error _) | .error _ => (.down, store)

def getChallenge (mineConfig : MineConfig) : Pc × Store :=
  match attempt.query
      (store.challenges.getChallengeByChallenge .postgres proof.challenge.val) with
  | .ok (.ok _) => (.ready mineConfig, store)
  | .ok (.error .failedToGetConnectionFromPool) => (.down, store)
  | .ok (.error _) => (.addChallenge mineConfig, store)
  | .error _ => (.down, store)

def addChallenge (mineConfig : MineConfig) : Pc × Store :=
  match attempt.query (store.challenges.addNewChallenge (newChallenge mineConfig proof)).1 with
  | .ok (.ok _) => (.ready mineConfig, { store with
      challenges := (store.challenges.addNewChallenge (newChallenge mineConfig proof)).2 })
  | .ok (.error _) | .error _ => (.down, store)

/-- One database call of `main`. -/
def call : Pc → Pc × Store
  | .getPool => getPool cfg store attempt
  | .addPool => addPool cfg store attempt
  | .getCommissions => getCommissions cfg store attempt
  | .signup => signup cfg store attempt
  | .getNewCommissions => getNewCommissions cfg store attempt
  | .getMiningPool commissionMinerId => getMiningPool cfg store attempt commissionMinerId
  | .getChallenge mineConfig => getChallenge proof store attempt mineConfig
  | .addChallenge mineConfig => addChallenge proof store attempt mineConfig
  | .ready mineConfig => (.ready mineConfig, store)
  | .down => (.down, store)

end Main

/-- The calls by what they change. -/
inductive Calls (cfg : Config) (proof : Proof) (store : Store) : Pc → Attempt → Pc → Store → Prop
  | poolFound : Calls cfg proof store .getPool .answered .getCommissions store
  | poolMissing (attempt : Attempt) : Calls cfg proof store .getPool attempt .addPool store
  | poolAdded (reg : Registry) :
      store.registry.addNewPool cfg.admission.walletPubkey = (.ok (), reg) →
      Calls cfg proof store .addPool .answered .getCommissions { store with registry := reg }
  | commissionsMissing (attempt : Attempt) :
      Calls cfg proof store .getCommissions attempt .signup store
  | enrolled (reg : Registry) :
      store.registry.signupEnrollment cfg.commissionPubkey cfg.admission.walletPubkey =
        .ok (.ok (), reg) →
      Calls cfg proof store .signup .answered .getNewCommissions { store with registry := reg }
  | commissions (pc : Pc) (miner : Miner) : pc = .getCommissions ∨ pc = .getNewCommissions →
      store.registry.getMinerByPubkeyStr cfg.commissionPubkey = .ok miner →
      Calls cfg proof store pc .answered (.getMiningPool miner.id) store
  | miningPool (commissionMinerId : Int) (pool : Pool) :
      store.registry.db.pools.lookup cfg.admission.walletPubkey = some pool →
      Calls cfg proof store (.getMiningPool commissionMinerId) .answered
        (.getChallenge ⟨pool.id, commissionMinerId⟩) store
  | challengeFound (mineConfig : MineConfig) (row : ChallengeRecord) :
      store.challenges.getChallengeByChallenge .postgres proof.challenge.val = .ok row →
      Calls cfg proof store (.getChallenge mineConfig) .answered (.ready mineConfig) store
  | challengeMissing (mineConfig : MineConfig) (attempt : Attempt) :
      (attempt = .answered → ∃ err,
        store.challenges.getChallengeByChallenge .postgres proof.challenge.val = .error err) →
      Calls cfg proof store (.getChallenge mineConfig) attempt (.addChallenge mineConfig) store
  | challengeAdded (mineConfig : MineConfig) :
      Calls cfg proof store (.addChallenge mineConfig) .answered (.ready mineConfig)
        { store with challenges := store.challenges.insert (newChallenge mineConfig proof) }
  | panicked (pc : Pc) (attempt : Attempt) : Calls cfg proof store pc attempt .down store
  | ready (mineConfig : MineConfig) (attempt : Attempt) :
      Calls cfg proof store (.ready mineConfig) attempt (.ready mineConfig) store

section Calls

variable {cfg : Config} {proof : Proof} {store store' : Store} {attempt : Attempt} {pc pc' : Pc}

theorem calls_getPool (h : getPool cfg store attempt = (pc', store')) :
    Calls cfg proof store .getPool attempt pc' store' := by
  simp only [getPool] at h
  split at h
  · next pool hquery =>
    cases h
    obtain ⟨rfl, -⟩ := Attempt.query_eq_ok hquery
    exact .poolFound
  · cases h
    exact .panicked _ _
  · cases h
    exact .poolMissing attempt
  · cases h
    exact .panicked _ _

theorem calls_addPool (h : addPool cfg store attempt = (pc', store')) :
    Calls cfg proof store .addPool attempt pc' store' := by
  simp only [addPool] at h
  split at h
  · next reg hupdate =>
    cases h
    obtain ⟨rfl, hadd⟩ := Attempt.update_eq_ok hupdate
    exact .poolAdded reg hadd
  · next err reg hupdate =>
    cases h
    obtain ⟨-, hadd⟩ | ⟨-, rfl⟩ := Attempt.update_eq_error hupdate
    · rw [(Registry.addNewPool_eq_error hadd).2]
      exact .panicked _ _
    · exact .panicked _ _
  · cases h
    exact .panicked _ _

theorem calls_getCommissions (h : getCommissions cfg store attempt = (pc', store')) :
    Calls cfg proof store .getCommissions attempt pc' store' := by
  simp only [getCommissions] at h
  split at h
  · next miner hquery =>
    cases h
    obtain ⟨rfl, hminer⟩ := Attempt.query_eq_ok hquery
    exact .commissions _ miner (.inl rfl) hminer
  · cases h
    exact .commissionsMissing attempt
  · cases h
    exact .panicked _ _

theorem calls_signup (h : signup cfg store attempt = (pc', store')) :
    Calls cfg proof store .signup attempt pc' store' := by
  simp only [signup] at h
  split at h
  · split at h
    · next reg henroll =>
      cases h
      exact .enrolled reg henroll
    · next err reg henroll =>
      cases h
      rw [Registry.signupEnrollment_error henroll]
      exact .panicked _ _
    · cases h
      exact .panicked _ _
  · cases h
    exact .panicked _ _
  · cases h
    exact .panicked _ _

theorem calls_getNewCommissions
    (h : getNewCommissions cfg store attempt = (pc', store')) :
    Calls cfg proof store .getNewCommissions attempt pc' store' := by
  simp only [getNewCommissions] at h
  split at h
  · next miner hquery =>
    cases h
    obtain ⟨rfl, hminer⟩ := Attempt.query_eq_ok hquery
    exact .commissions _ miner (.inr rfl) hminer
  · cases h
    exact .panicked _ _
  · cases h
    exact .panicked _ _

theorem calls_getMiningPool {commissionMinerId : Int}
    (h : getMiningPool cfg store attempt commissionMinerId = (pc', store')) :
    Calls cfg proof store (.getMiningPool commissionMinerId) attempt pc' store' := by
  simp only [getMiningPool] at h
  split at h
  · next pool hquery =>
    cases h
    obtain ⟨rfl, hpool⟩ := Attempt.query_eq_ok hquery
    exact .miningPool _ pool (Database.getPoolByAuthorityPubkey_eq.mp hpool)
  · cases h
    exact .panicked _ _
  · cases h
    exact .panicked _ _

theorem calls_getChallenge {mineConfig : MineConfig}
    (h : getChallenge proof store attempt mineConfig = (pc', store')) :
    Calls cfg proof store (.getChallenge mineConfig) attempt pc' store' := by
  simp only [getChallenge] at h
  split at h
  · next row hquery =>
    cases h
    obtain ⟨rfl, hrow⟩ := Attempt.query_eq_ok hquery
    exact .challengeFound _ row hrow
  · cases h
    exact .panicked _ _
  · next err _ hquery =>
    cases h
    refine .challengeMissing _ attempt ?_
    rintro rfl
    exact ⟨err, Except.ok.inj hquery⟩
  · cases h
    exact .panicked _ _

theorem calls_addChallenge {mineConfig : MineConfig}
    (h : addChallenge proof store attempt mineConfig = (pc', store')) :
    Calls cfg proof store (.addChallenge mineConfig) attempt pc' store' := by
  simp only [addChallenge] at h
  split at h
  · next hquery =>
    cases h
    obtain ⟨rfl, -⟩ := Attempt.query_eq_ok hquery
    exact .challengeAdded _
  · cases h
    exact .panicked _ _
  · cases h
    exact .panicked _ _

theorem calls_of_eq (h : call cfg proof store attempt pc = (pc', store')) :
    Calls cfg proof store pc attempt pc' store' := by
  cases pc with
  | getPool => exact calls_getPool h
  | addPool => exact calls_addPool h
  | getCommissions => exact calls_getCommissions h
  | signup => exact calls_signup h
  | getNewCommissions => exact calls_getNewCommissions h
  | getMiningPool commissionMinerId => exact calls_getMiningPool h
  | getChallenge mineConfig => exact calls_getChallenge h
  | addChallenge mineConfig => exact calls_addChallenge h
  | ready mineConfig =>
      cases h
      exact .ready _ _
  | down =>
      cases h
      exact .panicked _ _

/-- A start keeps all ids. -/
theorem Calls.extends (h : Calls cfg proof store pc attempt pc' store') :
    store.registry.Extends store'.registry := by
  cases h with
  | poolAdded reg hadd => exact Registry.extends_addNewPool hadd
  | enrolled reg henroll => exact Registry.extends_signupEnrollment henroll
  | _ => exact .refl _

end Calls

/-! ## The life of a server -/

inductive Event where
  /-- A process starts and loads the proof, whatever the last one was doing. -/
  | start (proof : Proof)
  /-- A database call of `main`. -/
  | call (attempt : Attempt)
  /-- A step of the handshakes and signups. -/
  | admission (e : Admission.Event)
  /-- A landed-tx task inserts a challenge. -/
  | addChallenge (challenge : InsertChallenge)
  /-- An accounting task or a claim changes a balance. -/
  | addToRewards (minerId delta : Int)
  deriving DecidableEq

structure State where
  server : Admission.State
  challenges : ChallengeTable
  proof : Proof
  pc : Pc
  /-- The settings of all starts that have got ready. The program does not keep them. -/
  mineConfigs : List MineConfig

/-- `mine_config` without a database. -/
def noDbms : MineConfig := ⟨2 ^ 31 - 1, Admission.defaultMinerId⟩

/-- The settings that a start has chosen. -/
def Pc.mineConfig : Pc → Option MineConfig
  | .getChallenge mineConfig | .addChallenge mineConfig | .ready mineConfig => some mineConfig
  | .getPool | .addPool | .getCommissions | .signup | .getNewCommissions | .getMiningPool _
  | .down => none

/-- The settings of a server that is up. -/
def Pc.serving : Pc → Option MineConfig
  | .ready mineConfig => some mineConfig
  | .getPool | .addPool | .getCommissions | .signup | .getNewCommissions | .getMiningPool _
  | .getChallenge _ | .addChallenge _ | .down => none

theorem Pc.serving_eq_some {pc : Pc} {mineConfig : MineConfig} :
    pc.serving = some mineConfig ↔ pc = .ready mineConfig := by
  cases pc <;> simp [serving]

namespace State

/-- The tables before the first start. -/
def init (registry : Registry) (challenges : ChallengeTable) : State where
  server := .start registry
  challenges := challenges
  proof := ⟨.fill 32 0, 0, 0⟩
  pc := .down
  mineConfigs := []

variable (cfg : Config) (s : State)

def store : Store := ⟨s.server.registry, s.challenges⟩

def goto (pc : Pc) (store : Store) : State where
  server := { s.server with registry := store.registry }
  challenges := store.challenges
  proof := s.proof
  pc := pc
  mineConfigs := pc.serving.toList ++ s.mineConfigs

/-- The new process knows nothing of the connections of the old one. -/
def restart (proof : Proof) : State :=
  State.goto
    { s with
      server := { Admission.State.start s.server.registry with accepted := s.server.accepted }
      proof := proof }
    (if cfg.admission.poweredByDbms then .getPool else .ready noDbms) s.store

def step : Event → Option State
  | .start proof => some (s.restart cfg proof)
  | .call attempt =>
      match s.pc with
      | .ready _ | .down => none
      | pc => some (s.goto (call cfg s.proof s.store attempt pc).1
          (call cfg s.proof s.store attempt pc).2)
  | .admission e =>
      match s.pc.serving, s.server.step cfg.admission e with
      | some _, some server => some { s with server := server }
      | _, _ => none
  | .addChallenge challenge =>
      match s.pc.serving with
      | some _ => some { s with challenges := s.challenges.insert challenge }
      | none => none
  | .addToRewards minerId delta =>
      match s.pc.serving with
      | some _ => some { s with
          server := { s.server with registry := s.server.registry.addToRewards minerId delta } }
      | none => none

/-- The steps by what they change. -/
inductive Steps : Event → State → Prop
  | start (proof : Proof) : Steps (.start proof) (s.restart cfg proof)
  | call (attempt : Attempt) (pc : Pc) (store : Store) : s.pc.serving = none →
      Calls cfg s.proof s.store s.pc attempt pc store → Steps (.call attempt) (s.goto pc store)
  | admission (e : Admission.Event) (server : Admission.State) : s.pc.serving ≠ none →
      s.server.Steps cfg.admission e server → Steps (.admission e) { s with server := server }
  | addChallenge (challenge : InsertChallenge) : s.pc.serving ≠ none →
      Steps (.addChallenge challenge) { s with challenges := s.challenges.insert challenge }
  | addToRewards (minerId delta : Int) : s.pc.serving ≠ none →
      Steps (.addToRewards minerId delta) { s with
        server := { s.server with registry := s.server.registry.addToRewards minerId delta } }

variable {cfg s} {t : State} {e : Event}

@[simp] theorem goto_pc (pc : Pc) (store : Store) : (s.goto pc store).pc = pc := rfl

theorem step_call {attempt : Attempt} (hready : s.pc.serving = none) (hdown : s.pc ≠ .down) :
    s.step cfg (.call attempt) = some (s.goto (Startup.call cfg s.proof s.store attempt s.pc).1
      (Startup.call cfg s.proof s.store attempt s.pc).2) := by
  rw [step]
  split
  · next hpc => simp [hpc, Pc.serving] at hready
  · next hpc => exact absurd hpc hdown
  · rfl

theorem step_steps (h : s.step cfg e = some t) : s.Steps cfg e t := by
  cases e with
  | start proof =>
      cases h
      exact .start proof
  | call attempt =>
      by_cases hdown : s.pc = .down
      · simp [step, hdown] at h
      · cases hready : s.pc.serving with
        | some mineConfig => simp [step, Pc.serving_eq_some.mp hready] at h
        | none =>
            rw [step_call hready hdown] at h
            cases h
            exact .call attempt _ _ hready (calls_of_eq rfl)
  | admission e =>
      rw [step] at h
      split at h
      · next hserving hstep =>
        cases h
        exact .admission e _ (by simp [hserving]) (Admission.State.step_steps hstep)
      · cases h
  | addChallenge challenge =>
      rw [step] at h
      split at h
      · next hserving =>
        cases h
        exact .addChallenge challenge (by simp [hserving])
      · cases h
  | addToRewards minerId delta =>
      rw [step] at h
      split at h
      · next hserving =>
        cases h
        exact .addToRewards minerId delta (by simp [hserving])
      · cases h

end State

/-! ## Settings -/

/-- The settings are those that the tables have for the pool and for the receiver of the
commissions. -/
structure Registered (cfg : Config) (reg : Registry) (mineConfig : MineConfig) : Prop where
  commissions : reg.db.miners.lookup cfg.commissionPubkey = some mineConfig.commissionsMinerId
  pool : ∃ pool, reg.db.pools.lookup cfg.admission.walletPubkey = some pool ∧
    pool.id = mineConfig.poolId

variable {cfg : Config} {s t : State} {e : Event}

theorem Registered.extends {reg reg' : Registry} {mineConfig : MineConfig}
    (h : Registered cfg reg mineConfig) (hextends : reg.Extends reg') :
    Registered cfg reg' mineConfig where
  commissions := hextends.miners _ _ h.commissions
  pool := by
    obtain ⟨pool, hpool, hid⟩ := h.pool
    exact ⟨pool, hextends.pools _ _ hpool, hid⟩

/-- There is only one pool of the wallet and one receiver. -/
theorem Registered.unique {reg : Registry} {mineConfig mineConfig' : MineConfig}
    (h : Registered cfg reg mineConfig) (h' : Registered cfg reg mineConfig') :
    mineConfig = mineConfig' := by
  obtain ⟨pool, hpool, hid⟩ := h.pool
  obtain ⟨pool', hpool', hid'⟩ := h'.pool
  cases hpool.symm.trans hpool'
  have hcommissions := Option.some.inj (h.commissions.symm.trans h'.commissions)
  calc
    mineConfig = ⟨mineConfig.poolId, mineConfig.commissionsMinerId⟩ := rfl
    _ = mineConfig' := by rw [← hid, hid', hcommissions]

/-- What holds of the settings in every life of a server with a database. -/
structure State.Stable (cfg : Config) (s : State) : Prop where
  commissions : ∀ id, s.pc = .getMiningPool id →
    s.server.registry.db.miners.lookup cfg.commissionPubkey = some id
  chosen : ∀ mineConfig, s.pc.mineConfig = some mineConfig →
    Registered cfg s.server.registry mineConfig
  used : ∀ mineConfig ∈ s.mineConfigs, Registered cfg s.server.registry mineConfig
  challenge : s.pc.serving ≠ none →
    ∃ row ∈ s.challenges.rows, row.challenge = s.proof.challenge.val

theorem State.Steps.extends (h : s.Steps cfg e t) :
    s.server.registry.Extends t.server.registry := by
  cases h with
  | start proof => exact .refl _
  | call attempt pc store hready hcalls => exact hcalls.extends
  | admission e server hserving hsteps => exact hsteps.extends
  | addChallenge challenge hserving => exact .refl _
  | addToRewards minerId delta hserving => exact Registry.extends_addToRewards minerId delta

namespace State.Stable

theorem init (registry : Registry) (challenges : ChallengeTable) :
    (State.init registry challenges).Stable cfg :=
  ⟨nofun, nofun, nofun, fun hserving => absurd rfl hserving⟩

theorem mineConfig_of_serving {pc : Pc} {mineConfig : MineConfig}
    (h : pc.serving = some mineConfig) : pc.mineConfig = some mineConfig := by
  rw [Pc.serving_eq_some.mp h]
  rfl

/-- A server that is up keeps its settings. -/
theorem up (hs : s.Stable cfg) (hpc : t.pc = s.pc) (hproof : t.proof = s.proof)
    (hconfigs : t.mineConfigs = s.mineConfigs)
    (hextends : s.server.registry.Extends t.server.registry)
    (hchallenges : s.challenges.rows ⊆ t.challenges.rows) : t.Stable cfg where
  commissions id hid := hextends.miners _ _ (hs.commissions id (by rwa [← hpc]))
  chosen mineConfig h := (hs.chosen mineConfig (by rwa [← hpc])).extends hextends
  used mineConfig h := (hs.used mineConfig (by rwa [← hconfigs])).extends hextends
  challenge h := by
    rw [hpc] at h
    obtain ⟨row, hrow, hchallenge⟩ := hs.challenge h
    exact ⟨row, hchallenges hrow, by rw [hproof, hchallenge]⟩

/-- The settings of a start that goes on. -/
theorem goto (hs : s.Stable cfg) {pc : Pc} {store : Store}
    (hextends : s.server.registry.Extends store.registry)
    (hcommissions : ∀ id, pc = .getMiningPool id →
      store.registry.db.miners.lookup cfg.commissionPubkey = some id)
    (hchosen : ∀ mineConfig, pc.mineConfig = some mineConfig →
      Registered cfg store.registry mineConfig)
    (hchallenge : pc.serving ≠ none →
      ∃ row ∈ store.challenges.rows, row.challenge = s.proof.challenge.val) :
    (s.goto pc store).Stable cfg where
  commissions := hcommissions
  chosen := hchosen
  used mineConfig h := by
    obtain hnew | hold := List.mem_append.mp h
    · exact hchosen mineConfig (mineConfig_of_serving (Option.mem_toList.mp hnew))
    · exact (hs.used mineConfig hold).extends hextends
  challenge := hchallenge

theorem call (hs : s.Stable cfg) {attempt : Attempt} {pc : Pc} {store : Store}
    (hready : s.pc.serving = none) (h : Calls cfg s.proof s.store s.pc attempt pc store) :
    (s.goto pc store).Stable cfg := by
  have hextends : s.server.registry.Extends store.registry := h.extends
  generalize hpc : s.pc = pc₀ at h
  cases h with
  | poolFound | poolMissing | poolAdded | commissionsMissing | enrolled | panicked =>
      exact hs.goto hextends nofun nofun fun h => absurd rfl h
  | commissions _ miner _ hminer =>
      refine hs.goto hextends (fun id hid => ?_) nofun fun h => absurd rfl h
      cases hid
      exact (Registry.getMinerByPubkeyStr_eq.mp hminer).1
  | miningPool commissionMinerId pool hpool =>
      refine hs.goto hextends nofun (fun mineConfig h => ?_) fun h => absurd rfl h
      cases h
      exact ⟨hs.commissions _ hpc, pool, hpool, rfl⟩
  | challengeFound mineConfig row hrow =>
      refine hs.goto hextends nofun (fun mineConfig' h => ?_) fun _ => ?_
      · cases h
        exact hs.chosen mineConfig (by rw [hpc]; rfl)
      · exact ⟨row, ChallengeTable.mem_of_getChallengeByChallenge hrow⟩
  | challengeMissing mineConfig attempt hmissing =>
      refine hs.goto hextends nofun (fun mineConfig' h => ?_) fun h => absurd rfl h
      cases h
      exact hs.chosen mineConfig (by rw [hpc]; rfl)
  | challengeAdded mineConfig =>
      refine hs.goto hextends nofun (fun mineConfig' h => ?_) fun _ => ?_
      · cases h
        exact hs.chosen mineConfig (by rw [hpc]; rfl)
      · exact ⟨_, List.mem_append_right _ (List.mem_singleton_self _), rfl⟩
  | ready mineConfig =>
      rw [hpc] at hready
      cases hready

theorem step (hdbms : cfg.admission.poweredByDbms = true) (hs : s.Stable cfg)
    (h : s.Steps cfg e t) : t.Stable cfg := by
  have hextends := h.extends
  cases h with
  | start proof =>
      rw [State.restart, if_pos hdbms]
      refine ⟨nofun, nofun, fun mineConfig hmem => hs.used mineConfig hmem, ?_⟩
      exact fun h => absurd rfl h
  | call attempt pc store hready hcalls => exact hs.call hready hcalls
  | admission e server hserving hsteps =>
      exact hs.up rfl rfl rfl hextends (List.Subset.refl _)
  | addChallenge challenge hserving =>
      exact hs.up rfl rfl rfl hextends (List.subset_append_left _ _)
  | addToRewards minerId delta hserving =>
      exact hs.up rfl rfl rfl hextends (List.Subset.refl _)

end State.Stable

/-! ## Recovery -/

/-- The server is up after at most `k` answered calls. -/
def State.Recovers (cfg : Config) (k : Nat) (s : State) : Prop :=
  ∃ n ≤ k, ∃ t, run (State.step cfg) s (List.replicate n (.call .answered)) = some t ∧
    t.pc.serving ≠ none ∧ t.proof = s.proof

namespace State.Recovers

variable {k : Nat}

theorem mono {k' : Nat} (h : s.Recovers cfg k) (hle : k ≤ k') : s.Recovers cfg k' := by
  obtain ⟨n, hn, t, hrun, hready⟩ := h
  exact ⟨n, hn.trans hle, t, hrun, hready⟩

theorem up (h : s.pc.serving ≠ none) : s.Recovers cfg 0 := ⟨0, le_rfl, s, rfl, h, rfl⟩

/-- An answered call leads to a state that recovers. -/
theorem call {pc pc' : Pc} {store : Store} (hpc : s.pc = pc) (hready : pc.serving = none)
    (hdown : pc ≠ .down) (hcall : Startup.call cfg s.proof s.store .answered pc = (pc', store))
    (h : (s.goto pc' store).Recovers cfg k) : s.Recovers cfg (k + 1) := by
  subst hpc
  obtain ⟨n, hn, t, hrun, hserving⟩ := h
  refine ⟨n + 1, Nat.succ_le_succ hn, t, ?_, hserving⟩
  rw [List.replicate_succ, run, step_call hready hdown, hcall]
  exact hrun

theorem addChallenge {mineConfig : MineConfig} (hpc : s.pc = .addChallenge mineConfig) :
    s.Recovers cfg 1 :=
  call hpc rfl (by simp) rfl (up (by simp [Pc.serving]))

theorem getChallenge {mineConfig : MineConfig} (hpc : s.pc = .getChallenge mineConfig) :
    s.Recovers cfg 2 := by
  cases hrow : s.challenges.getChallengeByChallenge .postgres s.proof.challenge.val with
  | ok row =>
      have hcall : Startup.getChallenge s.proof s.store .answered mineConfig =
          (.ready mineConfig, s.store) := by
        simp only [Startup.getChallenge, State.store, Attempt.query, hrow]
      exact mono (call hpc rfl (by simp) hcall (up (by simp [Pc.serving]))) (Nat.le_succ 1)
  | error err =>
      cases ChallengeTable.getChallengeByChallenge_error hrow
      have hcall : Startup.getChallenge s.proof s.store .answered mineConfig =
          (.addChallenge mineConfig, s.store) := by
        simp only [Startup.getChallenge, State.store, Attempt.query, hrow]
      exact call hpc rfl (by simp) hcall (addChallenge rfl)

theorem getMiningPool {commissionMinerId : Int} {pool : Pool}
    (hpc : s.pc = .getMiningPool commissionMinerId)
    (hpool : s.server.registry.db.pools.lookup cfg.admission.walletPubkey = some pool) :
    s.Recovers cfg 3 := by
  have hcall : Startup.getMiningPool cfg s.store .answered commissionMinerId =
      (.getChallenge ⟨pool.id, commissionMinerId⟩, s.store) := by
    simp only [Startup.getMiningPool, State.store, Attempt.query,
      Database.getPoolByAuthorityPubkey_eq.mpr hpool]
  exact call hpc rfl (by simp) hcall (getChallenge rfl)

/-- The receiver of the commissions is found. -/
theorem commissions {pc : Pc} {id : Int} {pool : Pool} (hpc : s.pc = pc)
    (hreads : pc = .getCommissions ∨ pc = .getNewCommissions)
    (hminer : s.server.registry.db.miners.lookup cfg.commissionPubkey = some id)
    (hpool : s.server.registry.db.pools.lookup cfg.admission.walletPubkey = some pool) :
    s.Recovers cfg 4 := by
  have hread : s.server.registry.getMinerByPubkeyStr cfg.commissionPubkey =
      .ok ⟨id, s.server.registry.isEnabled cfg.commissionPubkey⟩ :=
    Registry.getMinerByPubkeyStr_eq.mpr ⟨hminer, rfl⟩
  obtain rfl | rfl := hreads
  · have hcall : Startup.getCommissions cfg s.store .answered = (.getMiningPool id, s.store) := by
      simp only [Startup.getCommissions, State.store, Attempt.query, hread]
    exact call hpc rfl (by simp) hcall (getMiningPool rfl hpool)
  · have hcall : Startup.getNewCommissions cfg s.store .answered =
        (.getMiningPool id, s.store) := by
      simp only [Startup.getNewCommissions, State.store, Attempt.query, hread]
    exact call hpc rfl (by simp) hcall (getMiningPool rfl hpool)

/-- The pool is there, and the receiver of the commissions is found or enrolled. -/
theorem getCommissions {pool : Pool} (hpc : s.pc = .getCommissions)
    (hpool : s.server.registry.db.pools.lookup cfg.admission.walletPubkey = some pool) :
    s.Recovers cfg 6 := by
  cases hminer : s.server.registry.db.miners.lookup cfg.commissionPubkey with
  | some id => exact mono (commissions hpc (.inl rfl) hminer hpool) (by decide)
  | none =>
      let reg := (s.server.registry.insertMiner cfg.commissionPubkey true).insertReward
        ⟨s.server.registry.nextMiner, pool.id⟩
      have hread : s.server.registry.getMinerByPubkeyStr cfg.commissionPubkey =
          .error .queryFailed := by
        simp [Registry.getMinerByPubkeyStr, Database.getMinerByPubkeyStr, queryOne, hminer]
      have hmissing : Startup.getCommissions cfg s.store .answered =
          (.signup, s.store) := by
        simp only [Startup.getCommissions, State.store, Attempt.query, hread]
      have henroll : Startup.signup cfg s.store .answered =
          (.getNewCommissions, ⟨reg, s.challenges⟩) := by
        simp only [Startup.signup, State.store,
          Registry.signupEnrollment_eq cfg.commissionPubkey hminer hpool]
        rfl
      have hfound : reg.db.miners.lookup cfg.commissionPubkey =
          some s.server.registry.nextMiner := by simp [reg]
      exact call hpc rfl (by simp) hmissing
        (call rfl rfl (by simp) henroll (commissions rfl (.inr rfl) hfound hpool))

/-- A start with answered calls. -/
theorem getPool (hpc : s.pc = .getPool) : s.Recovers cfg 8 := by
  cases hpool : s.server.registry.db.pools.lookup cfg.admission.walletPubkey with
  | some pool =>
      have hcall : Startup.getPool cfg s.store .answered =
          (.getCommissions, s.store) := by
        simp only [Startup.getPool, State.store, Attempt.query,
          Database.getPoolByAuthorityPubkey_eq.mpr hpool]
      exact mono (call hpc rfl (by simp) hcall (getCommissions rfl hpool)) (by decide)
  | none =>
      obtain ⟨reg, hadd, hfound⟩ := Registry.addNewPool_eq_ok hpool
      have hread : s.server.registry.db.getPoolByAuthorityPubkey cfg.admission.walletPubkey =
          .error .queryFailed := by
        simp [Database.getPoolByAuthorityPubkey, queryOne, hpool]
      have hmissing : Startup.getPool cfg s.store .answered =
          (.addPool, s.store) := by
        simp only [Startup.getPool, State.store, Attempt.query, hread]
      have hinsert : Startup.addPool cfg s.store .answered =
          (.getCommissions, ⟨reg, s.challenges⟩) := by
        simp only [Startup.addPool, State.store, Attempt.update, hadd]
      exact call hpc rfl (by simp) hmissing
        (call rfl rfl (by simp) hinsert (getCommissions rfl hfound))

end State.Recovers

/-- The settings of an earlier start stay those of the tables. -/
theorem State.extends_of_run {events : List Event} (hrun : run (State.step cfg) s events = some t) :
    s.server.registry.Extends t.server.registry :=
  invariant_of_step (I := fun t => s.server.registry.Extends t.server.registry)
    (fun _ _ _ h hstep => h.trans (State.step_steps hstep).extends) (.refl _) hrun

/-- Whatever has happened before, and however often the server has been started, a start
whose calls are all answered brings it up after at most eight of them, with the settings of
every start before. -/
theorem recovers_of_run (cfg : Config) (registry : Registry) (challenges : ChallengeTable)
    (events : List Event) (s : State) (proof : Proof)
    (hdbms : cfg.admission.poweredByDbms = true)
    (hrun : run (State.step cfg) (.init registry challenges) events = some s) :
    ∃ n ≤ 8, ∃ t mineConfig,
      run (State.step cfg) s (.start proof :: List.replicate n (.call .answered)) = some t ∧
        t.pc = .ready mineConfig ∧ Registered cfg t.server.registry mineConfig ∧
        (∃ row ∈ t.challenges.rows, row.challenge = proof.challenge.val) ∧
        ∀ mineConfig' ∈ s.mineConfigs, mineConfig' = mineConfig := by
  have hs : s.Stable cfg :=
    invariant_of_step (fun _ _ _ h hstep => h.step hdbms (State.step_steps hstep))
      (State.Stable.init registry challenges) hrun
  have hstart : s.step cfg (.start proof) = some (s.restart cfg proof) := rfl
  have hpc : (s.restart cfg proof).pc = .getPool := by rw [State.restart, if_pos hdbms]; rfl
  have hrecovers : (s.restart cfg proof).Recovers cfg 8 := .getPool hpc
  obtain ⟨n, hn, t, hcalls, hready, hproof⟩ := hrecovers
  have hagain : run (State.step cfg) s (.start proof :: List.replicate n (.call .answered)) =
      some t := by
    rw [run, hstart]
    exact hcalls
  have ht : t.Stable cfg :=
    invariant_of_step (fun _ _ _ h hstep => h.step hdbms (State.step_steps hstep)) hs hagain
  obtain ⟨mineConfig, hserving⟩ := Option.ne_none_iff_exists'.mp hready
  have hregistered : Registered cfg t.server.registry mineConfig :=
    ht.chosen mineConfig (State.Stable.mineConfig_of_serving hserving)
  refine ⟨n, hn, t, mineConfig, hagain, Pc.serving_eq_some.mp hserving, hregistered, ?_, ?_⟩
  · obtain ⟨row, hrow, hchallenge⟩ := ht.challenge hready
    exact ⟨row, hrow, by rw [hchallenge, hproof]; rfl⟩
  · intro mineConfig' hused
    have hextends := State.extends_of_run hagain
    exact ((hs.used mineConfig' hused).extends hextends).unique hregistered

/-! ## A first start -/

namespace Scenario

def config : Config := ⟨Admission.Scenario.config, .fill 32 2⟩

/-- No pool and no miner. -/
def registry : Registry :=
  { Admission.Scenario.registry with db := { Admission.Scenario.registry.db with pools := ∅ } }

def challenges : ChallengeTable where
  rows := []
  nextId := 1
  ids_lt _ h := absurd h List.not_mem_nil
  nodup := .nil

def proof : Proof := ⟨.fill 32 5, 0, 0⟩

/-- The first start gets no connection for the signup, the second one succeeds. -/
def twoStarts : List Event :=
  [.start proof, .call .answered, .call .answered, .call .answered,
    .call (.failed .failedToGetConnectionFromPool), .start proof, .call .answered,
    .call .answered, .call .answered, .call .answered, .call .answered, .call .answered,
    .call .answered]

end Scenario

/-- The third start uses the settings of the second one. -/
theorem recovers_twoStarts : ∃ s,
    run (State.step Scenario.config) (.init Scenario.registry Scenario.challenges)
        Scenario.twoStarts = some s ∧ s.mineConfigs = [⟨1001, 1000⟩] ∧
      ∃ n ≤ 8, ∃ t mineConfig,
        run (State.step Scenario.config) s
            (.start Scenario.proof :: List.replicate n (.call .answered)) = some t ∧
          t.pc = .ready mineConfig ∧ Registered Scenario.config t.server.registry mineConfig ∧
          (∃ row ∈ t.challenges.rows, row.challenge = Scenario.proof.challenge.val) ∧
          ∀ mineConfig' ∈ s.mineConfigs, mineConfig' = mineConfig := by
  obtain ⟨s, hrun, hconfigs⟩ := exists_run (State.step Scenario.config)
    (.init Scenario.registry Scenario.challenges) Scenario.twoStarts
    (fun s : State => s.mineConfigs = [⟨1001, 1000⟩]) (by decide)
  exact ⟨s, hrun, hconfigs, recovers_of_run _ _ _ _ s Scenario.proof rfl hrun⟩

end Startup

end Hashpoo
