import Hashpoo.Foundation.Transition
import Hashpoo.Server.Registry

/-!
# Handshakes and signups

`ws_handler` lets a client in after up to seven database calls, which enrol the miner on
the way, and `handle_socket` enters the client into the table of sockets later on.
`post_signup` enrols a miner in one transaction. Any number of handshakes and signups are
under way at a time, and their database calls interleave.

A step is one database call, the checks behind the last one, or one of the two moments at
which a socket enters and leaves the table. Every call may fail.
-/

namespace Hashpoo.Admission

open Foundation

/-! ## Requests and responses -/

/-- The settings and the foreign code that a handshake uses. -/
structure Config where
  sdk : SignatureScheme
  /-- `Pubkey::from_str`. -/
  pubkeyFromStr : String → Option Pubkey
  /-- `WALLET_PUBKEY`. -/
  walletPubkey : Pubkey
  /-- `POWERED_BY_DBMS` names a database. -/
  poweredByDbms : Bool

/-- What the client sends: key and signature are the two parts of the basic
authorization header. -/
structure Request where
  addr : SocketAddr
  username : String
  password : String
  timestamp : UInt64
  deriving DecidableEq

inductive StatusCode where
  | ok
  | badRequest
  | unauthorized
  | internalServerError
  deriving DecidableEq

inductive Rejection where
  | timestampTooOld
  | invalidPubkey
  | internalServerError
  | rewardsTracker
  | minerRecord
  | notAuthorized
  | verificationFailed
  | invalidSignature
  deriving DecidableEq

def Rejection.response : Rejection → StatusCode × String
  | .timestampTooOld => (.unauthorized, "Timestamp too old.")
  | .invalidPubkey => (.unauthorized, "Invalid pubkey")
  | .internalServerError => (.internalServerError, "Internal Server Error")
  | .rewardsTracker => (.unauthorized, "Failed to add miner rewards tracker to database")
  | .minerRecord => (.unauthorized, "Failed to add miner record to database")
  | .notAuthorized => (.unauthorized, "pubkey is not authorized to mine")
  | .verificationFailed => (.unauthorized, "Sig verification failed")
  | .invalidSignature => (.unauthorized, "Invalid signature")

/-- What becomes of a database call. -/
inductive Attempt where
  | answered
  /-- An error, with the tables unchanged. -/
  | failed (err : DatabaseError)
  /-- A failure that `database.rs` unwraps. -/
  | unwrapped
  deriving DecidableEq

namespace Attempt

/-- The call returns an error of its own. -/
def Fails : Attempt → Prop
  | .failed _ => True
  | .answered | .unwrapped => False

instance : DecidablePred Fails
  | .failed _ => .isTrue trivial
  | .answered | .unwrapped => .isFalse id

def query {α : Type} (attempt : Attempt) (answer : Except DatabaseError α) :
    Except Panic (Except DatabaseError α) :=
  match attempt with
  | .answered => .ok answer
  | .failed err => .ok (.error err)
  | .unwrapped => .error .unwrapOnErr

def update (attempt : Attempt) (reg : Registry) (answer : Except DatabaseError Unit × Registry) :
    Except Panic (Except DatabaseError Unit × Registry) :=
  match attempt with
  | .answered => .ok answer
  | .failed err => .ok (.error err, reg)
  | .unwrapped => .error .unwrapOnErr

variable {attempt : Attempt} {reg reg' : Registry}

theorem query_eq_ok {α : Type} {answer : Except DatabaseError α} {a : α}
    (h : attempt.query answer = .ok (.ok a)) : attempt = .answered ∧ answer = .ok a := by
  cases attempt with
  | answered => exact ⟨rfl, Except.ok.inj h⟩
  | failed err => cases h
  | unwrapped => cases h

theorem query_eq_error {α : Type} {answer : Except DatabaseError α} {err : DatabaseError}
    (h : attempt.query answer = .ok (.error err)) :
    attempt = .answered ∧ answer = .error err ∨ attempt = .failed err := by
  cases attempt with
  | answered => exact .inl ⟨rfl, Except.ok.inj h⟩
  | failed err' =>
      cases h
      exact .inr rfl
  | unwrapped => cases h

theorem update_eq_ok {answer : Except DatabaseError Unit × Registry}
    (h : attempt.update reg answer = .ok (.ok (), reg')) :
    attempt = .answered ∧ answer = (.ok (), reg') := by
  cases attempt with
  | answered => exact ⟨rfl, Except.ok.inj h⟩
  | failed err => cases h
  | unwrapped => cases h

theorem update_eq_error {answer : Except DatabaseError Unit × Registry} {err : DatabaseError}
    (h : attempt.update reg answer = .ok (.error err, reg')) :
    attempt = .answered ∧ answer = (.error err, reg') ∨ attempt = .failed err ∧ reg' = reg := by
  cases attempt with
  | answered => exact .inl ⟨rfl, Except.ok.inj h⟩
  | failed err' =>
      cases h
      exact .inr ⟨rfl, rfl⟩
  | unwrapped => cases h

end Attempt

/-! ## `ws_handler` -/

/-- The next thing a handshake does. `added` and `poolAdded` are the results of the
insertions before. -/
inductive HandshakePc where
  | getMiner
  | addMiner
  | getNewMiner (added : Bool)
  | getPool (added : Bool) (miner : Miner)
  | addPool (added : Bool) (miner : Miner)
  | getNewPool (added poolAdded : Bool) (miner : Miner)
  | addReward (miner : Miner) (pool : Pool)
  /-- The checks behind the database calls, without a miner when there is no database. -/
  | verify (miner : Option Miner)
  /-- The upgrade is answered, and `handle_socket` is going to run. -/
  | upgrade (minerId : Int)
  deriving DecidableEq

structure Handshake where
  request : Request
  userPubkey : Pubkey
  pc : HandshakePc
  deriving DecidableEq

def arrive (cfg : Config) (now : UInt64) (r : Request) : Except Rejection Handshake :=
  if now - r.timestamp ≥ 30 then .error .timestampTooOld
  else match cfg.pubkeyFromStr r.username with
  | some userPubkey =>
      .ok ⟨r, userPubkey, if cfg.poweredByDbms then .getMiner else .verify none⟩
  | none => .error .invalidPubkey

inductive Outcome where
  | next (pc : HandshakePc)
  | reject (rejection : Rejection)
  | panic
  deriving DecidableEq

/-- `if add_miner_result.is_ok() && add_pool_result.is_ok()`. -/
def addRewards (added poolAdded : Bool) (miner : Miner) (pool : Pool) : Outcome :=
  if added && poolAdded then .next (.addReward miner pool) else .reject .minerRecord

/-- One database call of a handshake. -/
def call (cfg : Config) (reg : Registry) (userPubkey : Pubkey) (attempt : Attempt) :
    HandshakePc → Outcome × Registry
  | .getMiner =>
      match attempt.query (reg.getMinerByPubkeyStr userPubkey) with
      | .ok (.ok dbMiner) => (.next (.verify (some dbMiner)), reg)
      | .ok (.error .queryFailed) => (.next .addMiner, reg)
      | .ok (.error _) => (.reject .internalServerError, reg)
      | .error _ => (.panic, reg)
  | .addMiner =>
      match attempt.update reg (reg.addNewMiner userPubkey true) with
      | .ok (.ok _, reg') => (.next (.getNewMiner true), reg')
      | .ok (.error _, reg') => (.next (.getNewMiner false), reg')
      | .error _ => (.panic, reg)
  | .getNewMiner added =>
      match attempt.query (reg.getMinerByPubkeyStr userPubkey) with
      | .ok (.ok miner) => (.next (.getPool added miner), reg)
      | .ok (.error _) | .error _ => (.panic, reg)
  | .getPool added miner =>
      match attempt.query (reg.db.getPoolByAuthorityPubkey cfg.walletPubkey) with
      | .ok (.ok dbPool) => (addRewards added true miner dbPool, reg)
      | .ok (.error .queryFailed) => (.next (.addPool added miner), reg)
      | .ok (.error _) => (.reject .internalServerError, reg)
      | .error _ => (.panic, reg)
  | .addPool added miner =>
      match attempt.update reg (reg.addNewPool cfg.walletPubkey) with
      | .ok (.ok _, reg') => (.next (.getNewPool added true miner), reg')
      | .ok (.error _, reg') => (.next (.getNewPool added false miner), reg')
      | .error _ => (.panic, reg)
  | .getNewPool added poolAdded miner =>
      match attempt.query (reg.db.getPoolByAuthorityPubkey cfg.walletPubkey) with
      | .ok (.ok pool) => (addRewards added poolAdded miner pool, reg)
      | .ok (.error _) | .error _ => (.panic, reg)
  | .addReward miner pool =>
      match attempt.update reg (reg.addNewReward ⟨miner.id, pool.id⟩) with
      | .ok (.ok _, reg') => (.next (.verify (some miner)), reg')
      | .ok (.error _, reg') => (.reject .rewardsTracker, reg')
      | .error _ => (.panic, reg)
  | .verify miner => (.next (.verify miner), reg)
  | .upgrade minerId => (.next (.upgrade minerId), reg)

/-- The miner is inserted and its rewards are not. -/
def HandshakePc.Enrolling : HandshakePc → Prop
  | .getNewMiner added | .getPool added _ | .addPool added _ | .getNewPool added _ _ => added = true
  | .addReward _ _ => True
  | .getMiner | .addMiner | .verify _ | .upgrade _ => False

instance : DecidablePred HandshakePc.Enrolling
  | .getNewMiner _ | .getPool _ _ | .addPool _ _ | .getNewPool _ _ _ =>
      inferInstanceAs (Decidable (_ = _))
  | .addReward _ _ => .isTrue trivial
  | .getMiner | .addMiner | .verify _ | .upgrade _ => .isFalse id

/-- The miner that a handshake has read and goes on with. -/
def HandshakePc.miner : HandshakePc → Option Miner
  | .getPool _ miner | .addPool _ miner | .getNewPool _ _ miner | .addReward miner _ => some miner
  | .verify miner => miner
  | .getMiner | .addMiner | .getNewMiner _ | .upgrade _ => none

/-- The call goes wrong in a way that ends the handshake while its enrolment is under way. -/
def Abandoned (cfg : Config) (reg : Registry) (attempt : Attempt) : HandshakePc → Prop
  | .getPool added _ => added = true ∧ attempt.Fails ∧ attempt ≠ .failed .queryFailed
  | .addPool added _ => added = true ∧
      (attempt.Fails ∨ attempt = .answered ∧ reg.db.pools.lookup cfg.walletPubkey ≠ none)
  | .addReward _ _ => attempt.Fails
  | .getMiner | .addMiner | .getNewMiner _ | .getNewPool _ _ _ | .verify _ | .upgrade _ => False

instance (cfg : Config) (reg : Registry) (attempt : Attempt) :
    DecidablePred (Abandoned cfg reg attempt)
  | .getPool _ _ | .addPool _ _ => inferInstanceAs (Decidable (_ ∧ _))
  | .addReward _ _ => inferInstanceAs (Decidable attempt.Fails)
  | .getMiner | .addMiner | .getNewMiner _ | .getNewPool _ _ _ | .verify _ | .upgrade _ =>
      .isFalse id

/-- The outcomes of a database call. -/
inductive Calls (cfg : Config) (reg : Registry) (userPubkey : Pubkey) :
    HandshakePc → Attempt → Outcome → Registry → Prop
  | found (miner : Miner) : reg.getMinerByPubkeyStr userPubkey = .ok miner →
      Calls cfg reg userPubkey .getMiner .answered (.next (.verify (some miner))) reg
  | missing (attempt : Attempt) :
      Calls cfg reg userPubkey .getMiner attempt (.next .addMiner) reg
  | inserted : reg.db.miners.lookup userPubkey = none →
      Calls cfg reg userPubkey .addMiner .answered (.next (.getNewMiner true))
        (reg.insertMiner userPubkey true)
  | notInserted (attempt : Attempt) :
      Calls cfg reg userPubkey .addMiner attempt (.next (.getNewMiner false)) reg
  | newMiner (added : Bool) (miner : Miner) : reg.getMinerByPubkeyStr userPubkey = .ok miner →
      Calls cfg reg userPubkey (.getNewMiner added) .answered (.next (.getPool added miner)) reg
  | pool (miner : Miner) (pool : Pool) :
      Calls cfg reg userPubkey (.getPool true miner) .answered (.next (.addReward miner pool)) reg
  | noPool (attempt : Attempt) (added : Bool) (miner : Miner) :
      Calls cfg reg userPubkey (.getPool added miner) attempt (.next (.addPool added miner)) reg
  | poolInserted (added : Bool) (miner : Miner) (reg' : Registry) :
      reg.addNewPool cfg.walletPubkey = (.ok (), reg') →
      Calls cfg reg userPubkey (.addPool added miner) .answered
        (.next (.getNewPool added true miner)) reg'
  | poolNotInserted (attempt : Attempt) (added : Bool) (miner : Miner) :
      (added = true → Abandoned cfg reg attempt (.addPool added miner)) →
      Calls cfg reg userPubkey (.addPool added miner) attempt
        (.next (.getNewPool added false miner)) reg
  | newPool (miner : Miner) (pool : Pool) :
      Calls cfg reg userPubkey (.getNewPool true true miner) .answered
        (.next (.addReward miner pool)) reg
  | rewarded (miner : Miner) (pool : Pool) :
      Calls cfg reg userPubkey (.addReward miner pool) .answered (.next (.verify (some miner)))
        (reg.insertReward ⟨miner.id, pool.id⟩)
  | idle (attempt : Attempt) (pc : HandshakePc) : ¬ pc.Enrolling →
      Calls cfg reg userPubkey pc attempt (.next pc) reg
  | reject (attempt : Attempt) (pc : HandshakePc) (rejection : Rejection) :
      (pc.Enrolling → Abandoned cfg reg attempt pc ∨ ∃ miner, pc = .getNewPool true false miner) →
      Calls cfg reg userPubkey pc attempt (.reject rejection) reg
  | panic (attempt : Attempt) (pc : HandshakePc) :
      Calls cfg reg userPubkey pc attempt .panic reg

section Inversion

variable {cfg : Config} {reg reg' : Registry} {userPubkey : Pubkey} {attempt : Attempt}
  {pc : HandshakePc} {out : Outcome}

theorem calls_getMiner (h : call cfg reg userPubkey attempt .getMiner = (out, reg')) :
    Calls cfg reg userPubkey .getMiner attempt out reg' := by
  delta call at h
  dsimp only at h
  split at h
  · next miner hquery =>
    cases h
    obtain ⟨rfl, hminer⟩ := Attempt.query_eq_ok hquery
    exact .found miner hminer
  · cases h
    exact .missing attempt
  · cases h
    exact .reject attempt _ _ nofun
  · cases h
    exact .panic attempt _

theorem calls_addMiner (h : call cfg reg userPubkey attempt .addMiner = (out, reg')) :
    Calls cfg reg userPubkey .addMiner attempt out reg' := by
  delta call at h
  dsimp only at h
  split at h
  · next reg₁ hupdate =>
    cases h
    obtain ⟨rfl, hadd⟩ := Attempt.update_eq_ok hupdate
    obtain ⟨hnone, rfl⟩ := Registry.addNewMiner_eq_ok hadd
    exact .inserted hnone
  · next err reg₁ hupdate =>
    cases h
    obtain ⟨-, hadd⟩ | ⟨-, rfl⟩ := Attempt.update_eq_error hupdate
    · rw [Registry.addNewMiner_eq_error hadd]
      exact .notInserted attempt
    · exact .notInserted attempt
  · cases h
    exact .panic attempt _

theorem calls_getPool {added : Bool} {miner : Miner}
    (h : call cfg reg userPubkey attempt (.getPool added miner) = (out, reg')) :
    Calls cfg reg userPubkey (.getPool added miner) attempt out reg' := by
  delta call at h
  dsimp only at h
  split at h
  · next pool hquery =>
    obtain ⟨rfl, -⟩ := Attempt.query_eq_ok hquery
    cases added with
    | false =>
        cases h
        exact .reject _ _ _ nofun
    | true =>
        cases h
        exact .pool miner pool
  · cases h
    exact .noPool attempt added miner
  · next err hother hquery =>
    cases h
    obtain ⟨-, hanswer⟩ | rfl := Attempt.query_eq_error hquery
    · exact absurd (Database.getPoolByAuthorityPubkey_error hanswer) hother
    · refine .reject _ _ _ fun hadded => .inl ⟨hadded, trivial, fun hquery => ?_⟩
      exact hother (Attempt.failed.inj hquery)
  · cases h
    exact .panic attempt _

theorem calls_addPool {added : Bool} {miner : Miner}
    (h : call cfg reg userPubkey attempt (.addPool added miner) = (out, reg')) :
    Calls cfg reg userPubkey (.addPool added miner) attempt out reg' := by
  delta call at h
  dsimp only at h
  split at h
  · next reg₁ hupdate =>
    cases h
    obtain ⟨rfl, hadd⟩ := Attempt.update_eq_ok hupdate
    exact .poolInserted added miner _ hadd
  · next err reg₁ hupdate =>
    cases h
    obtain ⟨rfl, hadd⟩ | ⟨rfl, rfl⟩ := Attempt.update_eq_error hupdate
    · obtain ⟨hpool, rfl⟩ := Registry.addNewPool_eq_error hadd
      exact .poolNotInserted _ added miner fun hadded => ⟨hadded, .inr ⟨rfl, hpool⟩⟩
    · exact .poolNotInserted _ added miner fun hadded => ⟨hadded, .inl trivial⟩
  · cases h
    exact .panic attempt _

theorem calls_getNewPool {added poolAdded : Bool} {miner : Miner}
    (h : call cfg reg userPubkey attempt (.getNewPool added poolAdded miner) = (out, reg')) :
    Calls cfg reg userPubkey (.getNewPool added poolAdded miner) attempt out reg' := by
  delta call at h
  dsimp only at h
  split at h
  · next pool hquery =>
    obtain ⟨rfl, -⟩ := Attempt.query_eq_ok hquery
    cases added with
    | false =>
        cases h
        exact .reject _ _ _ nofun
    | true =>
        cases poolAdded with
        | false =>
            cases h
            exact .reject _ _ _ fun _ => .inr ⟨miner, rfl⟩
        | true =>
            cases h
            exact .newPool miner pool
  · cases h
    exact .panic attempt _
  · cases h
    exact .panic attempt _

theorem calls_addReward {miner : Miner} {pool : Pool}
    (h : call cfg reg userPubkey attempt (.addReward miner pool) = (out, reg')) :
    Calls cfg reg userPubkey (.addReward miner pool) attempt out reg' := by
  delta call at h
  dsimp only at h
  split at h
  · next reg₁ hupdate =>
    cases h
    obtain ⟨rfl, hadd⟩ := Attempt.update_eq_ok hupdate
    cases hadd
    exact .rewarded miner pool
  · next err reg₁ hupdate =>
    cases h
    obtain ⟨-, hadd⟩ | ⟨rfl, rfl⟩ := Attempt.update_eq_error hupdate
    · cases hadd
    · exact .reject _ _ _ fun _ => .inl trivial
  · cases h
    exact .panic attempt _

theorem calls_of_eq (h : call cfg reg userPubkey attempt pc = (out, reg')) :
    Calls cfg reg userPubkey pc attempt out reg' := by
  cases pc with
  | getMiner => exact calls_getMiner h
  | addMiner => exact calls_addMiner h
  | getNewMiner added =>
      delta call at h
      dsimp only at h
      split at h
      · next miner hquery =>
        cases h
        obtain ⟨rfl, hminer⟩ := Attempt.query_eq_ok hquery
        exact .newMiner added miner hminer
      · cases h
        exact .panic attempt _
      · cases h
        exact .panic attempt _
  | getPool added miner => exact calls_getPool h
  | addPool added miner => exact calls_addPool h
  | getNewPool added poolAdded miner => exact calls_getNewPool h
  | addReward miner pool => exact calls_addReward h
  | verify miner =>
      cases h
      exact .idle attempt _ id
  | upgrade minerId =>
      cases h
      exact .idle attempt _ id

/-- A handshake that ends with its call has changed nothing. -/
theorem Calls.registry_eq (h : Calls cfg reg userPubkey pc attempt out reg')
    (hout : ∀ pc', out ≠ .next pc') : reg' = reg := by
  cases h with
  | reject | panic => rfl
  | _ => exact absurd rfl (hout _)

end Inversion

/-- The id of all miners when there is no database. -/
def defaultMinerId : Int := 2 ^ 63 - 1

/-- The checks behind the database calls. The result is the miner id of the upgrade. -/
def authorize (cfg : Config) (h : Handshake) (miner : Option Miner) : Except Rejection Int :=
  if miner.any fun miner => !miner.enabled then .error .notAuthorized
  else match cfg.sdk.fromStr h.request.password with
  | some signature =>
      if cfg.sdk.verify signature h.userPubkey (Word.toLeBytes 8 h.request.timestamp.toNat) then
        .ok (miner.elim defaultMinerId Miner.id)
      else .error .verificationFailed
  | none => .error .invalidSignature

/-! ## `post_signup` -/

inductive SignupResponse where
  | success
  | exists
  | noConnection
  | notAdded
  | invalidPubkey
  deriving DecidableEq

def SignupResponse.response : SignupResponse → StatusCode × String
  | .success => (.ok, "SUCCESS")
  | .exists => (.ok, "EXISTS")
  | .noConnection => (.internalServerError, "Failed to get db pool connection")
  | .notAdded => (.internalServerError, "Failed to add user to database")
  | .invalidPubkey => (.badRequest, "Invalid miner pubkey")

/-- A signup of the key. -/
inductive Signup where
  | getMiner (minerPubkey : Pubkey)
  | enroll (minerPubkey : Pubkey)
  deriving DecidableEq

inductive SignupOutcome where
  | next (signup : Signup)
  | respond (response : SignupResponse)
  | panic
  deriving DecidableEq

/-- One database call of a signup. -/
def Signup.call (cfg : Config) (reg : Registry) (attempt : Attempt) :
    Signup → SignupOutcome × Registry
  | .getMiner minerPubkey =>
      match attempt.query (reg.getMinerByPubkeyStr minerPubkey) with
      | .ok (.ok miner) =>
          if miner.enabled then (.respond .exists, reg) else (.next (.enroll minerPubkey), reg)
      | .ok (.error .failedToGetConnectionFromPool) => (.respond .noConnection, reg)
      | .ok (.error _) => (.next (.enroll minerPubkey), reg)
      | .error _ => (.panic, reg)
  | .enroll minerPubkey =>
      match attempt with
      | .answered =>
          match reg.signupEnrollment minerPubkey cfg.walletPubkey with
          | .ok (.ok _, reg') => (.respond .success, reg')
          | .ok (.error _, reg') => (.respond .notAdded, reg')
          | .error _ => (.panic, reg)
      | .failed _ => (.respond .notAdded, reg)
      | .unwrapped => (.panic, reg)

/-- A call of a signup changes nothing, or it enrols a new miner and is the last one. -/
theorem Signup.call_cases {cfg : Config} {reg reg' : Registry} {attempt : Attempt}
    {signup : Signup} {out : SignupOutcome} (h : signup.call cfg reg attempt = (out, reg')) :
    reg' = reg ∨ out = .respond .success ∧ ∃ pubkey poolId,
      reg.db.miners.lookup pubkey = none ∧
      reg' = (reg.insertMiner pubkey true).insertReward ⟨reg.nextMiner, poolId⟩ := by
  cases signup with
  | getMiner minerPubkey =>
      simp only [Signup.call] at h
      split at h
      · split at h <;> exact .inl (Prod.mk.inj h).2.symm
      all_goals exact .inl (Prod.mk.inj h).2.symm
  | enroll minerPubkey =>
      simp only [Signup.call] at h
      split at h
      · split at h
        · next reg₁ henrollment =>
          cases h
          obtain rfl | ⟨hnone, poolId, hreg⟩ := Registry.signupEnrollment_cases henrollment
          · exact .inl rfl
          · exact .inr ⟨rfl, minerPubkey, poolId, hnone, hreg⟩
        · next err reg₁ henrollment =>
          cases h
          exact .inl (Registry.signupEnrollment_error henrollment)
        · exact .inl (Prod.mk.inj h).2.symm
      all_goals exact .inl (Prod.mk.inj h).2.symm

/-! ## States and events -/

structure State where
  registry : Registry
  handshakes : HashMap Nat Handshake
  signups : HashMap Nat Signup
  /-- `AppState.sockets`. -/
  sockets : HashMap SocketAddr ClientConnection
  /-- The miner ids of all connections accepted so far. The program does not keep them. -/
  accepted : List Int
  aborted : Bool

def State.start (registry : Registry) : State where
  registry := registry
  handshakes := ∅
  signups := ∅
  sockets := ∅
  accepted := []
  aborted := false

inductive Event where
  /-- A request arrives at the time `now`. -/
  | arrive (k : Nat) (r : Request) (now : UInt64)
  /-- A database call of the handshake `k`. -/
  | call (k : Nat) (attempt : Attempt)
  /-- The checks behind the database calls. -/
  | authorize (k : Nat)
  /-- `handle_socket` begins. -/
  | openSocket (k : Nat) (pinged : Bool)
  /-- A connection ends or is given up. -/
  | closeSocket (addr : SocketAddr)
  | signup (k : Nat) (miner : String)
  | signupCall (k : Nat) (attempt : Attempt)
  /-- The operator enables or disables a miner. -/
  | setEnabled (pubkey : Pubkey) (enabled : Bool)
  deriving DecidableEq

namespace State

/-- The handshake `k` goes on at `pc`. -/
def goto (s : State) (k : Nat) (h : Handshake) (pc : HandshakePc) : State :=
  { s with handshakes := s.handshakes.insert k { h with pc := pc } }

/-- The handshake `k` is answered with a rejection. -/
def reject (s : State) (k : Nat) : State := { s with handshakes := s.handshakes.erase k }

/-- The upgrade of the handshake `k` is answered. -/
def accept (s : State) (k : Nat) (h : Handshake) (minerId : Int) : State :=
  { s.goto k h (.upgrade minerId) with accepted := minerId :: s.accepted }

def step (cfg : Config) (s : State) (e : Event) : Option State :=
  if s.aborted then none
  else match e with
  | .arrive k r now =>
      if k ∈ s.handshakes then none
      else match arrive cfg now r with
      | .ok h => some { s with handshakes := s.handshakes.insert k h }
      | .error _ => some s
  | .call k attempt =>
      match s.handshakes.lookup k with
      | some h =>
          match call cfg s.registry h.userPubkey attempt h.pc with
          | (.next pc, reg) => some { s.goto k h pc with registry := reg }
          | (.reject _, reg) => some { s.reject k with registry := reg }
          | (.panic, reg) => some { s with registry := reg, aborted := true }
      | none => none
  | .authorize k =>
      match s.handshakes.lookup k with
      | some h =>
          match h.pc with
          | .verify miner =>
              match authorize cfg h miner with
              | .ok minerId => some (s.accept k h minerId)
              | .error _ => some (s.reject k)
          | _ => none
      | none => none
  | .openSocket k pinged =>
      match s.handshakes.lookup k with
      | some h =>
          match h.pc with
          | .upgrade minerId =>
              if pinged ∧ h.request.addr ∉ s.sockets then
                some { s.reject k with
                  sockets := s.sockets.insert h.request.addr ⟨h.userPubkey, minerId, k⟩ }
              else
                some (s.reject k)
          | _ => none
      | none => none
  | .closeSocket addr => some { s with sockets := s.sockets.erase addr }
  | .signup k miner =>
      if k ∈ s.signups then none
      else match cfg.pubkeyFromStr miner with
      | some minerPubkey => some { s with signups := s.signups.insert k (.getMiner minerPubkey) }
      | none => some s
  | .signupCall k attempt =>
      match s.signups.lookup k with
      | some signup =>
          match signup.call cfg s.registry attempt with
          | (.next signup', reg) =>
              some { s with registry := reg, signups := s.signups.insert k signup' }
          | (.respond _, reg) => some { s with registry := reg, signups := s.signups.erase k }
          | (.panic, reg) => some { s with registry := reg, aborted := true }
      | none => none
  | .setEnabled pubkey enabled => some { s with registry := s.registry.setEnabled pubkey enabled }

/-- The steps by what they change. -/
inductive Steps (cfg : Config) (s : State) : Event → State → Prop
  | arrive (k : Nat) (r : Request) (now : UInt64) (h : Handshake) : k ∉ s.handshakes →
      arrive cfg now r = .ok h →
      Steps cfg s (.arrive k r now) { s with handshakes := s.handshakes.insert k h }
  /-- A request is rejected at once. -/
  | unchanged (e : Event) : Steps cfg s e s
  | next (k : Nat) (attempt : Attempt) (h : Handshake) (pc : HandshakePc) (reg : Registry) :
      s.handshakes.lookup k = some h →
      Calls cfg s.registry h.userPubkey h.pc attempt (.next pc) reg →
      Steps cfg s (.call k attempt) { s.goto k h pc with registry := reg }
  | rejected (k : Nat) (attempt : Attempt) (h : Handshake) (rejection : Rejection) :
      s.handshakes.lookup k = some h →
      Calls cfg s.registry h.userPubkey h.pc attempt (.reject rejection) s.registry →
      Steps cfg s (.call k attempt) (s.reject k)
  | panic (e : Event) : Steps cfg s e { s with aborted := true }
  | accepted (k : Nat) (h : Handshake) (miner : Option Miner) (minerId : Int) :
      s.handshakes.lookup k = some h → h.pc = .verify miner →
      authorize cfg h miner = .ok minerId → Steps cfg s (.authorize k) (s.accept k h minerId)
  /-- A handshake behind its database calls ends without a socket. -/
  | dropped (e : Event) (k : Nat) (h : Handshake) : s.handshakes.lookup k = some h →
      ¬ h.pc.Enrolling → Steps cfg s e (s.reject k)
  | opened (k : Nat) (pinged : Bool) (h : Handshake) (minerId : Int) :
      s.handshakes.lookup k = some h → h.pc = .upgrade minerId →
      h.request.addr ∉ s.sockets →
      Steps cfg s (.openSocket k pinged)
        { s.reject k with
          sockets := s.sockets.insert h.request.addr ⟨h.userPubkey, minerId, k⟩ }
  | closed (addr : SocketAddr) :
      Steps cfg s (.closeSocket addr) { s with sockets := s.sockets.erase addr }
  | signup (e : Event) (signups : HashMap Nat Signup) : Steps cfg s e { s with signups := signups }
  /-- A signup enrols a new miner. -/
  | enrolled (k : Nat) (attempt : Attempt) (pubkey : Pubkey) (poolId : Int) :
      s.registry.db.miners.lookup pubkey = none →
      Steps cfg s (.signupCall k attempt)
        { s with
          registry := (s.registry.insertMiner pubkey true).insertReward
            ⟨s.registry.nextMiner, poolId⟩
          signups := s.signups.erase k }
  | setEnabled (pubkey : Pubkey) (enabled : Bool) :
      Steps cfg s (.setEnabled pubkey enabled)
        { s with registry := s.registry.setEnabled pubkey enabled }

variable {cfg : Config} {s t : State} {k : Nat} {attempt : Attempt}

theorem steps_call (h : s.step cfg (.call k attempt) = some t) :
    s.Steps cfg (.call k attempt) t := by
  simp only [step, Option.ite_none_left_eq_some] at h
  obtain ⟨-, h⟩ := h
  split at h
  · next hs hk =>
    split at h
    · next pc reg hcall =>
      cases h
      exact .next k attempt hs pc reg hk (calls_of_eq hcall)
    · next rejection reg hcall =>
      cases h
      have hcalls := calls_of_eq hcall
      obtain rfl := hcalls.registry_eq nofun
      exact .rejected k attempt hs rejection hk hcalls
    · next reg hcall =>
      cases h
      obtain rfl := (calls_of_eq hcall).registry_eq nofun
      exact .panic _
  · cases h

theorem steps_authorize (h : s.step cfg (.authorize k) = some t) :
    s.Steps cfg (.authorize k) t := by
  simp only [step, Option.ite_none_left_eq_some] at h
  obtain ⟨-, h⟩ := h
  split at h
  · next hs hk =>
    split at h
    · next miner hpc =>
      split at h
      · next minerId hauthorize =>
        cases h
        exact .accepted k hs miner minerId hk hpc hauthorize
      · cases h
        exact .dropped _ k hs hk (by rw [hpc]; exact id)
    · cases h
  · cases h

theorem steps_openSocket {pinged : Bool} (h : s.step cfg (.openSocket k pinged) = some t) :
    s.Steps cfg (.openSocket k pinged) t := by
  simp only [step, Option.ite_none_left_eq_some] at h
  obtain ⟨-, h⟩ := h
  split at h
  · next hs hk =>
    split at h
    · next minerId hpc =>
      split at h
      · next hopen =>
        cases h
        exact .opened k pinged hs minerId hk hpc hopen.2
      · cases h
        exact .dropped _ k hs hk (by rw [hpc]; exact id)
    · cases h
  · cases h

theorem steps_signupCall (h : s.step cfg (.signupCall k attempt) = some t) :
    s.Steps cfg (.signupCall k attempt) t := by
  simp only [step, Option.ite_none_left_eq_some] at h
  obtain ⟨-, h⟩ := h
  split at h
  · next signup hk =>
    split at h
    · next signup' reg hcall =>
      cases h
      obtain rfl | ⟨hout, -⟩ := Signup.call_cases hcall
      · exact .signup _ _
      · cases hout
    · next response reg hcall =>
      cases h
      obtain rfl | ⟨-, pubkey, poolId, hnone, rfl⟩ := Signup.call_cases hcall
      · exact .signup _ _
      · exact .enrolled k attempt pubkey poolId hnone
    · next reg hcall =>
      cases h
      obtain rfl | ⟨hout, -⟩ := Signup.call_cases hcall
      · exact .panic _
      · cases hout
  · cases h

theorem step_steps {e : Event} (h : s.step cfg e = some t) : s.Steps cfg e t := by
  cases e with
  | arrive k r now =>
      simp only [step, Option.ite_none_left_eq_some] at h
      obtain ⟨-, hk, h⟩ := h
      split at h
      · next hs harrive =>
        cases h
        exact .arrive k r now hs hk harrive
      · cases h
        exact .unchanged _
  | call k attempt => exact steps_call h
  | authorize k => exact steps_authorize h
  | openSocket k pinged => exact steps_openSocket h
  | closeSocket addr =>
      simp only [step, Option.ite_none_left_eq_some] at h
      obtain ⟨-, h⟩ := h
      cases h
      exact .closed addr
  | signup k miner =>
      simp only [step, Option.ite_none_left_eq_some] at h
      obtain ⟨-, -, h⟩ := h
      split at h
      · cases h
        exact .signup _ _
      · cases h
        exact .unchanged _
  | signupCall k attempt => exact steps_signupCall h
  | setEnabled pubkey enabled =>
      simp only [step, Option.ite_none_left_eq_some] at h
      obtain ⟨-, h⟩ := h
      cases h
      exact .setEnabled pubkey enabled

end State

/-! ## A server with one pool -/

namespace Scenario

/-- A key, and its text. -/
def pubkey : Pubkey := .fill 32 1

def pubkeyText : String := "4vJ9JU1bJJE96FWSJKvHsmmFADCg4gpZQff4P3bkLKi"

def config : Config where
  sdk := ⟨Unit, fun _ => some (), fun _ _ _ => true⟩
  pubkeyFromStr text := if text = pubkeyText then some pubkey else none
  walletPubkey := .fill 32 9
  poweredByDbms := true

/-- The tables after the start of the server: the pool, and no miner. -/
def registry : Registry where
  db :=
    { miners := ∅
      pools := AList.singleton (.fill 32 9) ⟨1000, 0⟩
      rewards := []
      transactions := []
      claims := []
      nextTransaction := 1
      minerIds := fun _ _ _ h => by cases h }
  enabled := ∅
  nextMiner := 1000
  nextPool := 1001
  minerIds_lt := fun _ _ h => by cases h

def request (addr : SocketAddr) (timestamp : UInt64) : Request := ⟨addr, pubkeyText, "", timestamp⟩

end Scenario

end Hashpoo.Admission
