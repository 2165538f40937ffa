import Hashpoo.Admission.System
import Hashpoo.Foundation.Loops
import Hashpoo.Ledger.Challenges

/-!
# The record of the submitted challenge

Before a landed-tx task writes anything it looks up the row of the challenge it has mined,
and inserts it when it is missing: the loop `'db_challenge`. A lookup of the Postgres build
fails for several rows as well as for none, so the loop takes a challenge that is there
twice for a missing one, and every further row makes it more so.
-/

namespace Hashpoo

open Foundation
open Admission (Attempt)

/-! ## The table -/

/-- A row of `challenges`, as it is read. -/
structure ChallengeRecord where
  id : Int
  poolId : Int
  contributionId : Option Int
  challenge : List UInt8
  rewardsEarned : Option Int
  deriving DecidableEq

structure InsertChallenge where
  poolId : Int
  challenge : List UInt8
  rewardsEarned : Option Int
  deriving DecidableEq

/-- The rows in the order of their insertion, and the next id of the key. -/
structure ChallengeTable where
  rows : List ChallengeRecord
  nextId : Int
  ids_lt : ∀ row ∈ rows, row.id < nextId
  nodup : (rows.map ChallengeRecord.id).Nodup

namespace ChallengeTable

variable (table : ChallengeTable)

def withChallenge (challenge : List UInt8) : List ChallengeRecord :=
  table.rows.filter fun row => row.challenge = challenge

def getChallengeByChallenge (dbms : PoweredByDbms) (challenge : List UInt8) :
    Except DatabaseError ChallengeRecord :=
  match dbms with
  | .postgres => queryOne (table.withChallenge challenge)
  | .sqlite => Tables.queryRow (table.withChallenge challenge)

/-- The row that an `INSERT` adds. -/
def newRow (c : InsertChallenge) : ChallengeRecord :=
  ⟨table.nextId, c.poolId, none, c.challenge, c.rewardsEarned⟩

def insert (c : InsertChallenge) : ChallengeTable where
  rows := table.rows ++ [table.newRow c]
  nextId := table.nextId + 1
  ids_lt row hrow := by
    obtain hold | hnew := List.mem_append.mp hrow
    · have := table.ids_lt row hold
      omega
    · cases List.mem_singleton.mp hnew
      exact Int.lt_add_one_iff.mpr le_rfl
  nodup := by
    rw [List.map_append, List.nodup_append']
    refine ⟨table.nodup, List.nodup_singleton _, ?_⟩
    intro id hid hnew
    obtain ⟨row, hrow, rfl⟩ := List.mem_map.mp hid
    have hlt := table.ids_lt row hrow
    have heq : row.id = table.nextId := List.mem_singleton.mp hnew
    omega

/-- The answer to an `INSERT`, which affects one row. -/
def addNewChallenge (c : InsertChallenge) : Except DatabaseError Unit × ChallengeTable :=
  (.ok (), table.insert c)

variable {table} {dbms : PoweredByDbms} {challenge : List UInt8} {row : ChallengeRecord}

theorem mem_withChallenge :
    row ∈ table.withChallenge challenge ↔ row ∈ table.rows ∧ row.challenge = challenge := by
  simp [withChallenge]

/-- What a lookup finds is a row of the challenge. -/
theorem mem_of_getChallengeByChallenge
    (h : table.getChallengeByChallenge dbms challenge = .ok row) :
    row ∈ table.rows ∧ row.challenge = challenge := by
  rw [← mem_withChallenge]
  cases dbms with
  | postgres =>
      rw [queryOne_eq_ok.mp h]
      exact List.mem_singleton.mpr rfl
  | sqlite =>
      obtain ⟨rest, hrows⟩ := Tables.queryRow_eq_ok.mp h
      rw [hrows]
      exact List.mem_cons_self

theorem getChallengeByChallenge_single (h : table.withChallenge challenge = [row]) :
    table.getChallengeByChallenge dbms challenge = .ok row := by
  cases dbms with
  | postgres => rw [getChallengeByChallenge, h, queryOne]
  | sqlite => rw [getChallengeByChallenge, h, Tables.queryRow]

theorem getChallengeByChallenge_none (h : table.withChallenge challenge = []) :
    table.getChallengeByChallenge dbms challenge = .error .queryFailed := by
  cases dbms with
  | postgres => rw [getChallengeByChallenge, h]; rfl
  | sqlite => rw [getChallengeByChallenge, h]; rfl

/-- Several rows are as bad as none. -/
theorem getChallengeByChallenge_several (h : 2 ≤ (table.withChallenge challenge).length) :
    table.getChallengeByChallenge .postgres challenge = .error .queryFailed := by
  match hrows : table.withChallenge challenge with
  | [] => simp [hrows] at h
  | [_] => simp [hrows] at h
  | _ :: _ :: _ =>
      rw [getChallengeByChallenge, hrows]
      rfl

theorem withChallenge_insert (c : InsertChallenge) :
    (table.insert c).withChallenge c.challenge =
      table.withChallenge c.challenge ++ [table.newRow c] := by
  simp [withChallenge, insert, newRow]

end ChallengeTable

/-! ## The loop -/

namespace DbChallenge

inductive Pc where
  /-- The head of `'db_challenge`. -/
  | lookup
  /-- `add_new_challenge`, the condition of the inner loop. -/
  | insert
  /-- The lookup in the body of the inner loop. -/
  | recheck
  /-- The lookup behind the inner loop. -/
  | lookupAdded
  /-- `submission_challenge` is set. -/
  | done (submissionChallenge : ChallengeRecord)
  | panicked
  deriving DecidableEq

structure State where
  table : ChallengeTable
  pc : Pc

/-- A lookup that leaves the loop with the row, and goes on at `next` without. -/
def lookup (dbms : PoweredByDbms) (missing : InsertChallenge) (s : State) (next : Pc)
    (attempt : Attempt) : State :=
  match attempt.query (s.table.getChallengeByChallenge dbms missing.challenge) with
  | .ok (.ok c) => { s with pc := .done c }
  | .ok (.error _) => { s with pc := next }
  | .error _ => { s with pc := .panicked }

/-- One database call. -/
def step (dbms : PoweredByDbms) (missing : InsertChallenge) (s : State) (attempt : Attempt) :
    State :=
  match s.pc with
  | .lookup => lookup dbms missing s .insert attempt
  | .insert =>
      match attempt.query (s.table.addNewChallenge missing).1 with
      | .ok (.ok _) => ⟨(s.table.addNewChallenge missing).2, .lookupAdded⟩
      | .ok (.error _) => { s with pc := .recheck }
      | .error _ => { s with pc := .panicked }
  | .recheck => lookup dbms missing s .insert attempt
  | .lookupAdded => lookup dbms missing s .lookup attempt
  | .done _ | .panicked => s

/-- `missing_challenge`. -/
def missingChallenge (cfg : MineConfig) (oldProof : Proof) : InsertChallenge :=
  ⟨cfg.poolId, oldProof.challenge.val, none⟩

/-- The loop over the table, one attempt for each call. -/
def dbChallenge (dbms : PoweredByDbms) (cfg : MineConfig) (oldProof : Proof)
    (table : ChallengeTable) (attempts : Nat → Attempt) : Nat → State :=
  after (step dbms (missingChallenge cfg oldProof)) ⟨table, .lookup⟩ attempts

/-- The loop has ended with a row of the challenge, and has added at most one row. -/
structure Ended (oldProof : Proof) (table : ChallengeTable) (s : State) : Prop where
  found : ∃ c, s.pc = .done c ∧ c ∈ s.table.rows ∧ c.challenge = oldProof.challenge.val
  added : s.table.rows = table.rows ∨ ∃ row, s.table.rows = table.rows ++ [row]

/-! ## Answered calls -/

section Answered

variable {dbms : PoweredByDbms} {missing : InsertChallenge} {s : State} {cfg : MineConfig}
  {oldProof : Proof} {table : ChallengeTable} {c : ChallengeRecord}

theorem lookup_found (next : Pc)
    (h : s.table.getChallengeByChallenge dbms missing.challenge = .ok c) :
    lookup dbms missing s next .answered = { s with pc := .done c } := by
  simp only [lookup, Attempt.query, h]

theorem lookup_failed (next : Pc) {err : DatabaseError}
    (h : s.table.getChallengeByChallenge dbms missing.challenge = .error err) :
    lookup dbms missing s next .answered = { s with pc := next } := by
  simp only [lookup, Attempt.query, h]

theorem step_insert : step dbms missing ⟨table, .insert⟩ .answered =
    ⟨table.insert missing, .lookupAdded⟩ := rfl

/-- A row that the first lookup finds ends the loop at once. -/
theorem ends_of_found
    (h : table.getChallengeByChallenge dbms oldProof.challenge.val = .ok c) :
    Ended oldProof table (dbChallenge dbms cfg oldProof table (fun _ => .answered) 1) := by
  have hstep : dbChallenge dbms cfg oldProof table (fun _ => .answered) 1 = ⟨table, .done c⟩ :=
    lookup_found .insert h
  obtain ⟨hmem, hchallenge⟩ := ChallengeTable.mem_of_getChallengeByChallenge h
  rw [hstep]
  exact ⟨⟨c, rfl, hmem, hchallenge⟩, .inl rfl⟩

/-- A missing row is inserted and found again. -/
theorem ends_of_missing (h : table.withChallenge oldProof.challenge.val = []) :
    Ended oldProof table (dbChallenge dbms cfg oldProof table (fun _ => .answered) 3) := by
  let missing := missingChallenge cfg oldProof
  have hlookup : dbChallenge dbms cfg oldProof table (fun _ => .answered) 1 =
      ⟨table, .insert⟩ := lookup_failed .insert (ChallengeTable.getChallengeByChallenge_none h)
  have hinsert : dbChallenge dbms cfg oldProof table (fun _ => .answered) 2 =
      ⟨table.insert missing, .lookupAdded⟩ := by
    rw [dbChallenge, after_succ, ← dbChallenge, hlookup, step_insert]
  have hsingle : (table.insert missing).withChallenge missing.challenge =
      [table.newRow missing] := by
    rw [ChallengeTable.withChallenge_insert]
    show table.withChallenge oldProof.challenge.val ++ _ = _
    rw [h, List.nil_append]
  have hfound : (table.insert missing).getChallengeByChallenge dbms missing.challenge =
      .ok (table.newRow missing) := ChallengeTable.getChallengeByChallenge_single hsingle
  have hadded : dbChallenge dbms cfg oldProof table (fun _ => .answered) 3 =
      ⟨table.insert missing, .done (table.newRow missing)⟩ := by
    rw [dbChallenge, after_succ, ← dbChallenge, hinsert]
    exact lookup_found .lookup hfound
  obtain ⟨hmem, hchallenge⟩ := ChallengeTable.mem_of_getChallengeByChallenge hfound
  rw [hadded]
  exact ⟨⟨_, rfl, hmem, hchallenge⟩, .inr ⟨_, rfl⟩⟩

/-- The loop is under way, and every lookup will find several rows. -/
structure Trapped (missing : InsertChallenge) (s : State) : Prop where
  several : 2 ≤ (s.table.withChallenge missing.challenge).length
  waiting : ∀ c, s.pc ≠ .done c

theorem Trapped.lookup (h : Trapped missing s) {next : Pc} (hnext : ∀ c, next ≠ .done c) :
    Trapped missing (lookup .postgres missing s next .answered) := by
  rw [lookup_failed next (ChallengeTable.getChallengeByChallenge_several h.several)]
  exact ⟨h.several, hnext⟩

theorem Trapped.step (h : Trapped missing s) :
    Trapped missing (step .postgres missing s .answered) := by
  obtain ⟨table, pc⟩ := s
  cases pc with
  | lookup => exact h.lookup nofun
  | insert =>
      refine ⟨?_, nofun⟩
      rw [step_insert, ChallengeTable.withChallenge_insert, List.length_append]
      exact Nat.le_add_right_of_le h.several
  | recheck => exact h.lookup nofun
  | lookupAdded => exact h.lookup nofun
  | done c => exact absurd rfl (h.waiting c)
  | panicked => exact h

theorem not_ends_of_several (cfg : MineConfig)
    (h : 2 ≤ (table.withChallenge oldProof.challenge.val).length) :
    ¬ ∃ n, Ended oldProof table
      (dbChallenge .postgres cfg oldProof table (fun _ => .answered) n) := by
  have htrapped : Trapped (missingChallenge cfg oldProof) ⟨table, .lookup⟩ := ⟨h, nofun⟩
  refine not_reaches_of_trap (Trapped (missingChallenge cfg oldProof)) (· = .answered)
    (fun _ => rfl) ?_ ?_ htrapped
  · rintro s _ hs rfl
    exact hs.step
  · intro s hs hended
    obtain ⟨c, hdone, -⟩ := hended.found
    exact hs.waiting c hdone

/-- The Sqlite build takes the first row, so its loop always ends. -/
theorem dbChallenge_ends_sqlite (cfg : MineConfig) (oldProof : Proof) (table : ChallengeTable) :
    ∃ n, Ended oldProof table
      (dbChallenge .sqlite cfg oldProof table (fun _ => .answered) n) := by
  cases hrows : table.withChallenge oldProof.challenge.val with
  | nil => exact ⟨3, ends_of_missing hrows⟩
  | cons row rest =>
      refine ⟨1, ends_of_found (c := row) ?_⟩
      rw [ChallengeTable.getChallengeByChallenge, hrows]
      rfl

/-- With every call answered, the loop of the Postgres build ends exactly when the table
holds the challenge at most once. -/
theorem dbChallenge_ends_iff (cfg : MineConfig) (oldProof : Proof) (table : ChallengeTable) :
    (∃ n, Ended oldProof table
      (dbChallenge .postgres cfg oldProof table (fun _ => .answered) n)) ↔
      (table.withChallenge oldProof.challenge.val).length ≤ 1 := by
  constructor
  · intro hended
    by_contra hseveral
    exact not_ends_of_several cfg (not_le.mp hseveral) hended
  · intro hlength
    match hrows : table.withChallenge oldProof.challenge.val with
    | [] => exact ⟨3, ends_of_missing hrows⟩
    | [row] => exact ⟨1, ends_of_found (ChallengeTable.getChallengeByChallenge_single hrows)⟩
    | _ :: _ :: _ => simp [hrows] at hlength

end Answered

/-- Two rows of the challenge of zeros. -/
def sampleTable : ChallengeTable where
  rows := [⟨1, 1, none, (Bytes.fill 32 0).val, none⟩, ⟨2, 1, none, (Bytes.fill 32 0).val, none⟩]
  nextId := 3
  ids_lt := by decide
  nodup := by decide

theorem not_ends_sampleTable : ¬ ∀ cfg oldProof table, ∃ n, Ended oldProof table
    (dbChallenge .postgres cfg oldProof table (fun _ => .answered) n) := by
  intro h
  exact not_ends_of_several _ (by decide) (h ⟨1, 1⟩ ⟨.fill 32 0, 0, 0⟩ sampleTable)

end DbChallenge

end Hashpoo
