import Hashpoo.Ledger.System
import Hashpoo.Foundation.Results

/-!
# The contribution behind a challenge

After the calls of a mine success the processor looks up the contribution with the best
nonce and notes it, with the rewards, at the row of the challenge. The lookup goes by the
nonce alone over the contributions of all challenges, and every epoch hands out the same
nonces again. The Sqlite build takes the newest row, which is one of the message's own;
the Postgres build fails unless there is a single row, and the failure is only logged.
-/

namespace Hashpoo

open Foundation

/-! ## The tables -/

inductive PoweredByDbms where
  | postgres
  | sqlite
  deriving DecidableEq

/-- A row of `challenges`. -/
structure ChallengeRow where
  challenge : Challenge
  rewardsEarned : Int
  contributionId : Option Int
  deriving DecidableEq

/-- The tables `contributions`, with the ids of its rows in the order of the insertions, and
`challenges`, whose rows refer to contributions that exist. -/
structure Tables where
  contributions : List (Int × Contribution)
  /-- The next id of the key of `contributions`. -/
  nextContribution : Int
  challenges : List ChallengeRow
  ids_lt : ∀ row ∈ contributions, row.1 < nextContribution
  sorted : contributions.Pairwise fun row row' => row.1 < row'.1
  references : ∀ row ∈ challenges, ∀ id ∈ row.contributionId, id < nextContribution

namespace Tables

variable (tables : Tables)

def insertContribution (c : Contribution) : Tables where
  contributions := tables.contributions ++ [(tables.nextContribution, c)]
  nextContribution := tables.nextContribution + 1
  challenges := tables.challenges
  ids_lt row hrow := by
    obtain hold | hnew := List.mem_append.mp hrow
    · have := tables.ids_lt row hold
      omega
    · cases List.mem_singleton.mp hnew
      exact Int.lt_add_one_iff.mpr le_rfl
  sorted := by
    rw [List.pairwise_append]
    refine ⟨tables.sorted, List.pairwise_singleton _ _, ?_⟩
    intro row hrow row' hrow'
    cases List.mem_singleton.mp hrow'
    exact tables.ids_lt row hrow
  references row hrow id hid := by
    have := tables.references row hrow id hid
    omega

def addNewContributionsBatch (batch : List InsertContribution) : Tables :=
  batch.foldl (fun tables c => tables.insertContribution c.row) tables

/-- What a successful call does to the two tables. -/
def execute : Call → Tables
  | .addNewContributionsBatch batch => tables.addNewContributionsBatch batch
  | .addNewEarningsBatch _ | .updateRewards _ | .updatePoolRewards _ => tables

/-! ## The row of the challenge -/

/-- `SELECT id FROM contributions WHERE contributions.nonce = $1 ORDER BY id DESC`, with
`nonce as i64` for the parameter. -/
def contributionIds (nonce : Nat) : List Int :=
  ((tables.contributions.filter fun row => row.2.nonce = Word.signed 64 nonce).map
    Prod.fst).reverse

/-- `query_row_and_then` of `rusqlite`: the first row. -/
def queryRow {α : Type} : List α → Except DatabaseError α
  | row :: _ => .ok row
  | [] => .error .queryFailed

theorem queryRow_eq_ok {α : Type} {rows : List α} {row : α} :
    queryRow rows = .ok row ↔ ∃ rest, rows = row :: rest := by
  cases rows with
  | nil => simp [queryRow]
  | cons => simp [queryRow]

def getContributionIdWithNonce (dbms : PoweredByDbms) (nonce : Nat) : Except DatabaseError Int :=
  match dbms with
  | .postgres => queryOne (tables.contributionIds nonce)
  | .sqlite => queryRow (tables.contributionIds nonce)

theorem lt_of_mem_contributionIds {tables : Tables} {nonce : Nat} {id : Int}
    (h : id ∈ tables.contributionIds nonce) : id < tables.nextContribution := by
  rw [contributionIds, List.mem_reverse] at h
  obtain ⟨row, hrow, rfl⟩ := List.mem_map.mp h
  exact tables.ids_lt row (List.mem_filter.mp hrow).1

theorem mem_of_getContributionIdWithNonce {tables : Tables} {dbms : PoweredByDbms} {nonce : Nat}
    {id : Int} (h : tables.getContributionIdWithNonce dbms nonce = .ok id) :
    id ∈ tables.contributionIds nonce := by
  cases dbms with
  | postgres =>
      rw [queryOne_eq_ok.mp h]
      exact List.mem_singleton.mpr rfl
  | sqlite =>
      obtain ⟨rest, hids⟩ := queryRow_eq_ok.mp h
      rw [hids]
      exact List.mem_cons_self

/-- `update_challenge_rewards`. An update of other than one row is an error, but stays. -/
def updateChallengeRewards (challenge : Challenge) (contributionId : Int) (rewards : Int)
    (h : contributionId < tables.nextContribution) : Except DatabaseError Unit × Tables :=
  let rows := tables.challenges.filter fun row => row.challenge = challenge
  (if rows.length = 1 then .ok () else .error .failedToUpdateRow,
    { tables with
      challenges := tables.challenges.map fun row =>
        if row.challenge = challenge then
          { row with rewardsEarned := rewards, contributionId := some contributionId }
        else row
      references := by
        intro row hrow id hid
        obtain ⟨old, hold, rfl⟩ := List.mem_map.mp hrow
        split at hid
        · cases hid
          exact h
        · exact tables.references old hold id hid })

/-- The end of the processing: both errors are only logged. -/
def updateChallenge (dbms : PoweredByDbms) (msg : MessageInternalMineSuccess) : Tables :=
  match h : tables.getContributionIdWithNonce dbms msg.bestNonce with
  | .ok id => (tables.updateChallengeRewards msg.challenge id msg.rewards
      (lt_of_mem_contributionIds (mem_of_getContributionIdWithNonce h))).2
  | .error _ => tables

/-- `pool_mine_success_processor` on one message, with calls that all succeed. -/
def poolMineSuccess (dbms : PoweredByDbms) (cfg : MineConfig)
    (msg : MessageInternalMineSuccess) : Except Panic Tables := do
  let calls ← msg.process cfg
  return (calls.foldl execute tables).updateChallenge dbms msg

/-! ## The rows of the message -/

/-- The tables after insertions of the rows. Their ids are new. -/
structure Extends (tables tables' : Tables) (rows : List Contribution) : Prop where
  contributions : ∃ new, tables'.contributions = tables.contributions ++ new ∧
    new.map Prod.snd = rows ∧ ∀ row ∈ new, tables.nextContribution ≤ row.1
  next_le : tables.nextContribution ≤ tables'.nextContribution
  challenges : tables'.challenges = tables.challenges

namespace Extends

variable {tables tables' tables'' : Tables} {rows rows' : List Contribution}

theorem refl (tables : Tables) : tables.Extends tables [] where
  contributions := ⟨[], by simp⟩
  next_le := le_rfl
  challenges := rfl

theorem insert (tables : Tables) (c : Contribution) :
    tables.Extends (tables.insertContribution c) [c] where
  contributions := ⟨[(tables.nextContribution, c)], by simp [insertContribution]⟩
  next_le := (Int.lt_add_one_iff.mpr le_rfl).le
  challenges := rfl

theorem trans (h : tables.Extends tables' rows) (h' : tables'.Extends tables'' rows') :
    tables.Extends tables'' (rows ++ rows') := by
  obtain ⟨new, hcontributions, hrows, hids⟩ := h.contributions
  obtain ⟨new', hcontributions', hrows', hids'⟩ := h'.contributions
  refine ⟨⟨new ++ new', ?_, ?_, ?_⟩, h.next_le.trans h'.next_le,
    h'.challenges.trans h.challenges⟩
  · rw [hcontributions', hcontributions, List.append_assoc]
  · rw [List.map_append, hrows, hrows']
  · intro row hrow
    obtain hnew | hnew' := List.mem_append.mp hrow
    · exact hids row hnew
    · exact h.next_le.trans (hids' row hnew')

/-- Steps that insert rows one after the other insert them all. -/
theorem foldl {α : Type} {step : Tables → α → Tables} {inserted : α → List Contribution}
    (hstep : ∀ (tables : Tables) (a : α), tables.Extends (step tables a) (inserted a))
    (as : List α) (tables : Tables) :
    tables.Extends (as.foldl step tables) (as.flatMap inserted) := by
  induction as generalizing tables with
  | nil => exact refl tables
  | cons a as ih =>
      rw [List.foldl_cons, List.flatMap_cons]
      exact (hstep tables a).trans (ih (step tables a))

end Extends

/-- The rows that a call inserts. -/
def insertedRows : Call → List Contribution
  | .addNewContributionsBatch batch => batch.map InsertContribution.row
  | .addNewEarningsBatch _ | .updateRewards _ | .updatePoolRewards _ => []

theorem execute_extends (tables : Tables) (call : Call) :
    tables.Extends (tables.execute call) (insertedRows call) := by
  cases call with
  | addNewContributionsBatch batch =>
      have h := Extends.foldl (fun (tables : Tables) (c : InsertContribution) =>
        Extends.insert tables c.row) batch tables
      rwa [← List.map_eq_flatMap] at h
  | _ => exact Extends.refl tables

/-- The calls of a message insert the rows of its contributions. -/
theorem flatMap_insertedRows (cfg : MineConfig) (msg : MessageInternalMineSuccess) :
    (msg.calls cfg).flatMap insertedRows = msg.contributionRows := by
  have hbatches : ((chunks MessageInternalMineSuccess.batchSize
      (msg.contributions.values.map msg.insertContribution)).flatMap fun batch =>
        batch.map InsertContribution.row) = msg.contributionRows := by
    rw [List.flatMap_def, ← List.map_flatten, flatten_chunks, List.map_map,
      MessageInternalMineSuccess.contributionRows_eq]
    rfl
  have hnone : ∀ {α : Type} (as : List α), (as.flatMap fun _ => ([] : List Contribution)) = [] :=
    fun as => List.flatMap_eq_nil_iff.mpr fun _ _ => rfl
  simp only [MessageInternalMineSuccess.calls, List.flatMap_append, List.flatMap_map,
    List.flatMap_singleton, insertedRows, hbatches, hnone, List.nil_append, List.append_nil]

/-! ## Which builds find the row -/

variable {tables tables' : Tables} {dbms : PoweredByDbms} {cfg : MineConfig}
  {msg : MessageInternalMineSuccess}

/-- A row of the challenge carries the rewards and refers to a contribution of the message's
challenge with the best nonce. -/
def Recorded (tables : Tables) (msg : MessageInternalMineSuccess) : Prop :=
  ∃ row ∈ tables.challenges, row.challenge = msg.challenge ∧ row.rewardsEarned = msg.rewards ∧
    ∃ x ∈ tables.contributions, row.contributionId = some x.1 ∧
      x.2.nonce = Word.signed 64 msg.bestNonce ∧ x.2.challengeId = msg.challengeId

instance (tables : Tables) (msg : MessageInternalMineSuccess) : Decidable (tables.Recorded msg) :=
  inferInstanceAs (Decidable (∃ row ∈ _, _ ∧ _ ∧ ∃ x ∈ _, _))

/-- The row has the best nonce of the message. -/
def HasNonce (msg : MessageInternalMineSuccess) (row : Contribution) : Prop :=
  row.nonce = Word.signed 64 msg.bestNonce

instance (msg : MessageInternalMineSuccess) : DecidablePred (HasNonce msg) :=
  fun _ => inferInstanceAs (Decidable (_ = _))

/-- What the calls of the message leave for the lookup: the new rows come before the old
ones, and one of them has the best nonce. -/
structure Awaits (tables mid : Tables) (msg : MessageInternalMineSuccess)
    (new : List (Int × Contribution)) : Prop where
  contributions : mid.contributions = tables.contributions ++ new
  rows : new.map Prod.snd = msg.contributionRows
  ids : ∀ row ∈ new, tables.nextContribution ≤ row.1
  challenges : mid.challenges = tables.challenges

theorem exists_awaits (cfg : MineConfig) (msg : MessageInternalMineSuccess) (tables : Tables) :
    ∃ new, tables.Awaits ((msg.calls cfg).foldl execute tables) msg new := by
  have h := Extends.foldl execute_extends (msg.calls cfg) tables
  rw [flatMap_insertedRows] at h
  obtain ⟨new, hcontributions, hrows, hids⟩ := h.contributions
  exact ⟨new, hcontributions, hrows, hids, h.challenges⟩

namespace Awaits

variable {mid : Tables} {new : List (Int × Contribution)}

theorem contributionIds (h : tables.Awaits mid msg new) : mid.contributionIds msg.bestNonce =
    ((new.filter fun row => HasNonce msg row.2).map Prod.fst).reverse ++
      ((tables.contributions.filter fun row => HasNonce msg row.2).map Prod.fst).reverse := by
  rw [Tables.contributionIds, h.contributions, List.filter_append, List.map_append,
    List.reverse_append]
  rfl

/-- A new row belongs to the challenge of the message. -/
theorem challengeId (h : tables.Awaits mid msg new) {x : Int × Contribution} (hx : x ∈ new) :
    x.2.challengeId = msg.challengeId := by
  have hrow : x.2 ∈ msg.contributionRows := by
    rw [← h.rows]
    exact List.mem_map_of_mem hx
  obtain ⟨c, -, hc⟩ := List.mem_map.mp hrow
  rw [← hc]

/-- The number of new rows with the best nonce. -/
theorem length_filter (h : tables.Awaits mid msg new) :
    (new.filter fun row => HasNonce msg row.2).length =
      (msg.contributionRows.filter fun row => HasNonce msg row).length := by
  rw [← h.rows, List.filter_map, List.length_map]
  rfl

/-- A lookup that finds a new row leads to the record. -/
theorem recorded (h : tables.Awaits mid msg new)
    (hone : ∃ row ∈ tables.challenges, row.challenge = msg.challenge) {x : Int × Contribution}
    (hx : x ∈ new) (hnonce : HasNonce msg x.2)
    (hfound : mid.getContributionIdWithNonce dbms msg.bestNonce = .ok x.1) :
    (mid.updateChallenge dbms msg).Recorded msg := by
  have hmem : x ∈ mid.contributions := by
    rw [h.contributions]
    exact List.mem_append_right _ hx
  obtain ⟨row, hrow, hchallenge⟩ := hone
  rw [← h.challenges] at hrow
  rw [updateChallenge]
  split
  · next id hid =>
    cases hfound.symm.trans hid
    refine ⟨⟨row.challenge, msg.rewards, some x.1⟩, ?_, hchallenge, rfl, x, hmem, rfl, hnonce,
      h.challengeId hx⟩
    exact List.mem_map.mpr ⟨row, hrow, if_pos hchallenge⟩
  · next e he => cases hfound.symm.trans he

/-- After a failed lookup the row does not refer to a contribution of this challenge: what
it refers to is older than the message. -/
theorem not_recorded (h : tables.Awaits mid msg new)
    (hold : ∀ row ∈ tables.contributions, row.2.challengeId ≠ msg.challengeId) {e : DatabaseError}
    (hfailed : mid.getContributionIdWithNonce dbms msg.bestNonce = .error e) :
    ¬ (mid.updateChallenge dbms msg).Recorded msg := by
  rw [updateChallenge]
  split
  · next id hid => cases hfailed.symm.trans hid
  · rintro ⟨row, hrow, -, -, x, hx, hreference, -, hchallenge⟩
    rw [h.challenges] at hrow
    rw [h.contributions] at hx
    obtain hx | hx := List.mem_append.mp hx
    · exact hold x hx hchallenge
    · have hlt := tables.references row hrow x.1 hreference
      have hle := h.ids x hx
      omega

/-- The new rows have the best nonce among them. -/
theorem filter_ne_nil (h : tables.Awaits mid msg new)
    (hbest : ∃ c ∈ msg.contributions.values, c.suppliedNonce = msg.bestNonce) :
    (new.filter fun row => HasNonce msg row.2) ≠ [] := by
  rw [← List.length_pos_iff, h.length_filter, List.length_pos_iff]
  obtain ⟨c, hc, hnonce⟩ := hbest
  refine List.ne_nil_of_mem (a := (msg.insertContribution c).row) ?_
  rw [MessageInternalMineSuccess.contributionRows_eq]
  refine List.mem_filter.mpr ⟨List.mem_map_of_mem hc, ?_⟩
  simp [HasNonce, InsertContribution.row, MessageInternalMineSuccess.insertContribution, hnonce]

/-- The Sqlite build takes the newest row, which is the last one with the nonce among the new
rows. -/
theorem recorded_sqlite (h : tables.Awaits mid msg new)
    (hone : ∃ row ∈ tables.challenges, row.challenge = msg.challenge)
    (hne : (new.filter fun row => HasNonce msg row.2) ≠ []) :
    (mid.updateChallenge .sqlite msg).Recorded msg := by
  obtain ⟨init, x, hx⟩ := List.eq_nil_or_concat' _ |>.resolve_left hne
  have hmem : x ∈ new.filter fun row => HasNonce msg row.2 := by
    rw [hx]
    simp
  obtain ⟨hnew, hnonce⟩ := List.mem_filter.mp hmem
  have hfirst : queryRow (mid.contributionIds msg.bestNonce) = .ok x.1 := by
    rw [h.contributionIds, hx, List.map_append, List.reverse_append]
    rfl
  exact h.recorded hone hnew (by simpa using hnonce) hfirst

/-- The Postgres build needs a sole row with the nonce. -/
theorem recorded_postgres_iff (h : tables.Awaits mid msg new)
    (hone : ∃ row ∈ tables.challenges, row.challenge = msg.challenge)
    (hold : ∀ row ∈ tables.contributions, row.2.challengeId ≠ msg.challengeId)
    (hne : (new.filter fun row => HasNonce msg row.2) ≠ []) :
    (mid.updateChallenge .postgres msg).Recorded msg ↔
      (∀ row ∈ tables.contributions, ¬ HasNonce msg row.2) ∧
        (new.filter fun row => HasNonce msg row.2).length = 1 := by
  have hpos := List.length_pos_iff.mpr hne
  constructor
  · intro hrecorded
    cases hfound : mid.getContributionIdWithNonce .postgres msg.bestNonce with
    | error e => exact absurd hrecorded (h.not_recorded hold hfound)
    | ok id =>
        have hlength := congrArg List.length h.contributionIds
        rw [queryOne_eq_ok.mp hfound, List.length_singleton, List.length_append,
          List.length_reverse, List.length_map, List.length_reverse, List.length_map] at hlength
        have hnone : (tables.contributions.filter fun row => HasNonce msg row.2) = [] :=
          List.length_eq_zero_iff.mp (by omega)
        refine ⟨fun row hrow => ?_, by omega⟩
        simpa using List.filter_eq_nil_iff.mp hnone row hrow
  · rintro ⟨hnone, hsingle⟩
    obtain ⟨x, hx⟩ := List.length_eq_one_iff.mp hsingle
    have hmem : x ∈ new.filter fun row => HasNonce msg row.2 := by
      rw [hx]
      exact List.mem_singleton.mpr rfl
    have hempty : (tables.contributions.filter fun row => HasNonce msg row.2) = [] := by
      simpa using hnone
    obtain ⟨hnew, hnonce⟩ := List.mem_filter.mp hmem
    have hsole : queryOne (mid.contributionIds msg.bestNonce) = .ok x.1 := by
      rw [h.contributionIds, hx, hempty]
      rfl
    exact h.recorded hone hnew (by simpa using hnonce) hsole

end Awaits

/-- After a message without a panic the calls have been made, and then the update of the row
of the challenge. -/
theorem poolMineSuccess_eq (h : tables.poolMineSuccess dbms cfg msg = .ok tables') :
    tables' = ((msg.calls cfg).foldl execute tables).updateChallenge dbms msg := by
  obtain ⟨calls, hcalls, hresult⟩ := bind_eq_ok.mp h
  rw [← MessageInternalMineSuccess.process_eq_ok hcalls]
  exact (pure_eq_ok.mp hresult).symm

/-- The Sqlite build always records the contribution. The Postgres build does exactly when no
older row has the best nonce and one contribution of the message alone has it. -/
theorem recorded_iff (dbms : PoweredByDbms) (cfg : MineConfig)
    (msg : MessageInternalMineSuccess) (tables tables' : Tables)
    (h : tables.poolMineSuccess dbms cfg msg = .ok tables')
    (hbest : ∃ c ∈ msg.contributions.values, c.suppliedNonce = msg.bestNonce)
    (hold : ∀ row ∈ tables.contributions, row.2.challengeId ≠ msg.challengeId)
    (hone : (tables.challenges.filter fun row => row.challenge = msg.challenge).length = 1) :
    tables'.Recorded msg ↔ dbms = .sqlite ∨
      (∀ row ∈ tables.contributions, ¬ HasNonce msg row.2) ∧
        (msg.contributionRows.filter fun row => HasNonce msg row).length = 1 := by
  have hmid := poolMineSuccess_eq h
  obtain ⟨new, hawaits⟩ := exists_awaits cfg msg tables
  generalize (msg.calls cfg).foldl execute tables = mid at hmid hawaits
  subst hmid
  have hchallenge : ∃ row ∈ tables.challenges, row.challenge = msg.challenge := by
    obtain ⟨row, hrow⟩ := List.length_eq_one_iff.mp hone
    have hmem : row ∈ tables.challenges.filter fun row => row.challenge = msg.challenge := by
      rw [hrow]
      exact List.mem_singleton.mpr rfl
    exact ⟨row, (List.mem_filter.mp hmem).1, by simpa using (List.mem_filter.mp hmem).2⟩
  have hne := hawaits.filter_ne_nil hbest
  cases dbms with
  | sqlite => exact iff_of_true (hawaits.recorded_sqlite hchallenge hne) (.inl rfl)
  | postgres =>
      rw [hawaits.recorded_postgres_iff hchallenge hold hne, hawaits.length_filter]
      exact (or_iff_right PoweredByDbms.noConfusion).symm

/-- The tables before a message of challenge 1, with a contribution of challenge 0. -/
def sample (nonce : Int) : Tables where
  contributions := [(1, ⟨1000, 0, nonce, .fill 16 0, 9⟩)]
  nextContribution := 2
  challenges := [⟨.fill 32 0, 0, none⟩]
  ids_lt row hrow := by
    cases List.mem_singleton.mp hrow
    exact Int.lt_succ 1
  sorted := List.pairwise_singleton _ _
  references row hrow id hid := by
    cases List.mem_singleton.mp hrow
    cases hid

theorem recorded_sample : ∃ tables', (sample 8).poolMineSuccess .postgres ⟨1, 999⟩
    MessageInternalMineSuccess.sample = .ok tables' ∧
      tables'.Recorded MessageInternalMineSuccess.sample :=
  ⟨_, rfl, (recorded_iff .postgres ⟨1, 999⟩ MessageInternalMineSuccess.sample (sample 8) _ rfl
    (by decide) (by decide) (by decide)).mpr (.inr (by decide))⟩

/-- The best nonce was a contribution's nonce in an earlier epoch. -/
theorem not_recorded_reusedNonce : ¬ ∀ (dbms : PoweredByDbms) (cfg : MineConfig)
    (msg : MessageInternalMineSuccess) (tables tables' : Tables),
    tables.poolMineSuccess dbms cfg msg = .ok tables' →
    (∃ c ∈ msg.contributions.values, c.suppliedNonce = msg.bestNonce) →
    (∀ row ∈ tables.contributions, row.2.challengeId ≠ msg.challengeId) →
    (tables.challenges.filter fun row => row.challenge = msg.challenge).length = 1 →
    tables'.Recorded msg := by
  intro h
  have hrecorded := h .postgres ⟨1, 999⟩ MessageInternalMineSuccess.sample (sample 40_000_007) _
    rfl (by decide) (by decide) (by decide)
  revert hrecorded
  decide

end Tables

end Hashpoo
