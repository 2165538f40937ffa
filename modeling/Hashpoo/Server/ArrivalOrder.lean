import Hashpoo.Foundation.Records
import Hashpoo.Server.EpochHashes
import Hashpoo.Server.Rewards

/-!
# The order of arrival

Of two equally good submissions of a key the first one stays, so the nonces and digests an
epoch ends with depend on the order in which the submissions arrive. What is paid does
not: a summary of the epoch mentions the submissions by membership only, and it determines
the standing of every key.
-/

namespace Hashpoo

open Foundation

/-! ## Maps that agree -/

namespace HashMap

variable {K V W : Type} [DecidableEq K]

/-- Maps that agree on every key have the same values, in some order. -/
theorem values_map_perm {m m' : HashMap K V} {f : V → W}
    (h : ∀ k, (m.lookup k).map f = (m'.lookup k).map f) :
    ((values m).map f).Perm ((values m').map f) := by
  let pair : (Σ _ : K, V) → K × W := fun e => (e.1, f e.2)
  have hnodup : ∀ n : HashMap K V, (n.entries.map pair).Nodup := by
    intro n
    refine List.Nodup.of_map Prod.fst ?_
    rw [List.map_map]
    exact n.nodupKeys
  have hmem : ∀ (n : HashMap K V) (p : K × W),
      p ∈ n.entries.map pair ↔ (n.lookup p.1).map f = some p.2 := by
    rintro n ⟨k, w⟩
    constructor
    · intro hp
      obtain ⟨⟨k', v⟩, hentry, hpair⟩ := List.mem_map.mp hp
      cases hpair
      rw [AList.mem_lookup_iff.mpr hentry]
      rfl
    · intro hp
      obtain ⟨v, hv, rfl⟩ := Option.map_eq_some_iff.mp hp
      exact List.mem_map.mpr ⟨⟨k, v⟩, AList.mem_lookup_iff.mp hv, rfl⟩
  have hpairs : (m.entries.map pair).Perm (m'.entries.map pair) := by
    refine (List.perm_ext_iff_of_nodup (hnodup m) (hnodup m')).mpr fun p => ?_
    rw [hmem, hmem, h]
  have hvalues := hpairs.map Prod.snd
  rw [List.map_map, List.map_map] at hvalues
  rw [values, values, List.map_map, List.map_map]
  exact hvalues

end HashMap

/-- The total only depends on the multiset of the hashpowers. -/
theorem totalHashpower_perm {contributions contributions' : Contributions}
    (h : (contributions.values.map InternalMessageContribution.hashpower).Perm
      (contributions'.values.map InternalMessageContribution.hashpower)) :
    totalHashpower contributions = totalHashpower contributions' := by
  let add (total hashpower : Nat) : Nat := Word.unsigned 64 ((total : Int) + hashpower)
  have hfold : ∀ contributions : Contributions, totalHashpower contributions =
      (contributions.values.map InternalMessageContribution.hashpower).foldl add 0 := by
    intro contributions
    rw [totalHashpower, List.foldl_map]
  rw [hfold, hfold]
  refine h.foldl_eq' (fun x _ y _ total => ?_) 0
  simp only [add, Word.unsigned_add_left]
  rw [add_right_comm]

/-- The earning in the message of the landed-tx task. The submitted solution does not
enter it. -/
theorem mineSuccess_earned (drillx : Drillx) (old latest : Proof) (solution : Solution)
    (contributions : Contributions) (challengeId : Int) (c : InternalMessageContribution) :
    (mineSuccess drillx old latest solution contributions challengeId).earned c =
      earnedRewards c.hashpower (totalHashpower contributions)
        (Word.signed 64 (poolRewards latest.balance old.balance -
          commissionsOf (poolRewards latest.balance old.balance))) := by
  have hcomputed := mineSuccess_computed drillx old latest solution contributions challengeId
  rw [MessageInternalMineSuccess.earned, MessageInternalMineSuccess.totalRewards,
    hcomputed.totalHashpower, hcomputed.commissions, mineSuccess_rewards,
    mineSuccess_contributions]

/-! ## What the payout depends on -/

/-- What the payout of a key depends on. -/
structure Standing where
  minerId : Int
  suppliedDiff : Nat
  hashpower : Nat
  deriving DecidableEq

def InternalMessageContribution.standing (c : InternalMessageContribution) : Standing :=
  ⟨c.minerId, c.suppliedDiff, c.hashpower⟩

namespace EpochHashes

/-- The key's standing at the end of the epoch. -/
def standing (e : EpochHashes) (pubkey : Pubkey) : Option Standing :=
  (e.contributions.lookup pubkey).map InternalMessageContribution.standing

theorem standing_of_lookup {e : EpochHashes} {pubkey : Pubkey} {c : InternalMessageContribution}
    (h : e.contributions.lookup pubkey = some c) : e.standing pubkey = some c.standing := by
  rw [standing, h, Option.map_some]

theorem standing_of_lookup_none {e : EpochHashes} {pubkey : Pubkey}
    (h : e.contributions.lookup pubkey = none) : e.standing pubkey = none := by
  rw [standing, h, Option.map_none]

theorem standing_record_self {e : EpochHashes} {pubkey : Pubkey} {c : InternalMessageContribution}
    {solution : Solution} : (e.record pubkey c solution).standing pubkey = some c.standing := by
  apply standing_of_lookup
  rw [record_contributions, AList.lookup_insert]

theorem standing_record_of_ne {e : EpochHashes} {pubkey pubkey' : Pubkey}
    {c : InternalMessageContribution} {solution : Solution} (h : pubkey' ≠ pubkey) :
    (e.record pubkey c solution).standing pubkey' = e.standing pubkey' := by
  rw [standing, record_contributions, AList.lookup_insert_ne h, standing]

theorem record_difficulty {e : EpochHashes} {pubkey : Pubkey} {c : InternalMessageContribution}
    {solution : Solution} : (e.record pubkey c solution).bestHash.difficulty =
      max e.bestHash.difficulty c.suppliedDiff := by
  obtain hlt | hle := Nat.lt_or_ge e.bestHash.difficulty c.suppliedDiff
  · rw [record_bestHash_of_lt pubkey solution hlt, max_eq_right (le_of_lt hlt)]
  · rw [record_bestHash_of_le pubkey solution hle, max_eq_left hle]

/-- Two ends of an epoch that pay the same: to the same keys, for the same difficulties. -/
structure SamePayout (e e' : EpochHashes) : Prop where
  standing : ∀ pubkey, e.standing pubkey = e'.standing pubkey
  difficulty : e.bestHash.difficulty = e'.bestHash.difficulty

namespace SamePayout

variable {e e' : EpochHashes}

theorem hashpower (h : e.SamePayout e') (pubkey : Pubkey) :
    (e.contributions.lookup pubkey).map InternalMessageContribution.hashpower =
      (e'.contributions.lookup pubkey).map InternalMessageContribution.hashpower := by
  have hstanding := congrArg (Option.map Standing.hashpower) (h.standing pubkey)
  rwa [EpochHashes.standing, EpochHashes.standing, Option.map_map, Option.map_map] at hstanding

theorem totalHashpower (h : e.SamePayout e') :
    Hashpoo.totalHashpower e.contributions = Hashpoo.totalHashpower e'.contributions :=
  totalHashpower_perm (HashMap.values_map_perm h.hashpower)

/-- Whatever solutions the two ends submit, the messages to `pool_mine_success_processor`
give every key the same share of the same reward. -/
theorem earned (h : e.SamePayout e') (drillx : Drillx) (old latest : Proof)
    (solution solution' : Solution) (challengeId challengeId' : Int) (pubkey : Pubkey) :
    (e.contributions.lookup pubkey).map
        (mineSuccess drillx old latest solution e.contributions challengeId).earned =
      (e'.contributions.lookup pubkey).map
        (mineSuccess drillx old latest solution' e'.contributions challengeId').earned := by
  have hhashpower := h.hashpower pubkey
  cases hc : e.contributions.lookup pubkey with
  | none =>
      cases hc' : e'.contributions.lookup pubkey with
      | none => rw [Option.map_none, Option.map_none]
      | some c' => simp [hc, hc'] at hhashpower
  | some c =>
      cases hc' : e'.contributions.lookup pubkey with
      | none => simp [hc, hc'] at hhashpower
      | some c' =>
          have heq : c.hashpower = c'.hashpower := by simpa [hc, hc'] using hhashpower
          rw [Option.map_some, Option.map_some, mineSuccess_earned, mineSuccess_earned, heq,
            h.totalHashpower]

end SamePayout

end EpochHashes

/-! ## Summary of the submissions -/

namespace ContributionsContext

variable {ctx : ContributionsContext} {e e' : EpochHashes} {ms ms' : List ClientBestSolution}
  {m : ClientBestSolution}

/-- The miner whose socket the submission comes from. -/
def minerId (ctx : ContributionsContext) (m : ClientBestSolution) : Option Int :=
  (ctx.sockets.lookup m.addr).map ClientConnection.minerId

/-- The standing is that of the best of the key's submissions. -/
structure Best (ctx : ContributionsContext) (ms : List ClientBestSolution) (pubkey : Pubkey)
    (standing : Standing) : Prop where
  attained : ∃ m ∈ ms, m.pubkey = pubkey ∧ ctx.minerId m = some standing.minerId ∧
    ctx.drillx.difficulty m.solution = standing.suppliedDiff
  greatest : ∀ m ∈ ms, m.pubkey = pubkey →
    ctx.drillx.difficulty m.solution ≤ standing.suppliedDiff
  hashpower : standing.hashpower = contributionHashpower standing.suppliedDiff

/-- The epoch holds the best of every key's submissions, and `best_hash` the best of all. -/
structure Summary (ctx : ContributionsContext) (ms : List ClientBestSolution)
    (e : EpochHashes) : Prop where
  absent : ∀ pubkey, e.standing pubkey = none → ∀ m ∈ ms, m.pubkey ≠ pubkey
  best : ∀ pubkey standing, e.standing pubkey = some standing → ctx.Best ms pubkey standing
  difficulty : e.bestHash.difficulty = peak (fun m => ctx.drillx.difficulty m.solution) 0 ms

/-- Each pubkey submits from sockets with the same miner. -/
def SameMiner (ctx : ContributionsContext) (ms : List ClientBestSolution) : Prop :=
  ∀ m ∈ ms, ∀ m' ∈ ms, m.pubkey = m'.pubkey → ctx.minerId m = ctx.minerId m'

theorem Best.perm {pubkey : Pubkey} {standing : Standing} (h : ctx.Best ms pubkey standing)
    (hperm : ms.Perm ms') : ctx.Best ms' pubkey standing where
  attained := by
    obtain ⟨m, hm, hstanding⟩ := h.attained
    exact ⟨m, hperm.mem_iff.mp hm, hstanding⟩
  greatest m hm := h.greatest m (hperm.mem_iff.mpr hm)
  hashpower := h.hashpower

theorem Summary.perm (h : ctx.Summary ms e) (hperm : ms.Perm ms') : ctx.Summary ms' e where
  absent pubkey hnone m hm := h.absent pubkey hnone m (hperm.mem_iff.mpr hm)
  best pubkey standing hsome := (h.best pubkey standing hsome).perm hperm
  difficulty := h.difficulty.trans (peak_perm hperm)

/-- The submissions determine the standing. -/
theorem Best.unique {pubkey : Pubkey} {standing standing' : Standing}
    (h : ctx.Best ms pubkey standing) (h' : ctx.Best ms pubkey standing')
    (hminer : ctx.SameMiner ms) : standing = standing' := by
  obtain ⟨m, hm, hkey, hid, hdiff⟩ := h.attained
  obtain ⟨m', hm', hkey', hid', hdiff'⟩ := h'.attained
  have hminerId : standing.minerId = standing'.minerId := by
    have hsame := hminer m hm m' hm' (hkey.trans hkey'.symm)
    rw [hid, hid'] at hsame
    exact Option.some.inj hsame
  have hsupplied : standing.suppliedDiff = standing'.suppliedDiff := by
    have hle := h'.greatest m hm hkey
    have hge := h.greatest m' hm' hkey'
    omega
  have hhashpower : standing.hashpower = standing'.hashpower := by
    rw [h.hashpower, h'.hashpower, hsupplied]
  cases standing
  cases standing'
  cases hminerId
  cases hsupplied
  cases hhashpower
  rfl

/-- Two summaries of the same submissions pay the same. -/
theorem Summary.samePayout (h : ctx.Summary ms e) (h' : ctx.Summary ms e')
    (hminer : ctx.SameMiner ms) : e.SamePayout e' where
  standing pubkey := by
    cases hs : e.standing pubkey with
    | none =>
        cases hs' : e'.standing pubkey with
        | none => rfl
        | some standing' =>
            obtain ⟨m, hm, hkey, -⟩ := (h'.best pubkey standing' hs').attained
            exact absurd hkey (h.absent pubkey hs m hm)
    | some standing =>
        have hbest := h.best pubkey standing hs
        cases hs' : e'.standing pubkey with
        | none =>
            obtain ⟨m, hm, hkey, -⟩ := hbest.attained
            exact absurd hkey (h'.absent pubkey hs' m hm)
        | some standing' =>
            rw [hbest.unique (h'.best pubkey standing' hs') hminer]
  difficulty := h.difficulty.trans h'.difficulty.symm

theorem summary_fresh (challenge : Challenge) : ctx.Summary [] (.fresh challenge) where
  absent _ _ m hm := absurd hm List.not_mem_nil
  best pubkey standing hsome := by simp [EpochHashes.standing, EpochHashes.fresh] at hsome
  difficulty := rfl

/-! ## One submission, and many -/

/-- An acceptable submission is recorded when the snapshot admits it. -/
theorem handleContribution_of_acceptable (h : ctx.Acceptable m) : ∃ conn,
    ctx.sockets.lookup m.addr = some conn ∧ ctx.handleContribution e m =
      (if admits e.contributions m.pubkey (ctx.drillx.difficulty m.solution) then
        e.record m.pubkey (.of ctx.drillx conn.minerId m.solution) m.solution
      else e, .continue) := by
  obtain ⟨nonceRange, hrange, hnonce⟩ := h.range
  obtain ⟨conn, hconn⟩ := h.connected
  refine ⟨conn, hconn, ?_⟩
  simp only [handleContribution, ge_iff_le, h.difficulty, if_true, hrange, hnonce, hconn, h.valid]
  split <;> rfl

/-- The best of a key stays the best as long as no better submission of the key follows. -/
theorem Best.concat {pubkey : Pubkey} {standing : Standing} (h : ctx.Best ms pubkey standing)
    (hle : m.pubkey = pubkey → ctx.drillx.difficulty m.solution ≤ standing.suppliedDiff) :
    ctx.Best (ms ++ [m]) pubkey standing where
  attained := by
    obtain ⟨m', hm', hattained⟩ := h.attained
    exact ⟨m', List.mem_append_left _ hm', hattained⟩
  greatest m' hm' hkey := by
    obtain hold | hnew := List.mem_append.mp hm'
    · exact h.greatest m' hold hkey
    · cases List.mem_singleton.mp hnew
      exact hle hkey
  hashpower := h.hashpower

theorem Summary.absent_concat (h : ctx.Summary ms e) {pubkey : Pubkey}
    (hnone : e.standing pubkey = none) (hkey : m.pubkey ≠ pubkey) :
    ∀ m' ∈ ms ++ [m], m'.pubkey ≠ pubkey := by
  intro m' hm'
  obtain hold | hnew := List.mem_append.mp hm'
  · exact h.absent pubkey hnone m' hold
  · cases List.mem_singleton.mp hnew
    exact hkey

/-- What the snapshot admits is better than all of the key's submissions so far. -/
theorem Summary.lt_of_admits (h : ctx.Summary ms e) {pubkey : Pubkey} {diff : Nat}
    (hadmits : admits e.contributions pubkey diff) {m : ClientBestSolution} (hm : m ∈ ms)
    (hkey : m.pubkey = pubkey) : ctx.drillx.difficulty m.solution < diff := by
  cases hentry : e.contributions.lookup pubkey with
  | none => exact absurd hkey (h.absent pubkey (EpochHashes.standing_of_lookup_none hentry) m hm)
  | some oldSub =>
      have hbest := h.best pubkey oldSub.standing (EpochHashes.standing_of_lookup hentry)
      exact lt_of_le_of_lt (hbest.greatest m hm hkey) (admits_of_lookup hadmits hentry)

/-- A better submission takes the place of the key's old entry. -/
theorem Summary.record (h : ctx.Summary ms e) {conn : ClientConnection}
    (hconn : ctx.sockets.lookup m.addr = some conn)
    (hadmits : admits e.contributions m.pubkey (ctx.drillx.difficulty m.solution)) :
    ctx.Summary (ms ++ [m])
      (e.record m.pubkey (.of ctx.drillx conn.minerId m.solution) m.solution) := by
  let c := InternalMessageContribution.of ctx.drillx conn.minerId m.solution
  refine ⟨?_, ?_, ?_⟩
  · intro pubkey hnone
    by_cases hkey : pubkey = m.pubkey
    · rw [hkey, EpochHashes.standing_record_self] at hnone
      cases hnone
    · rw [EpochHashes.standing_record_of_ne hkey] at hnone
      exact h.absent_concat hnone (Ne.symm hkey)
  · intro pubkey standing hsome
    by_cases hkey : pubkey = m.pubkey
    · subst hkey
      rw [EpochHashes.standing_record_self] at hsome
      cases hsome
      have hminer : ctx.minerId m = some c.standing.minerId := by
        rw [minerId, hconn]
        rfl
      refine ⟨⟨m, by simp, rfl, hminer, rfl⟩, ?_, rfl⟩
      intro m' hm' hkey
      obtain hold | hnew := List.mem_append.mp hm'
      · exact le_of_lt (h.lt_of_admits hadmits hold hkey)
      · cases List.mem_singleton.mp hnew
        exact le_rfl
    · rw [EpochHashes.standing_record_of_ne hkey] at hsome
      exact (h.best pubkey standing hsome).concat fun hm => absurd hm.symm hkey
  · rw [EpochHashes.record_difficulty, peak_concat, ← h.difficulty]
    rfl

/-- A submission that the snapshot refuses is no better than what its key has. -/
theorem Summary.refused (h : ctx.Summary ms e)
    (hadmits : admits e.contributions m.pubkey (ctx.drillx.difficulty m.solution) = false) :
    ctx.Summary (ms ++ [m]) e := by
  obtain ⟨oldSub, hentry, hle⟩ : ∃ oldSub, e.contributions.lookup m.pubkey = some oldSub ∧
      ctx.drillx.difficulty m.solution ≤ oldSub.suppliedDiff := by
    cases hentry : e.contributions.lookup m.pubkey with
    | none => simp [admits, hentry] at hadmits
    | some oldSub => exact ⟨oldSub, rfl, by simpa [admits, hentry] using hadmits⟩
  have hold : e.standing m.pubkey = some oldSub.standing := EpochHashes.standing_of_lookup hentry
  refine ⟨?_, ?_, ?_⟩
  · intro pubkey hnone
    refine h.absent_concat hnone ?_
    rintro rfl
    rw [hold] at hnone
    cases hnone
  · intro pubkey standing hsome
    refine (h.best pubkey standing hsome).concat ?_
    rintro rfl
    rw [hold] at hsome
    cases hsome
    exact hle
  · -- The entry of the key is one of the submissions that `best_hash` has seen.
    obtain ⟨m', hm', -, -, hdiff⟩ := (h.best m.pubkey oldSub.standing hold).attained
    let key (m : ClientBestSolution) : Nat := ctx.drillx.difficulty m.solution
    have hpeak : key m' ≤ peak key 0 ms := key_le_peak hm'
    rw [show key m' = oldSub.suppliedDiff from hdiff] at hpeak
    rw [peak_concat, max_eq_left (le_trans hle hpeak), h.difficulty]

theorem Summary.handleContribution (h : ctx.Summary ms e) (hm : ctx.Acceptable m) :
    ctx.Summary (ms ++ [m]) (ctx.handleContribution e m).1 := by
  obtain ⟨conn, hconn, hhandle⟩ := handleContribution_of_acceptable (e := e) hm
  rw [hhandle]
  cases hadmits : admits e.contributions m.pubkey (ctx.drillx.difficulty m.solution) with
  | true => exact h.record hconn hadmits
  | false => exact h.refused hadmits

theorem Summary.clientContributionsProcessor (h : ctx.Summary ms e)
    (hms' : ∀ m ∈ ms', ctx.Acceptable m) :
    ctx.Summary (ms ++ ms') (ctx.clientContributionsProcessor e ms').1 := by
  induction ms' generalizing ms e with
  | nil => rwa [List.append_nil]
  | cons m ms' ih =>
      obtain ⟨hm, hrest⟩ := List.forall_mem_cons.mp hms'
      rw [clientContributionsProcessor_cons_continue hm.ranged, List.append_cons]
      exact ih (h.handleContribution hm) hrest

/-- In whatever order the submissions of an epoch arrive, the epoch ends with the best of
each key, with the same total hashpower, and with the same share for every key. -/
theorem payout_perm (ctx : ContributionsContext) (challenge : Challenge)
    (ms ms' : List ClientBestSolution) (hacceptable : ∀ m ∈ ms, ctx.Acceptable m)
    (hminer : ctx.SameMiner ms) (hperm : ms.Perm ms') :
    let (e, flow) := ctx.clientContributionsProcessor (.fresh challenge) ms
    let (e', flow') := ctx.clientContributionsProcessor (.fresh challenge) ms'
    flow = .continue ∧ flow' = .continue ∧ ctx.Summary ms e ∧ e.SamePayout e' ∧
      totalHashpower e.contributions = totalHashpower e'.contributions ∧
      ∀ drillx old latest solution solution' challengeId challengeId' pubkey,
        (e.contributions.lookup pubkey).map
          (mineSuccess drillx old latest solution e.contributions challengeId).earned =
        (e'.contributions.lookup pubkey).map
          (mineSuccess drillx old latest solution' e'.contributions challengeId').earned := by
  have hacceptable' : ∀ m ∈ ms', ctx.Acceptable m :=
    fun m hm => hacceptable m (hperm.mem_iff.mpr hm)
  have hflow := clientContributionsProcessor_continue_iff (e := .fresh challenge) |>.mpr
    fun m hm => (hacceptable m hm).ranged
  have hflow' := clientContributionsProcessor_continue_iff (e := .fresh challenge) |>.mpr
    fun m hm => (hacceptable' m hm).ranged
  have hsummary := (summary_fresh challenge).clientContributionsProcessor hacceptable
  have hsummary' := (summary_fresh challenge).clientContributionsProcessor hacceptable'
  rw [List.nil_append] at hsummary hsummary'
  have hsame := hsummary.samePayout (hsummary'.perm hperm.symm) hminer
  exact ⟨hflow, hflow', hsummary, hsame, hsame.totalHashpower, hsame.earned⟩

/-- A second submission of the same nonce, with another digest. -/
def sampleResubmission : ClientBestSolution := ⟨0, ⟨.fill 16 1, .fill 8 0⟩, .fill 32 1⟩

theorem sampleResubmission_acceptable : sampleContext.Acceptable sampleResubmission where
  difficulty := by decide
  range := ⟨⟨0, nonceRangeSize⟩, rfl, by decide⟩
  connected := ⟨⟨.fill 32 1, 1, 0⟩, rfl⟩
  valid := rfl

theorem payout_perm_swap :
    (sampleContext.clientContributionsProcessor (.fresh (.fill 32 0))
      [sampleSubmission, sampleResubmission]).1.SamePayout
    (sampleContext.clientContributionsProcessor (.fresh (.fill 32 0))
      [sampleResubmission, sampleSubmission]).1 :=
  (payout_perm sampleContext (.fill 32 0) _ _
    (by simp [sampleSubmission_acceptable, sampleResubmission_acceptable])
    (by simp [SameMiner, minerId, sampleSubmission, sampleResubmission])
    (.swap sampleResubmission sampleSubmission [])).2.2.2.1

end ContributionsContext

end Hashpoo
