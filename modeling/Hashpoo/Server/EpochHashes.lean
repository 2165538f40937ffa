import Hashpoo.Server.Contributions
import Mathlib.Data.List.MinMax

/-!
# The epoch and its best hash

`best_hash` caches what the contributions determine: the greatest supplied difficulty
and a solution that has it. The write section keeps the two in step, provided that the
snapshot it was decided on still admits the entry when it is written.
-/

namespace Hashpoo

open Foundation

/-! ## The solution of an entry -/

/-- `Solution::new(supplied_digest, supplied_nonce.to_le_bytes())`: the pair an entry
holds. -/
def InternalMessageContribution.solution (c : InternalMessageContribution) : Solution :=
  ⟨c.suppliedDigest, ⟨Word.toLeBytes 8 c.suppliedNonce, Word.length_toLeBytes 8 _⟩⟩

/-- Digest and nonce determine the pair. -/
theorem InternalMessageContribution.solution_eq {c : InternalMessageContribution} {s : Solution}
    (hdigest : c.suppliedDigest = s.d) (hnonce : c.suppliedNonce = s.nonce) : c.solution = s := by
  have hn := Word.toLeBytes_fromLeBytes s.n.val
  rw [s.n.property, ← Solution.nonce, ← hnonce] at hn
  exact congrArg₂ Solution.mk hdigest (Subtype.ext hn)

@[simp] theorem InternalMessageContribution.of_solution (drillx : Drillx) (minerId : Int)
    (solution : Solution) : (InternalMessageContribution.of drillx minerId solution).solution =
      solution := solution_eq rfl rfl

@[simp] theorem InternalMessageContribution.of_suppliedDiff (drillx : Drillx) (minerId : Int)
    (solution : Solution) :
    (InternalMessageContribution.of drillx minerId solution).suppliedDiff =
      drillx.difficulty solution := rfl

/-! ## The greatest difficulty -/

/-- The greatest supplied difficulty, `0` when there is no contribution. -/
def maxDiff (subs : Contributions) : Nat := (subs.values.map (·.suppliedDiff)).foldr max 0

theorem le_maxDiff {subs : Contributions} {pubkey : Pubkey} {c : InternalMessageContribution}
    (h : subs.lookup pubkey = some c) : c.suppliedDiff ≤ maxDiff subs := by
  have hmem : c.suppliedDiff ∈ subs.values.map (·.suppliedDiff) :=
    List.mem_map_of_mem (HashMap.mem_values.mpr ⟨pubkey, h⟩)
  exact List.le_max_of_le hmem le_rfl

theorem maxDiff_le {subs : Contributions} {diff : Nat}
    (h : ∀ pubkey c, subs.lookup pubkey = some c → c.suppliedDiff ≤ diff) :
    maxDiff subs ≤ diff := by
  apply List.max_le_of_forall_le
  intro d hd
  obtain ⟨c, hc, rfl⟩ := List.mem_map.mp hd
  obtain ⟨pubkey, hlookup⟩ := HashMap.mem_values.mp hc
  exact h pubkey c hlookup

theorem admits_of_lookup {subs : Contributions} {pubkey : Pubkey} {diff : Nat}
    {c : InternalMessageContribution} (h : admits subs pubkey diff)
    (hc : subs.lookup pubkey = some c) : c.suppliedDiff < diff := by
  simpa [admits, hc] using h

/-- An entry that the snapshot admits raises the maximum to its difficulty, if at all: the
entry it replaces was lower. -/
theorem maxDiff_insert {subs : Contributions} {pubkey : Pubkey} {c : InternalMessageContribution}
    (h : admits subs pubkey c.suppliedDiff) :
    maxDiff (subs.insert pubkey c) = max (maxDiff subs) c.suppliedDiff := by
  have hnew : (subs.insert pubkey c).lookup pubkey = some c := AList.lookup_insert _
  apply le_antisymm
  · apply maxDiff_le
    intro pubkey' c' hc'
    obtain ⟨-, rfl⟩ | ⟨-, hold⟩ := HashMap.lookup_insert_eq_some.mp hc'
    · exact le_max_right _ _
    · exact le_max_of_le_left (le_maxDiff hold)
  · apply max_le
    · apply maxDiff_le
      intro pubkey' c' hc'
      by_cases hkey : pubkey' = pubkey
      · subst hkey
        have hlt := admits_of_lookup h hc'
        exact le_trans (le_of_lt hlt) (le_maxDiff hnew)
      · exact le_maxDiff (HashMap.lookup_insert_eq_some.mpr (.inr ⟨hkey, hc'⟩))
    · exact le_maxDiff hnew

/-! ## Consistency -/

namespace EpochHashes

/-- `best_hash` describes the contributions, and every entry describes its own pair. -/
structure Consistent (drillx : Drillx) (minDifficulty : Nat) (e : EpochHashes) : Prop where
  difficulty : e.bestHash.difficulty = maxDiff e.contributions
  positive : 0 < e.bestHash.difficulty → ∃ s pubkey c, e.bestHash.solution = some s ∧
    e.contributions.lookup pubkey = some c ∧ c.suppliedDigest = s.d ∧
    c.suppliedNonce = s.nonce ∧ c.suppliedDiff = e.bestHash.difficulty
  zero : e.bestHash.difficulty = 0 → e.bestHash.solution = none
  entries : ∀ pubkey c, e.contributions.lookup pubkey = some c →
    c.suppliedDiff = drillx.difficulty c.solution ∧ minDifficulty ≤ c.suppliedDiff

variable {drillx : Drillx} {minDifficulty : Nat} {e : EpochHashes}

theorem consistent_fresh (challenge : Challenge) :
    (fresh challenge).Consistent drillx minDifficulty where
  difficulty := rfl
  positive h := absurd h (Nat.lt_irrefl 0)
  zero _ := rfl
  entries pubkey c h := by simp [fresh] at h

theorem record_bestHash_of_lt (pubkey : Pubkey) {c : InternalMessageContribution}
    (solution : Solution) (h : e.bestHash.difficulty < c.suppliedDiff) :
    (e.record pubkey c solution).bestHash = ⟨some solution, c.suppliedDiff⟩ := if_pos h

theorem record_bestHash_of_le (pubkey : Pubkey) {c : InternalMessageContribution}
    (solution : Solution) (h : c.suppliedDiff ≤ e.bestHash.difficulty) :
    (e.record pubkey c solution).bestHash = e.bestHash := if_neg (Nat.not_lt.mpr h)

/-- The write section keeps the epoch consistent. In particular the entry that holds the
best solution is only overwritten by a better one. -/
theorem Consistent.record (h : e.Consistent drillx minDifficulty) {pubkey : Pubkey}
    {solution : Solution} (minerId : Int)
    (hadmits : admits e.contributions pubkey (drillx.difficulty solution))
    (hmin : minDifficulty ≤ drillx.difficulty solution) :
    (e.record pubkey (.of drillx minerId solution) solution).Consistent drillx
      minDifficulty := by
  let c := InternalMessageContribution.of drillx minerId solution
  have hentries : ∀ pubkey' c', (e.contributions.insert pubkey c).lookup pubkey' = some c' →
      c'.suppliedDiff = drillx.difficulty c'.solution ∧ minDifficulty ≤ c'.suppliedDiff := by
    intro pubkey' c' hc'
    obtain ⟨-, rfl⟩ | ⟨-, hold⟩ := HashMap.lookup_insert_eq_some.mp hc'
    · simp [c, hmin]
    · exact h.entries pubkey' c' hold
  have hmax : maxDiff (e.contributions.insert pubkey c) =
      max e.bestHash.difficulty c.suppliedDiff := by
    rw [h.difficulty]
    exact maxDiff_insert hadmits
  by_cases hlt : e.bestHash.difficulty < c.suppliedDiff
  · have hbest := record_bestHash_of_lt pubkey solution hlt
    refine ⟨?_, ?_, ?_, hentries⟩
    · rw [hbest, record_contributions, hmax, max_eq_right (le_of_lt hlt)]
    · intro _
      rw [hbest]
      exact ⟨solution, pubkey, c, rfl, AList.lookup_insert _, rfl, rfl, rfl⟩
    · intro hzero
      rw [hbest] at hzero
      have hdiff : c.suppliedDiff = 0 := hzero
      omega
  · have hle := Nat.le_of_not_lt hlt
    have hbest := record_bestHash_of_le pubkey solution hle
    refine ⟨?_, ?_, ?_, hentries⟩
    · rw [hbest, record_contributions, hmax, max_eq_left hle]
    · intro hpos
      rw [hbest] at hpos ⊢
      obtain ⟨s, pubkey', c', hs, hc', hdigest, hnonce, hdiff⟩ := h.positive hpos
      -- The key of the best entry would only admit a better one.
      have hkey : pubkey' ≠ pubkey := by
        rintro rfl
        have hadmitted : c'.suppliedDiff < c.suppliedDiff := admits_of_lookup hadmits hc'
        omega
      exact ⟨s, pubkey', c', hs, HashMap.lookup_insert_eq_some.mpr (.inr ⟨hkey, hc'⟩), hdigest,
        hnonce, hdiff⟩
    · rw [hbest]
      exact h.zero

end EpochHashes

/-! ## The entry of a key -/

/-- The difficulty that a submission of the key has to exceed. -/
def bestSupplied (e : EpochHashes) (pubkey : Pubkey) : Nat :=
  match e.contributions.lookup pubkey with
  | some c => c.suppliedDiff
  | none => 0

theorem admits_iff {e : EpochHashes} {pubkey : Pubkey} {diff : Nat} (h : 0 < diff) :
    admits e.contributions pubkey diff = true ↔ bestSupplied e pubkey < diff := by
  rw [admits, bestSupplied]
  cases e.contributions.lookup pubkey with
  | none => simp [h]
  | some c => simp

theorem bestSupplied_congr {e e' : EpochHashes} {pubkey : Pubkey}
    (h : e'.contributions.lookup pubkey = e.contributions.lookup pubkey) :
    bestSupplied e' pubkey = bestSupplied e pubkey := by rw [bestSupplied, h, bestSupplied]

theorem bestSupplied_record (e : EpochHashes) (pubkey : Pubkey) (c : InternalMessageContribution)
    (solution : Solution) :
    bestSupplied (e.record pubkey c solution) pubkey = c.suppliedDiff := by
  rw [bestSupplied, EpochHashes.record_contributions, AList.lookup_insert]

end Hashpoo
