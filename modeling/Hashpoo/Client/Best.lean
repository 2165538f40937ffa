import Hashpoo.Client.Mine
import Hashpoo.Client.Turbomine

/-!
# The best submission of a mission

A thread keeps back what is no record, the result of a mission is the best of its threads,
and the submission processor keeps back what is no record since the last reset. Records of
records are records, so the three filters lose a best difficulty only where their
thresholds do: the threads take no hash of difficulty `MIN_DIFF` itself, which is enough
for the server.
-/

namespace Hashpoo.Client

open Foundation

namespace Outcome

/-- The outcome of some mission of one of the two miners. -/
def Arises (hashes : Challenge → Nat → List Hash) (o : Outcome) : Prop :=
  (∃ args m cores, o = Mine.outcome hashes args m cores) ∨
    ∃ args m turn, Turbomine.optimizedMiningRayon hashes args m turn = .ok o

theorem Arises.filtered {hashes : Challenge → Nat → List Hash} {o : Outcome}
    (h : o.Arises hashes) : o.Filtered := by
  obtain ⟨args, m, cores, rfl⟩ | ⟨args, m, turn, hok⟩ := h
  · exact Mine.filtered_outcome hashes args m cores
  · exact Turbomine.filtered_optimizedMiningRayon hok

/-- The best difficulty found in the mission. -/
def best (o : Outcome) : Nat := peak ThreadSubmission.difficulty 0 o.tried

/-- The submissions improve, and the last of them has the best difficulty found, if this is
enough for the server. -/
def Improves (o : Outcome) (sent : List ThreadSubmission) : Prop :=
  (sent.Pairwise fun a b => a.difficulty < b.difficulty) ∧
    (minDiff ≤ o.best → ∃ s ∈ sent.getLast?, s.difficulty = o.best)

namespace Filtered

variable {o : Outcome} {sends : List ThreadSubmission}

/-- A best difficulty above the minimum reaches the channel, and nothing better does. -/
theorem peak_eq_best (h : o.Filtered) (hperm : sends.Perm o.sends) (hbest : minDiff < o.best) :
    peak ThreadSubmission.difficulty 0 (sends ++ [o.cutoff]) = o.best := by
  have hbound := (h.bound o.best).mpr fun s hs _ => key_le_peak hs
  rw [peak_perm (hperm.append_right _)]
  refine le_antisymm (peak_le_iff.mpr ⟨Nat.zero_le _, ?_⟩) ?_
  · intro s hs
    obtain hsend | hlast := List.mem_append.mp hs
    · exact hbound s hsend
    · rw [List.mem_singleton.mp hlast]
      obtain hzero | hmem := h.cutoff
      · rw [hzero]
        exact Nat.zero_le _
      · exact hbound _ hmem
  · -- A bound of what is sent bounds what was tried above the minimum.
    have hsends : ∀ s ∈ o.sends, s.difficulty ≤
        peak ThreadSubmission.difficulty 0 (o.sends ++ [o.cutoff]) :=
      fun s hs => key_le_peak (List.mem_append_left _ hs)
    obtain ⟨s, hs, hkey⟩ := exists_of_lt_peak (lt_of_le_of_lt (Nat.zero_le minDiff) hbest)
    have hle := (h.bound _).mp hsends s hs (hkey.symm ▸ hbest)
    exact hkey.symm.trans_le hle

/-- With a best difficulty up to the minimum nothing goes out. -/
theorem records_eq_nil (h : o.Filtered) (hperm : sends.Perm o.sends) (hbest : o.best ≤ minDiff) :
    records ThreadSubmission.difficulty 0 (sends ++ [o.cutoff]) = [] := by
  have hnone : o.sends = [] := by
    refine List.eq_nil_iff_forall_not_mem.mpr fun s hs => ?_
    have hle := (h.bound minDiff).mpr (fun x hx _ => (key_le_peak hx).trans hbest) s hs
    exact absurd (h.above s hs) (not_lt.mpr hle)
  rw [hnone, List.perm_nil] at hperm
  have hzero : o.cutoff.difficulty = 0 := by
    refine h.cutoff.resolve_right ?_
    rw [hnone]
    exact List.not_mem_nil
  simp [hperm, records, hzero]

theorem improves_sent_iff (h : o.Filtered) (hperm : sends.Perm o.sends) :
    o.Improves (sentSubmissions 0 (o.channel sends)) ↔ o.best ≠ minDiff := by
  rw [sentSubmissions_channel]
  constructor
  · rintro ⟨-, hlast⟩ hbest
    obtain ⟨s, hs, -⟩ := hlast hbest.ge
    rw [h.records_eq_nil hperm hbest.le] at hs
    cases hs
  · intro hbest
    refine ⟨pairwise_records _ _, fun hle => ?_⟩
    have hpeak := h.peak_eq_best hperm (lt_of_le_of_ne hle hbest.symm)
    rw [← hpeak]
    refine (getLast?_records 0 (sends ++ [o.cutoff])).resolve_left ?_
    rintro ⟨-, hzero⟩
    rw [hpeak] at hzero
    exact absurd hle (by rw [hzero]; decide)

end Filtered

end Outcome

/-- The processor starts afresh after the reset of a mission. -/
theorem sentSubmissions_missions (missions : List (Outcome × List ThreadSubmission)) :
    sentSubmissions 0 (missions.flatMap fun x => x.1.channel x.2) =
      missions.flatMap fun x => sentSubmissions 0 (x.1.channel x.2) := by
  induction missions with
  | nil => rfl
  | cons x missions ih =>
      rw [List.flatMap_cons, List.flatMap_cons, ← ih, Outcome.sentSubmissions_channel]
      rw [Outcome.channel, List.append_assoc, sentSubmissions_map]
      rfl

/-- Whatever missions a miner runs one after the other and in whatever order its threads
send, what goes out is what goes out for each mission, the submissions of a mission improve,
and their last one has the best difficulty found unless this is exactly the minimum. -/
theorem improves_iff (hashes : Challenge → Nat → List Hash)
    (missions : List (Outcome × List ThreadSubmission))
    (h : ∀ x ∈ missions, x.1.Arises hashes ∧ x.2.Perm x.1.sends) :
    sentSubmissions 0 (missions.flatMap fun x => x.1.channel x.2) =
        (missions.flatMap fun x => sentSubmissions 0 (x.1.channel x.2)) ∧
      ∀ x ∈ missions, (sentSubmissions 0 (x.1.channel x.2)).Pairwise
          (fun a b => a.difficulty < b.difficulty) ∧
        (x.1.Improves (sentSubmissions 0 (x.1.channel x.2)) ↔ x.1.best ≠ minDiff) := by
  refine ⟨sentSubmissions_missions missions, fun x hx => ⟨?_, ?_⟩⟩
  · rw [Outcome.sentSubmissions_channel]
    exact pairwise_records _ _
  · exact (h x hx).1.filtered.improves_sent_iff (h x hx).2

/-- A mission of two threads. -/
def halves (range : NonceRange) (h : range.stop < 2 ^ 64) : Mission := ⟨.fill 32 7, range, 60, h⟩

/-- The only hash of a nonce. -/
def graded (nonce : Nat) : Hash := ⟨.fill 16 1, [9, 11, 10, 12, 11, 10, 9, 8].getD nonce 0⟩

def gradedSubmission (nonce : Nat) : ThreadSubmission := submissionOf nonce (graded nonce)

/-- The outcomes over the nonces from 0 and from 4. -/
def gradedOutcomes : Outcome × Outcome :=
  (⟨[0, 1, 2, 3].map gradedSubmission, [0, 1, 2, 3].map gradedSubmission, gradedSubmission 3⟩,
    ⟨[4, 5, 6, 7].map gradedSubmission, [4, 6].map gradedSubmission, gradedSubmission 4⟩)

theorem arises_gradedOutcomes : (gradedOutcomes.1.Arises fun _ nonce => [graded nonce]) ∧
    gradedOutcomes.2.Arises fun _ nonce => [graded nonce] :=
  ⟨.inr ⟨⟨2, 5⟩, halves ⟨0, 4⟩ (by decide), fun _ _ => ⟨⟨true, false, 0⟩, false⟩, rfl⟩,
    .inr ⟨⟨2, 5⟩, halves ⟨4, 8⟩ (by decide), fun _ _ => ⟨⟨true, false, 0⟩, false⟩, rfl⟩⟩

/-- In both missions the sends of the second thread come between those of the first. -/
theorem improves_interleaved :
    sentSubmissions 0 (gradedOutcomes.1.channel ([2, 0, 3, 1].map gradedSubmission) ++
        gradedOutcomes.2.channel ([6, 4].map gradedSubmission)) =
      [2, 3, 6, 4].map gradedSubmission ∧
    gradedOutcomes.1.Improves
      (sentSubmissions 0 (gradedOutcomes.1.channel ([2, 0, 3, 1].map gradedSubmission))) ∧
    gradedOutcomes.2.Improves
      (sentSubmissions 0 (gradedOutcomes.2.channel ([6, 4].map gradedSubmission))) := by
  obtain ⟨harises₁, harises₂⟩ := arises_gradedOutcomes
  have hmissions := improves_iff (fun _ nonce => [graded nonce])
    [(gradedOutcomes.1, [2, 0, 3, 1].map gradedSubmission),
      (gradedOutcomes.2, [6, 4].map gradedSubmission)] (by
      intro x hx
      simp only [List.mem_cons, List.not_mem_nil, or_false] at hx
      obtain rfl | rfl := hx
      · exact ⟨harises₁, by decide⟩
      · exact ⟨harises₂, by decide⟩)
  refine ⟨hmissions.1.trans (by decide), ?_, ?_⟩
  · exact ((hmissions.2 _ List.mem_cons_self).2).mpr (by decide)
  · exact ((hmissions.2 _ (List.mem_cons_of_mem _ List.mem_cons_self)).2).mpr (by decide)

/-- A mission over the nonce 0. -/
def oneNonce : Mission := ⟨.fill 32 7, ⟨0, 1⟩, 60, Mine.tinyMission.stop_lt⟩

/-- Its outcome with one thread, when the nonce has one hash of the difficulty. -/
def oneHash (difficulty : Nat) : Outcome :=
  let s := submissionOf 0 ⟨.fill 16 1, difficulty⟩
  if minDiff < difficulty then ⟨[s], [s], s⟩ else ⟨[s], [], (MiningResult.new 0).submission⟩

theorem arises_oneHash : (oneHash 8).Arises fun _ _ => [⟨.fill 16 1, 8⟩] :=
  .inr ⟨⟨1, 5⟩, oneNonce, fun _ _ => ⟨⟨true, false, 0⟩, false⟩, rfl⟩

/-- A hash of difficulty 8 is enough for the server, and it is not submitted. -/
theorem not_improves : ¬ ∀ (hashes : Challenge → Nat → List Hash)
    (missions : List (Outcome × List ThreadSubmission)),
    (∀ x ∈ missions, x.1.Arises hashes ∧ x.2.Perm x.1.sends) →
      ∀ x ∈ missions, x.1.Improves (sentSubmissions 0 (x.1.channel x.2)) := by
  intro h
  have hone := h (fun _ _ => [⟨.fill 16 1, 8⟩]) [(oneHash 8, [])]
    (by
      intro x hx
      rw [List.mem_singleton.mp hx]
      exact ⟨arises_oneHash, .refl _⟩) _ List.mem_cons_self
  obtain ⟨s, hs, -⟩ := hone.2 (by decide)
  have hnone : (sentSubmissions 0 ((oneHash 8).channel [])).getLast? = none := rfl
  rw [hnone] at hs
  cases hs

end Hashpoo.Client
