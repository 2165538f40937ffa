import Hashpoo.Client.Worker
import Hashpoo.Server.Contributions

/-!
# The nonces of `mine.rs`

A thread starts at an offset of its own, hashes a nonce, and only then compares the nonce
with the end of the range. It stays inside the range exactly when it starts there and the
cutoff, or a flag, ends it before it has come to the end.
-/

namespace Hashpoo.Client.Mine

open Foundation

/-- A core with what its thread reads in the turn of each nonce. -/
structure Core where
  id : Nat
  turn : Nat → Turn

/-- The loop `'challenge` from `nonce` on, and whether the thread has a result: after Ctrl-C
it has none. -/
def challengeLoop (hashes : Nat → List Hash) (stop cutoff : Nat) (turn : Nat → Turn) (nonce : Nat)
    (w : Worker) : Worker × Bool :=
  if (turn nonce).running = false then (w, false)
  else if (turn nonce).stop = true then (w, true)
  else
    let w := w.tryNonce hashes nonce
    -- "Exit if processed nonce range"
    if nonce ≥ stop then (w, true)
    else if nonce % 100 = 0 ∧ (turn nonce).elapsed ≥ cutoff ∧ w.best.difficulty ≥ minDiff then
      (w, true)
    else challengeLoop hashes stop cutoff turn (nonce + 1) w
termination_by stop - nonce

/-- `nonce_range.start + (nonces_per_thread * (i.id as u64))`. Both operations wrap. -/
def firstNonce (m : Mission) (core : Core) : Nat :=
  Word.unsigned 64 (m.nonceRange.start + 10_000 * core.id : Nat)

/-- `--threads`, limited to the number of cores. Both are `u32`s here. -/
def threadsOf (args : MineArgs) (cores : List Core) : Nat :=
  min args.threads (cores.length % 2 ^ 32)

/-- The thread of a core: a core that exceeds the number of threads has none. -/
def thread (hashes : Challenge → Nat → List Hash) (args : MineArgs) (m : Mission) (threads : Nat)
    (core : Core) : Option (Worker × Bool) :=
  if core.id % 2 ^ 32 ≥ threads then none
  else
    let firstNonce := firstNonce m core
    some (challengeLoop (hashes m.challenge) m.nonceRange.stop (m.cutoffWith args) core.turn
      firstNonce (.start firstNonce))

def workers (hashes : Challenge → Nat → List Hash) (args : MineArgs) (m : Mission)
    (cores : List Core) : List (Worker × Bool) :=
  cores.filterMap (thread hashes args m (threadsOf args cores))

/-- The threads are joined in the order of the cores. -/
def outcome (hashes : Challenge → Nat → List Hash) (args : MineArgs) (m : Mission)
    (cores : List Core) : Outcome :=
  let workers := workers hashes args m cores
  let results := (workers.filter Prod.snd).map fun x => x.1.best
  .of (hashes m.challenge) (workers.map Prod.fst)
    (results.foldl MiningResult.better ⟨0, 0, .fill 16 0⟩)

/-! ## The loop -/

variable {hashes : Nat → List Hash} {stop cutoff : Nat} {turn : Nat → Turn} {nonce : Nat}
  {w : Worker}

theorem faithful_challengeLoop (h : w.Faithful hashes) :
    (challengeLoop hashes stop cutoff turn nonce w).1.Faithful hashes := by
  fun_induction challengeLoop hashes stop cutoff turn nonce w with
  | case1 | case2 => exact h
  | case3 | case4 => exact h.tryNonce _
  | case5 nonce w _ _ w' _ _ ih => exact ih (h.tryNonce nonce)

/-- The thread leaves before the next nonce: at the cutoff, with something found since it
started at `first`, or because of a flag. -/
def LeavesAfter (hashes : Nat → List Hash) (cutoff : Nat) (turn : Nat → Turn) (first nonce : Nat) :
    Prop :=
  nonce % 100 = 0 ∧ cutoff ≤ (turn nonce).elapsed ∧
      (∃ k, first ≤ k ∧ k ≤ nonce ∧ ∃ hx ∈ hashes k, minDiff < hx.difficulty) ∨
    (turn (nonce + 1)).TurnsAway

/-- The thread hashes no further nonce when the range ends with this one or it leaves. -/
theorem mem_hashed_last {first : Nat} (hstays : ¬ (turn nonce).TurnsAway)
    (hlast : stop ≤ nonce ∨ LeavesAfter hashes cutoff turn first nonce) (k : Nat) :
    k ∈ (w.tryNonce hashes nonce).hashed ↔ k ∈ w.hashed ∨
      nonce ≤ k ∧ k ≤ max nonce stop ∧ ¬ (turn nonce).TurnsAway ∧
        ∀ j, nonce ≤ j → j < k → ¬ LeavesAfter hashes cutoff turn first j := by
  rw [Worker.tryNonce_hashed, List.mem_append, List.mem_singleton]
  refine or_congr_right ⟨?_, ?_⟩
  · rintro rfl
    exact ⟨le_rfl, le_max_left _ _, hstays, fun j hj hlt => absurd hlt (by omega)⟩
  · rintro ⟨hge, hmax, -, hnone⟩
    by_contra hne
    obtain hend | hleaves := hlast
    · omega
    · exact hnone nonce le_rfl (by omega) hleaves

/-- A thread with the nonces from `first` on behind it goes on to the first nonce after which
it leaves, and at most to the end of the range or to one nonce behind it. -/
theorem mem_hashed_challengeLoop {first : Nat} (h : w.Faithful hashes) (hle : first ≤ nonce)
    (hhashed : ∀ k, k ∈ w.hashed ↔ first ≤ k ∧ k < nonce) (k : Nat) :
    k ∈ (challengeLoop hashes stop cutoff turn nonce w).1.hashed ↔ k ∈ w.hashed ∨
      nonce ≤ k ∧ k ≤ max nonce stop ∧ ¬ (turn nonce).TurnsAway ∧
        ∀ j, nonce ≤ j → j < k → ¬ LeavesAfter hashes cutoff turn first j := by
  fun_induction challengeLoop hashes stop cutoff turn nonce w with
  | case1 nonce w hrunning =>
      have haway : (turn nonce).TurnsAway := .inl hrunning
      simp [haway]
  | case2 nonce w _ hstop =>
      have haway : (turn nonce).TurnsAway := .inr hstop
      simp [haway]
  | case3 nonce w hrunning hstop w' hend =>
      exact mem_hashed_last (not_or.mpr ⟨hrunning, hstop⟩) (.inl hend) k
  | case4 nonce w hrunning hstop w' hend hleave =>
      refine mem_hashed_last (not_or.mpr ⟨hrunning, hstop⟩) (.inr ?_) k
      obtain ⟨hmod, helapsed, hbest⟩ := hleave
      obtain ⟨j, hj, hfound⟩ := (h.tryNonce nonce).minDiff_le_best.mp hbest
      rw [Worker.tryNonce_hashed, List.mem_append, List.mem_singleton, hhashed] at hj
      exact .inl ⟨hmod, helapsed, j, by omega, by omega, hfound⟩
  | case5 nonce w hrunning hstop w' hend hgo ih =>
      have hstays : ¬ (turn nonce).TurnsAway := not_or.mpr ⟨hrunning, hstop⟩
      have hnext : ∀ k, k ∈ w'.hashed ↔ first ≤ k ∧ k < nonce + 1 := by
        intro k
        rw [Worker.tryNonce_hashed, List.mem_append, List.mem_singleton, hhashed]
        omega
      have hleaves : LeavesAfter hashes cutoff turn first nonce ↔
          (turn (nonce + 1)).TurnsAway := by
        refine or_iff_right ?_
        rintro ⟨hmod, helapsed, j, hfirst, hj, hfound⟩
        refine hgo ⟨hmod, helapsed, (h.tryNonce nonce).minDiff_le_best.mpr ⟨j, ?_, hfound⟩⟩
        exact (hnext j).mpr ⟨hfirst, by omega⟩
      rw [ih (h.tryNonce nonce) (by omega) hnext, Worker.tryNonce_hashed, List.mem_append,
        List.mem_singleton, or_assoc]
      refine or_congr_right ⟨?_, ?_⟩
      · rintro (rfl | ⟨hge, hmax, haway, hnone⟩)
        · exact ⟨le_rfl, le_max_left _ _, hstays, fun j hj hlt => absurd hlt (by omega)⟩
        · refine ⟨by omega, by omega, hstays, fun j hj hlt => ?_⟩
          obtain rfl | hlater := eq_or_lt_of_le hj
          · rwa [hleaves]
          · exact hnone j hlater hlt
      · rintro ⟨hge, hmax, -, hnone⟩
        obtain rfl | hlater := eq_or_lt_of_le hge
        · exact .inl rfl
        · refine .inr ⟨hlater, by omega, ?_, fun j hj hlt => hnone j (by omega) hlt⟩
          exact fun haway => hnone nonce le_rfl hlater (hleaves.mpr haway)

/-- The thread hashes nothing, or it starts in the range and leaves after a nonce of it. -/
def Stays (hashes : Nat → List Hash) (range : NonceRange) (cutoff : Nat) (turn : Nat → Turn)
    (first : Nat) : Prop :=
  (turn first).TurnsAway ∨
    range.start ≤ first ∧
      ∃ n, first ≤ n ∧ n < range.stop ∧ LeavesAfter hashes cutoff turn first n

theorem hashed_in_range_iff {range : NonceRange} {first : Nat} :
    (∀ k ∈ (challengeLoop hashes range.stop cutoff turn first (.start first)).1.hashed,
      range.Contains k) ↔ Stays hashes range cutoff turn first := by
  have hmem : ∀ k, k ∈ (challengeLoop hashes range.stop cutoff turn first
      (.start first)).1.hashed ↔ first ≤ k ∧ k ≤ max first range.stop ∧
        ¬ (turn first).TurnsAway ∧
          ∀ j, first ≤ j → j < k → ¬ LeavesAfter hashes cutoff turn first j := by
    intro k
    rw [mem_hashed_challengeLoop (Worker.faithful_start first) le_rfl (by simp [Worker.start])]
    simp [Worker.start]
  constructor
  · intro h
    refine or_iff_not_imp_left.mpr fun hstays => ?_
    obtain ⟨hstart, hstop⟩ := h first ((hmem first).mpr
      ⟨le_rfl, le_max_left _ _, hstays, fun j hj hlt => absurd hlt (by omega)⟩)
    refine ⟨hstart, ?_⟩
    by_contra hnone
    push Not at hnone
    -- With no nonce to leave after, the thread hashes the end of the range.
    have hend := h range.stop ((hmem range.stop).mpr
      ⟨hstop.le, le_max_right _ _, hstays, hnone⟩)
    exact lt_irrefl _ hend.2
  · rintro (haway | ⟨hstart, n, hfirst, hn, hleaves⟩) k hk
    · exact absurd haway ((hmem k).mp hk).2.2.1
    · obtain ⟨hge, -, -, hnone⟩ := (hmem k).mp hk
      refine ⟨hstart.trans hge, lt_of_le_of_lt ?_ hn⟩
      by_contra hlt
      exact hnone n hfirst (not_le.mp hlt) hleaves

/-! ## Missions -/

theorem faithful_workers {hashes : Challenge → Nat → List Hash} {args : MineArgs} {m : Mission}
    {cores : List Core} : ∀ x ∈ workers hashes args m cores, x.1.Faithful (hashes m.challenge) := by
  intro x hx
  obtain ⟨core, -, hthread⟩ := List.mem_filterMap.mp hx
  rw [thread] at hthread
  split at hthread
  · cases hthread
  · cases hthread
    exact faithful_challengeLoop (Worker.faithful_start _)

theorem filtered_outcome (hashes : Challenge → Nat → List Hash) (args : MineArgs) (m : Mission)
    (cores : List Core) : (outcome hashes args m cores).Filtered := by
  refine Outcome.filtered_of ?_ ?_
  · intro w hw
    obtain ⟨x, hx, rfl⟩ := List.mem_map.mp hw
    exact faithful_workers x hx
  · obtain hnone | hresult := List.mem_cons.mp (MiningResult.foldl_better_mem
      (((workers hashes args m cores).filter Prod.snd).map fun x => x.1.best) ⟨0, 0, .fill 16 0⟩)
    · rw [hnone]
      exact .inl rfl
    · obtain ⟨x, hx, heq⟩ := List.mem_map.mp hresult
      exact .inr ⟨x.1, List.mem_map.mpr ⟨x, (List.mem_filter.mp hx).1, rfl⟩, heq.symm⟩

/-- The submission is in the range that the server checks. -/
def InRange (m : Mission) (s : ThreadSubmission) : Prop := m.nonceRange.Contains s.nonce.toNat

instance (m : Mission) : DecidablePred (InRange m) :=
  fun s => inferInstanceAs (Decidable (m.nonceRange.Contains s.nonce.toNat))

/-- All nonces hashed and submitted are in the range, and in whatever order the submissions
arrive, those in the range that go out are those that would go out without the others. -/
structure KeepsRange (hashes : Challenge → Nat → List Hash) (args : MineArgs) (m : Mission)
    (cores : List Core) : Prop where
  hashed : ∀ x ∈ workers hashes args m cores, ∀ nonce ∈ x.1.hashed, m.nonceRange.Contains nonce
  submitted : ∀ s ∈ (outcome hashes args m cores).sends, InRange m s
  unsuppressed : ∀ sends, sends.Perm (outcome hashes args m cores).sends →
    (sentSubmissions 0 ((outcome hashes args m cores).channel sends)).filter (InRange m) =
      sentSubmissions 0 (((sends ++ [(outcome hashes args m cores).cutoff]).filter
        (InRange m)).map .submission)

variable {hashes : Challenge → Nat → List Hash} {args : MineArgs} {m : Mission}
  {cores : List Core}

theorem submitted_of_hashed
    (h : ∀ x ∈ workers hashes args m cores, ∀ nonce ∈ x.1.hashed, m.nonceRange.Contains nonce) :
    ∀ s ∈ (outcome hashes args m cores).sends, InRange m s := by
  intro s hs
  obtain ⟨w, hw, hsent⟩ := List.mem_flatMap.mp hs
  obtain ⟨x, hx, rfl⟩ := List.mem_map.mp hw
  obtain ⟨nonce, hnonce, heq⟩ := (faithful_workers x hx).mem_sent hsent
  have hrange := h x hx nonce hnonce
  have hlt : nonce < 2 ^ 64 := hrange.2.trans m.stop_lt
  rw [InRange, heq, UInt64.toNat_ofNat', Nat.mod_eq_of_lt hlt]
  exact hrange

/-- Submissions in the range suppress each other only. A cutoff submission outside is worth
nothing. -/
theorem unsuppressed_of_submitted (h : ∀ s ∈ (outcome hashes args m cores).sends, InRange m s)
    {sends : List ThreadSubmission} (hperm : sends.Perm (outcome hashes args m cores).sends) :
    (sentSubmissions 0 ((outcome hashes args m cores).channel sends)).filter (InRange m) =
      sentSubmissions 0 (((sends ++ [(outcome hashes args m cores).cutoff]).filter
        (InRange m)).map .submission) := by
  have hsends : sends.filter (InRange m) = sends :=
    List.filter_eq_self.mpr fun s hs => decide_eq_true (h s (hperm.mem_iff.mp hs))
  have hrecords : ∀ l : List ThreadSubmission, sentSubmissions 0 (l.map .submission) =
      records ThreadSubmission.difficulty 0 l := by
    intro l
    rw [← List.append_nil (l.map _), sentSubmissions_map, sentSubmissions, List.append_nil]
  rw [Outcome.sentSubmissions_channel, hrecords, List.filter_append, hsends]
  by_cases hcutoff : InRange m (outcome hashes args m cores).cutoff
  · rw [List.filter_cons_of_pos (by simpa using hcutoff), List.filter_nil]
    refine List.filter_eq_self.mpr fun s hs => decide_eq_true ?_
    obtain hsend | hlast := List.mem_append.mp ((records_sublist _ _).subset hs)
    · exact h s (hperm.mem_iff.mp hsend)
    · rwa [List.mem_singleton.mp hlast]
  · obtain hzero | hmem := (filtered_outcome hashes args m cores).cutoff
    · rw [List.filter_cons_of_neg (by simpa using hcutoff), List.filter_nil, List.append_nil,
        records_concat, if_neg (by rw [hzero]; exact Nat.not_lt_zero _)]
      refine List.filter_eq_self.mpr fun s hs => decide_eq_true ?_
      exact h s (hperm.mem_iff.mp ((records_sublist _ _).subset hs))
    · exact absurd (h _ hmem) hcutoff

/-- A mission keeps to its range exactly when every thread hashes nothing, or starts in the
range and leaves before it has come to the end. -/
theorem keepsRange_iff (hashes : Challenge → Nat → List Hash) (args : MineArgs) (m : Mission)
    (cores : List Core) : KeepsRange hashes args m cores ↔
      ∀ core ∈ cores, core.id % 2 ^ 32 < threadsOf args cores →
        Stays (hashes m.challenge) m.nonceRange (m.cutoffWith args) core.turn
          (firstNonce m core) := by
  constructor
  · intro h core hcore hid
    refine hashed_in_range_iff.mp (h.hashed _ (List.mem_filterMap.mpr ⟨core, hcore, ?_⟩))
    rw [thread, if_neg (not_le.mpr hid)]
  · intro h
    have hhashed : ∀ x ∈ workers hashes args m cores, ∀ nonce ∈ x.1.hashed,
        m.nonceRange.Contains nonce := by
      intro x hx
      obtain ⟨core, hcore, hthread⟩ := List.mem_filterMap.mp hx
      rw [thread] at hthread
      split at hthread
      · cases hthread
      · next hid =>
        cases hthread
        exact hashed_in_range_iff.mpr (h core hcore (not_le.mp hid))
    have hsubmitted := submitted_of_hashed hhashed
    exact ⟨hhashed, hsubmitted, fun _ hperm => unsuppressed_of_submitted hsubmitted hperm⟩

/-- One thread, a range of one nonce and no hash that would let it leave at the cutoff. -/
def tinyMission : Mission := ⟨.fill 32 7, ⟨0, 1⟩, 60, by decide⟩

theorem not_keepsRange : ¬ ∀ (hashes : Challenge → Nat → List Hash) (args : MineArgs)
    (m : Mission) (cores : List Core), m.nonceRange.start < m.nonceRange.stop →
      KeepsRange hashes args m cores := by
  intro h
  have hkeeps := h (fun _ _ => []) ⟨1, 0⟩ tinyMission [⟨0, fun _ => ⟨true, false, 0⟩⟩] (by decide)
  have hhashed : ∃ x ∈ workers (fun _ _ => []) ⟨1, 0⟩ tinyMission
      [⟨0, fun _ => ⟨true, false, 0⟩⟩], 1 ∈ x.1.hashed := by
    simp [workers, thread, threadsOf, firstNonce, tinyMission, challengeLoop, Mission.cutoffWith,
      Worker.start, Worker.tryNonce, Word.unsigned, MiningResult.new, minDiff]
  obtain ⟨x, hx, hone⟩ := hhashed
  exact absurd (hkeeps.hashed x hx 1 hone) (by decide)

end Hashpoo.Client.Mine
