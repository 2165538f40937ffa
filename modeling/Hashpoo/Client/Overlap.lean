import Hashpoo.Client.Mine

/-!
# The shares of the threads of `mine.rs`

The threads start 10,000 nonces apart, one `nonces_per_thread` each, but nothing stops a
thread behind its share: it goes on through those of its neighbours to the end of the
range. Each thread hashes an interval, so two of them keep apart exactly when the lower
one leaves before the first nonce of the other.
-/

namespace Hashpoo.Client.Mine

open Foundation

/-! ## Two loops -/

section Loops

variable {hashes : Nat → List Hash} {stop cutoff first first' : Nat} {turn turn' : Nat → Turn}

/-- The nonces that a thread with the first nonce `first` hashes. -/
def hashedFrom (hashes : Nat → List Hash) (stop cutoff : Nat) (turn : Nat → Turn)
    (first : Nat) : List Nat :=
  (challengeLoop hashes stop cutoff turn first (.start first)).1.hashed

/-- The thread comes to this nonce, unless it is turned away at its first one. -/
def Passes (hashes : Nat → List Hash) (stop cutoff : Nat) (turn : Nat → Turn)
    (first nonce : Nat) : Prop :=
  first ≤ nonce ∧ nonce ≤ max first stop ∧
    ∀ j, first ≤ j → j < nonce → ¬ LeavesAfter hashes cutoff turn first j

theorem mem_hashedFrom {k : Nat} : k ∈ hashedFrom hashes stop cutoff turn first ↔
    ¬ (turn first).TurnsAway ∧ Passes hashes stop cutoff turn first k := by
  rw [hashedFrom, mem_hashed_challengeLoop (Worker.faithful_start first) le_rfl
    (by simp [Worker.start])]
  simp only [Worker.start, List.not_mem_nil, false_or, Passes]
  tauto

/-- A thread has been at every nonce before. -/
theorem Passes.mono {nonce k : Nat} (h : Passes hashes stop cutoff turn first k)
    (hfirst : first ≤ nonce) (hle : nonce ≤ k) : Passes hashes stop cutoff turn first nonce :=
  ⟨hfirst, hle.trans h.2.1, fun j hj hlt => h.2.2 j hj (by omega)⟩

/-- Two threads that hash anything share a nonce exactly when the one that starts lower
comes to the first nonce of the other. -/
theorem disjoint_hashedFrom_iff (hle : first ≤ first') :
    (∀ k ∈ hashedFrom hashes stop cutoff turn first,
      k ∉ hashedFrom hashes stop cutoff turn' first') ↔
      (turn first).TurnsAway ∨ (turn' first').TurnsAway ∨
        ¬ Passes hashes stop cutoff turn first first' := by
  constructor
  · intro h
    by_contra hshared
    obtain ⟨hstays, hstays', hpasses⟩ : ¬ (turn first).TurnsAway ∧ ¬ (turn' first').TurnsAway ∧
        Passes hashes stop cutoff turn first first' := by tauto
    refine h first' (mem_hashedFrom.mpr ⟨hstays, hpasses⟩) (mem_hashedFrom.mpr ⟨hstays', ?_⟩)
    exact ⟨le_rfl, le_max_left _ _, fun j hj hlt => absurd hlt (by omega)⟩
  · intro h k hk hk'
    obtain ⟨hstays, hpasses⟩ := mem_hashedFrom.mp hk
    obtain ⟨hstays', hpasses'⟩ := mem_hashedFrom.mp hk'
    obtain haway | haway | hbefore := h
    · exact hstays haway
    · exact hstays' haway
    · exact hbefore (hpasses.mono hle hpasses'.1)

end Loops

/-! ## The threads of a mission -/

/-- The core has a thread. -/
def HasThread (args : MineArgs) (cores : List Core) (core : Core) : Prop :=
  core.id % 2 ^ 32 < threadsOf args cores

instance (args : MineArgs) (cores : List Core) : DecidablePred (HasThread args cores) :=
  fun core => inferInstanceAs (Decidable (core.id % 2 ^ 32 < _))

/-- The nonces of the thread of a core. -/
def hashedBy (hashes : Challenge → Nat → List Hash) (args : MineArgs) (m : Mission)
    (cores : List Core) (core : Core) : List Nat :=
  match thread hashes args m (threadsOf args cores) core with
  | some (w, _) => w.hashed
  | none => []

variable {hashes : Challenge → Nat → List Hash} {args : MineArgs} {m : Mission}
  {cores : List Core} {core : Core}

theorem hashedBy_of_hasThread (h : HasThread args cores core) :
    hashedBy hashes args m cores core = hashedFrom (hashes m.challenge) m.nonceRange.stop
      (m.cutoffWith args) core.turn (firstNonce m core) := by
  rw [hashedBy, thread, if_neg (not_le.mpr h)]
  rfl

theorem hashedBy_of_not_hasThread (h : ¬ HasThread args cores core) :
    hashedBy hashes args m cores core = [] := by
  rw [hashedBy, thread, if_pos (not_lt.mp h)]

/-- No nonce is hashed by the threads of two different cores. -/
def KeepApart (hashes : Challenge → Nat → List Hash) (args : MineArgs) (m : Mission)
    (cores : List Core) : Prop :=
  ∀ core ∈ cores, ∀ core' ∈ cores, core.id ≠ core'.id →
    ∀ k ∈ hashedBy hashes args m cores core, k ∉ hashedBy hashes args m cores core'

/-- The thread of `core` does not come to the first nonce of `core'`: the range ends before,
or the thread leaves on the way. -/
def StopsShort (hashes : Challenge → Nat → List Hash) (args : MineArgs) (m : Mission)
    (core core' : Core) : Prop :=
  max (firstNonce m core) m.nonceRange.stop < firstNonce m core' ∨
    ∃ j, firstNonce m core ≤ j ∧ j < firstNonce m core' ∧
      LeavesAfter (hashes m.challenge) (m.cutoffWith args) core.turn (firstNonce m core) j

theorem stopsShort_iff {core' : Core} (hle : firstNonce m core ≤ firstNonce m core') :
    StopsShort hashes args m core core' ↔ ¬ Passes (hashes m.challenge) m.nonceRange.stop
      (m.cutoffWith args) core.turn (firstNonce m core) (firstNonce m core') := by
  rw [StopsShort, Passes]
  push Not
  constructor
  · rintro (hend | hleaves) - hmax
    · omega
    · exact hleaves
  · intro h
    refine or_iff_not_imp_left.mpr fun hend => h hle (not_lt.mp hend)

/-- The threads of a mission keep apart exactly when of every two of them the one that starts
lower stops short of the other, or one of them hashes nothing. -/
theorem keepApart_iff (hashes : Challenge → Nat → List Hash) (args : MineArgs) (m : Mission)
    (cores : List Core) : KeepApart hashes args m cores ↔
      ∀ core ∈ cores, ∀ core' ∈ cores, core.id ≠ core'.id → HasThread args cores core →
        HasThread args cores core' → firstNonce m core ≤ firstNonce m core' →
          (core.turn (firstNonce m core)).TurnsAway ∨
            (core'.turn (firstNonce m core')).TurnsAway ∨ StopsShort hashes args m core core' := by
  constructor
  · intro h core hcore core' hcore' hid hthread hthread' hle
    have hapart := h core hcore core' hcore' hid
    rw [hashedBy_of_hasThread hthread, hashedBy_of_hasThread hthread'] at hapart
    rw [stopsShort_iff hle]
    exact (disjoint_hashedFrom_iff hle).mp hapart
  · intro h core hcore core' hcore' hid
    by_cases hthread : HasThread args cores core
    · by_cases hthread' : HasThread args cores core'
      · rw [hashedBy_of_hasThread hthread, hashedBy_of_hasThread hthread']
        obtain hle | hle := le_total (firstNonce m core) (firstNonce m core')
        · have hshort := h core hcore core' hcore' hid hthread hthread' hle
          rw [stopsShort_iff hle] at hshort
          exact (disjoint_hashedFrom_iff hle).mpr hshort
        · have hshort := h core' hcore' core hcore hid.symm hthread' hthread hle
          rw [stopsShort_iff hle] at hshort
          exact fun k hk hk' => (disjoint_hashedFrom_iff hle).mpr hshort k hk' hk
      · rw [hashedBy_of_not_hasThread hthread']
        exact fun k _ => List.not_mem_nil
    · rw [hashedBy_of_not_hasThread hthread]
      exact fun k hk => absurd hk List.not_mem_nil

/-- The first range that the server gives out. -/
def firstMission : Mission := ⟨.fill 32 7, ⟨0, nonceRangeSize⟩, 60, by decide⟩

/-- Two cores that nothing disturbs. -/
def twoCores : List Core := [⟨0, fun _ => ⟨true, false, 0⟩⟩, ⟨1, fun _ => ⟨true, false, 0⟩⟩]

/-- Before the cutoff the first thread comes to the nonce 10,000, where the second started. -/
theorem not_keepApart_twoCores : ¬ ∀ (hashes : Challenge → Nat → List Hash) (args : MineArgs)
    (m : Mission) (cores : List Core), (cores.map Core.id).Nodup →
      KeepApart hashes args m cores := by
  intro h
  have hapart := h (fun _ _ => []) ⟨2, 0⟩ firstMission twoCores (by decide)
    ⟨0, fun _ => ⟨true, false, 0⟩⟩ (by simp [twoCores]) ⟨1, fun _ => ⟨true, false, 0⟩⟩
    (by simp [twoCores]) (by decide)
  rw [hashedBy_of_hasThread (by decide), hashedBy_of_hasThread (by decide)] at hapart
  have hstays : ∀ (first j : Nat), ¬ LeavesAfter (fun _ => []) 60 (fun _ => ⟨true, false, 0⟩)
      first j := by
    rintro first j (⟨-, -, k, -, -, hx, hmem, -⟩ | hrunning | hstop)
    · cases hmem
    · cases hrunning
    · cases hstop
  refine hapart 10_000 (mem_hashedFrom.mpr ⟨by decide, ?_⟩) (mem_hashedFrom.mpr ⟨by decide, ?_⟩)
  · exact ⟨by decide, by decide, fun j _ _ => hstays _ j⟩
  · exact ⟨by decide, by decide, fun j _ _ => hstays _ j⟩

end Hashpoo.Client.Mine
