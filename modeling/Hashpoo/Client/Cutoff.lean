import Hashpoo.Client.Mine
import Hashpoo.Client.Turbomine

/-!
# The cutoff in the workers

The loops look at the clock after every nonce that is a multiple of a hundred. In `mine.rs` the
thread then ends. In `turbomine.rs` it only leaves the chunk: a thread that is late still begins
each of its other chunks.
-/

namespace Hashpoo.Client

open Foundation

/-- A hash above the minimum has been met. -/
def Found (hashes : Nat → List Hash) (tried : List Nat) : Prop :=
  ∃ nonce ∈ tried, ∃ hx ∈ hashes nonce, minDiff < hx.difficulty

instance (hashes : Nat → List Hash) (tried : List Nat) : Decidable (Found hashes tried) :=
  inferInstanceAs (Decidable (∃ nonce ∈ tried, ∃ hx ∈ hashes nonce, minDiff < hx.difficulty))

theorem Found.append {hashes : Nat → List Hash} {tried : List Nat} (h : Found hashes tried)
    (nonces : List Nat) : Found hashes (tried ++ nonces) := by
  obtain ⟨nonce, hmem, hhash⟩ := h
  exact ⟨nonce, List.mem_append_left _ hmem, hhash⟩

namespace Turbomine

/-- No flag is raised. -/
def CoreTurn.unflagged (t : CoreTurn) : Bool := t.running && !t.stop && !t.stopSignal

/-- The first nonces, up to a multiple of a hundred. -/
def untilHundred : List Nat → List Nat
  | [] => []
  | nonce :: nonces => nonce :: if nonce % 100 = 0 then [] else untilHundred nonces

theorem length_untilHundred_range' (start len : Nat) :
    (untilHundred (List.range' start len)).length =
      min len ((100 - start % 100) % 100 + 1) := by
  induction len generalizing start with
  | zero => simp [untilHundred]
  | succ len ih =>
      rw [List.range'_succ, untilHundred]
      split
      · simp only [List.length_singleton]
        omega
      · rw [List.length_cons, ih]
        omega

/-- What a thread still hashes after a nonce that has come too late: in the chunk of the nonce
and in the chunks that follow. -/
def leftAfter (nonce : Nat) (post : List Nat) (chunks : List (List Nat)) : List Nat :=
  (if nonce % 100 = 0 then [] else untilHundred post) ++ chunks.flatMap untilHundred

/-- With the nonce tried, the cutoff time has elapsed and something has been found. -/
def Struck (hashes : Nat → List Hash) (cutoffTime : Nat) (turn : Nat → CoreTurn)
    (tried : List Nat) (nonce : Nat) : Prop :=
  cutoffTime ≤ (turn nonce).elapsed ∧ Found hashes (tried ++ [nonce])

instance (hashes : Nat → List Hash) (cutoffTime : Nat) (turn : Nat → CoreTurn)
    (tried : List Nat) (nonce : Nat) : Decidable (Struck hashes cutoffTime turn tried nonce) :=
  inferInstanceAs (Decidable (_ ∧ _))

/-- No nonce among those that follow is the one at which the cutoff strikes. -/
def Quiet (hashes : Nat → List Hash) (cutoffTime : Nat) (turn : Nat → CoreTurn) :
    List Nat → List Nat → Prop
  | _, [] => True
  | tried, nonce :: nonces =>
      ¬ Struck hashes cutoffTime turn tried nonce ∧
        Quiet hashes cutoffTime turn (tried ++ [nonce]) nonces

/-- Where the cutoff first strikes, few nonces are left. -/
def LittleLeft (hashes : Nat → List Hash) (cutoffTime : Nat) (turn : Nat → CoreTurn)
    (chunks : List (List Nat)) (bound : Nat) : Prop :=
  ∀ before pre nonce post after, chunks = before ++ (pre ++ nonce :: post) :: after →
    Quiet hashes cutoffTime turn [] (before.flatten ++ pre) →
    Struck hashes cutoffTime turn (before.flatten ++ pre) nonce →
    (leftAfter nonce post after).length ≤ bound

section Chunks

variable {hashes : Nat → List Hash} {cutoffTime : Nat} {turn : Nat → CoreTurn} {w : Worker}

theorem quiet_append {tried first second : List Nat} :
    Quiet hashes cutoffTime turn tried (first ++ second) ↔
      Quiet hashes cutoffTime turn tried first ∧
        Quiet hashes cutoffTime turn (tried ++ first) second := by
  induction first generalizing tried with
  | nil => simp [Quiet]
  | cons nonce first ih => simp [Quiet, ih, and_assoc]

theorem quiet_of_early {tried nonces : List Nat}
    (h : ∀ nonce ∈ nonces, (turn nonce).elapsed < cutoffTime) :
    Quiet hashes cutoffTime turn tried nonces := by
  induction nonces generalizing tried with
  | nil => trivial
  | cons nonce nonces ih =>
      obtain ⟨hnonce, hnonces⟩ := List.forall_mem_cons.mp h
      exact ⟨fun hstruck => absurd hstruck.1 (not_le.mpr hnonce), ih hnonces⟩

/-- Either the cutoff does not strike at all, or it strikes at a first nonce. -/
theorem quiet_or_struck (tried nonces : List Nat) :
    Quiet hashes cutoffTime turn tried nonces ∨
      ∃ before nonce further, nonces = before ++ nonce :: further ∧
        Quiet hashes cutoffTime turn tried before ∧
        Struck hashes cutoffTime turn (tried ++ before) nonce := by
  induction nonces generalizing tried with
  | nil => exact .inl trivial
  | cons nonce nonces ih =>
      by_cases hstruck : Struck hashes cutoffTime turn tried nonce
      · exact .inr ⟨[], nonce, nonces, rfl, trivial, by rwa [List.append_nil]⟩
      · obtain hquiet | ⟨before, k, further, rfl, hquiet, hk⟩ := ih (tried ++ [nonce])
        · exact .inl ⟨hstruck, hquiet⟩
        · refine .inr ⟨nonce :: before, k, further, rfl, ⟨hstruck, hquiet⟩, ?_⟩
          rwa [List.append_cons]

/-! ## Flags -/

theorem mineChunk_cons {nonce : Nat} (nonces : List Nat) (h : (turn nonce).unflagged = true) :
    mineChunk hashes cutoffTime turn (nonce :: nonces) w =
      if nonce % 100 = 0 ∧ cutoffTime ≤ (turn nonce).elapsed ∧
          minDiff ≤ (w.tryNonce hashes nonce).best.difficulty then
        (w.tryNonce hashes nonce, .next)
      else mineChunk hashes cutoffTime turn nonces (w.tryNonce hashes nonce) := by
  simp only [CoreTurn.unflagged, Bool.and_eq_true, Bool.not_eq_true'] at h
  obtain ⟨⟨hrunning, hstop⟩, hsignal⟩ := h
  simp only [mineChunk, hrunning, hstop, hsignal, Bool.false_eq_true, Bool.true_eq_false,
    if_false, ge_iff_le]

theorem mineChunk_cons_flagged {nonce : Nat} (nonces : List Nat)
    (h : (turn nonce).unflagged = false) :
    (mineChunk hashes cutoffTime turn (nonce :: nonces) w).1 = w := by
  rw [mineChunk]
  split
  · rfl
  · next hsignal =>
    split
    · rfl
    · next hrunning =>
      split
      · rfl
      · next hstop => simp_all [CoreTurn.unflagged]

/-- A raised flag keeps a thread from the rest of a chunk, and not from what it has done. -/
theorem mineChunk_filter {nonces : List Nat} (w : Worker)
    (h : nonces.Pairwise fun i j => (turn j).unflagged = true → (turn i).unflagged = true) :
    mineChunk hashes cutoffTime turn (nonces.filter fun k => (turn k).unflagged) w =
        ((mineChunk hashes cutoffTime turn nonces w).1, .next) ∧
      ((mineChunk hashes cutoffTime turn nonces w).2 = .outer →
        ∃ k ∈ nonces, (turn k).unflagged = false) := by
  induction nonces generalizing w with
  | nil => exact ⟨rfl, nofun⟩
  | cons nonce nonces ih =>
      obtain ⟨hfirst, hrest⟩ := List.pairwise_cons.mp h
      cases hflags : (turn nonce).unflagged with
      | true =>
          have hkeep : (nonce :: nonces).filter (fun k => (turn k).unflagged) =
              nonce :: nonces.filter fun k => (turn k).unflagged := List.filter_cons_of_pos hflags
          rw [hkeep, mineChunk_cons _ hflags, mineChunk_cons _ hflags]
          split
          · exact ⟨rfl, nofun⟩
          · obtain ⟨heq, houter⟩ := ih (w.tryNonce hashes nonce) hrest
            refine ⟨heq, fun h => ?_⟩
            obtain ⟨k, hk, hflagged⟩ := houter h
            exact ⟨k, List.mem_cons_of_mem _ hk, hflagged⟩
      | false =>
          have hnone : (nonce :: nonces).filter (fun k => (turn k).unflagged) = [] := by
            rw [List.filter_eq_nil_iff, List.forall_mem_cons]
            exact ⟨by simp [hflags], fun k hk hk' => by simp [hfirst k hk hk'] at hflags⟩
          rw [hnone, mineChunk_cons_flagged _ hflags]
          exact ⟨rfl, fun _ => ⟨nonce, List.mem_cons_self, hflags⟩⟩

theorem mineChunks_nils {chunks : List (List Nat)} (h : ∀ chunk ∈ chunks, chunk = []) :
    mineChunks hashes cutoffTime turn chunks w = w := by
  induction chunks with
  | nil => rfl
  | cons chunk chunks ih =>
      obtain ⟨rfl, hchunks⟩ := List.forall_mem_cons.mp h
      exact ih hchunks

/-- What is left of the chunks when no thread comes past a raised flag. -/
def offered (turn : Nat → CoreTurn) (chunks : List (List Nat)) : List (List Nat) :=
  chunks.map fun chunk => chunk.filter fun k => (turn k).unflagged

theorem mineChunks_offered {chunks : List (List Nat)} (w : Worker)
    (h : chunks.flatten.Pairwise fun i j =>
      (turn j).unflagged = true → (turn i).unflagged = true) :
    mineChunks hashes cutoffTime turn (offered turn chunks) w =
      mineChunks hashes cutoffTime turn chunks w := by
  induction chunks generalizing w with
  | nil => rfl
  | cons chunk chunks ih =>
      obtain ⟨hchunk, hchunks, hlater⟩ := List.pairwise_append.mp h
      obtain ⟨heq, houter⟩ := mineChunk_filter w hchunk
      rw [offered, List.map_cons, mineChunks, heq, mineChunks]
      cases hexit : mineChunk hashes cutoffTime turn chunk w with
      | mk w' exit =>
          cases exit with
          | next => exact ih w' hchunks
          | outer =>
              -- No nonce after the flag is free of it, so nothing is left of the other chunks.
              obtain ⟨k, hk, hflagged⟩ := houter (by rw [hexit])
              refine mineChunks_nils fun c hc => ?_
              obtain ⟨l, hl, rfl⟩ := List.mem_map.mp hc
              rw [List.filter_eq_nil_iff]
              intro j hj hj'
              simp [hlater k hk j (List.mem_flatten_of_mem hl hj) hj'] at hflagged

/-! ## The strike -/

theorem mineChunk_cons_unflagged (hw : w.Faithful hashes) {nonce : Nat} (nonces : List Nat)
    (hflags : (turn nonce).unflagged = true) :
    mineChunk hashes cutoffTime turn (nonce :: nonces) w =
      if nonce % 100 = 0 ∧ Struck hashes cutoffTime turn w.hashed nonce then
        (w.tryNonce hashes nonce, .next)
      else mineChunk hashes cutoffTime turn nonces (w.tryNonce hashes nonce) := by
  have hbest := (hw.tryNonce nonce).minDiff_le_best
  rw [Worker.tryNonce_hashed] at hbest
  simp only [mineChunk_cons _ hflags, hbest, Struck, Found]
  congr

/-- Before the cutoff strikes a chunk is hashed to its end. -/
theorem mineChunk_quiet_append (hw : w.Faithful hashes) {nonces : List Nat}
    (hflags : ∀ nonce ∈ nonces, (turn nonce).unflagged = true)
    (hquiet : Quiet hashes cutoffTime turn w.hashed nonces) :
    ∃ w' : Worker, w'.Faithful hashes ∧ w'.hashed = w.hashed ++ nonces ∧
      ∀ rest, mineChunk hashes cutoffTime turn (nonces ++ rest) w =
        mineChunk hashes cutoffTime turn rest w' := by
  induction nonces generalizing w with
  | nil => exact ⟨w, hw, (List.append_nil _).symm, fun _ => rfl⟩
  | cons nonce nonces ih =>
      obtain ⟨hfirst, hflags⟩ := List.forall_mem_cons.mp hflags
      obtain ⟨hcalm, hquiet⟩ := hquiet
      rw [← Worker.tryNonce_hashed hashes] at hquiet
      obtain ⟨w', hw', hhashed, hrest⟩ := ih (hw.tryNonce nonce) hflags hquiet
      refine ⟨w', hw', ?_, ?_⟩
      · rw [hhashed, Worker.tryNonce_hashed, ← List.append_cons]
      · intro rest
        rw [List.cons_append, mineChunk_cons_unflagged hw _ hfirst,
          if_neg fun h => hcalm h.2, hrest]

/-- Afterwards it is hashed up to the first multiple of a hundred. -/
theorem mineChunk_late (hw : w.Faithful hashes) {nonces : List Nat}
    (hflags : ∀ nonce ∈ nonces, (turn nonce).unflagged = true)
    (hfound : Found hashes w.hashed) (hlate : ∀ nonce ∈ nonces, cutoffTime ≤ (turn nonce).elapsed) :
    ∃ w' : Worker, w'.Faithful hashes ∧ w'.hashed = w.hashed ++ untilHundred nonces ∧
      mineChunk hashes cutoffTime turn nonces w = (w', .next) := by
  induction nonces generalizing w with
  | nil => exact ⟨w, hw, (List.append_nil _).symm, rfl⟩
  | cons nonce nonces ih =>
      obtain ⟨hfirst, hflags⟩ := List.forall_mem_cons.mp hflags
      obtain ⟨hnow, hlate⟩ := List.forall_mem_cons.mp hlate
      rw [mineChunk_cons_unflagged hw _ hfirst, untilHundred]
      by_cases hhundred : nonce % 100 = 0
      · refine ⟨_, hw.tryNonce nonce, ?_, if_pos ⟨hhundred, hnow, hfound.append _⟩⟩
        rw [if_pos hhundred, Worker.tryNonce_hashed]
      · have hfound' : Found hashes (w.tryNonce hashes nonce).hashed := by
          rw [Worker.tryNonce_hashed]
          exact hfound.append _
        obtain ⟨w', hw', hhashed, hchunk⟩ := ih (hw.tryNonce nonce) hflags hfound' hlate
        refine ⟨w', hw', ?_, ?_⟩
        · rw [hhashed, Worker.tryNonce_hashed, if_neg hhundred, ← List.append_cons]
        · rw [if_neg fun h => hhundred h.1, hchunk]

theorem mineChunks_quiet_append (hw : w.Faithful hashes) {chunks : List (List Nat)}
    (hflags : ∀ chunk ∈ chunks, ∀ nonce ∈ chunk, (turn nonce).unflagged = true)
    (hquiet : Quiet hashes cutoffTime turn w.hashed chunks.flatten) :
    ∃ w' : Worker, w'.Faithful hashes ∧ w'.hashed = w.hashed ++ chunks.flatten ∧
      ∀ rest, mineChunks hashes cutoffTime turn (chunks ++ rest) w =
        mineChunks hashes cutoffTime turn rest w' := by
  induction chunks generalizing w with
  | nil => exact ⟨w, hw, (List.append_nil _).symm, fun _ => rfl⟩
  | cons chunk chunks ih =>
      obtain ⟨hfirst, hflags⟩ := List.forall_mem_cons.mp hflags
      obtain ⟨hchunk, hquiet⟩ := quiet_append.mp hquiet
      obtain ⟨w₁, hw₁, hhashed₁, hnext⟩ := mineChunk_quiet_append hw hfirst hchunk
      rw [← hhashed₁] at hquiet
      obtain ⟨w', hw', hhashed, hrest⟩ := ih hw₁ hflags hquiet
      refine ⟨w', hw', ?_, ?_⟩
      · rw [hhashed, hhashed₁, List.flatten_cons, List.append_assoc]
      · intro rest
        have hend := hnext []
        rw [List.append_nil] at hend
        rw [List.cons_append, mineChunks, hend]
        exact hrest rest

theorem hashed_mineChunks_quiet (hw : w.Faithful hashes) {chunks : List (List Nat)}
    (hflags : ∀ chunk ∈ chunks, ∀ nonce ∈ chunk, (turn nonce).unflagged = true)
    (hquiet : Quiet hashes cutoffTime turn w.hashed chunks.flatten) :
    (mineChunks hashes cutoffTime turn chunks w).hashed = w.hashed ++ chunks.flatten := by
  obtain ⟨w', -, hhashed, hrest⟩ := mineChunks_quiet_append hw hflags hquiet
  have hend := hrest []
  rw [List.append_nil] at hend
  rw [hend, mineChunks, hhashed]

theorem hashed_mineChunks_late (hw : w.Faithful hashes) {chunks : List (List Nat)}
    (hflags : ∀ chunk ∈ chunks, ∀ nonce ∈ chunk, (turn nonce).unflagged = true)
    (hfound : Found hashes w.hashed)
    (hlate : ∀ chunk ∈ chunks, ∀ nonce ∈ chunk, cutoffTime ≤ (turn nonce).elapsed) :
    (mineChunks hashes cutoffTime turn chunks w).hashed =
      w.hashed ++ chunks.flatMap untilHundred := by
  induction chunks generalizing w with
  | nil => exact (List.append_nil _).symm
  | cons chunk chunks ih =>
      obtain ⟨hfirst, hflags⟩ := List.forall_mem_cons.mp hflags
      obtain ⟨hnow, hlate⟩ := List.forall_mem_cons.mp hlate
      obtain ⟨w', hw', hhashed, hnext⟩ := mineChunk_late hw hfirst hfound hnow
      rw [mineChunks, hnext]
      show (mineChunks hashes cutoffTime turn chunks w').hashed = _
      rw [ih hw' hflags (hhashed ▸ hfound.append _) hlate, hhashed, List.flatMap_cons,
        List.append_assoc]

/-- Behind the nonce at which the cutoff strikes, a thread leaves the chunk when it looks at the
clock. -/
theorem mineChunk_struck (hw : w.Faithful hashes) {nonce : Nat} {post : List Nat}
    (hnonce : (turn nonce).unflagged = true) (hrest : ∀ k ∈ post, (turn k).unflagged = true)
    (hstruck : Struck hashes cutoffTime turn w.hashed nonce)
    (hpost : ∀ k ∈ post, cutoffTime ≤ (turn k).elapsed) :
    ∃ w' : Worker, w'.Faithful hashes ∧
      w'.hashed = w.hashed ++ nonce :: (if nonce % 100 = 0 then [] else untilHundred post) ∧
      mineChunk hashes cutoffTime turn (nonce :: post) w = (w', .next) := by
  have hfound : Found hashes (w.tryNonce hashes nonce).hashed := by
    rw [Worker.tryNonce_hashed]
    exact hstruck.2
  rw [mineChunk_cons_unflagged hw _ hnonce]
  by_cases hhundred : nonce % 100 = 0
  · refine ⟨_, hw.tryNonce nonce, ?_, if_pos ⟨hhundred, hstruck⟩⟩
    rw [Worker.tryNonce_hashed, if_pos hhundred]
  · obtain ⟨w', hw', hhashed, hchunk⟩ := mineChunk_late (hw.tryNonce nonce) hrest hfound hpost
    refine ⟨w', hw', ?_, ?_⟩
    · rw [hhashed, Worker.tryNonce_hashed, if_neg hhundred, ← List.append_cons]
    · rw [if_neg fun h => hhundred h.1, hchunk]

/-- The run of a thread for which the cutoff strikes at a nonce. -/
theorem hashed_mineChunks_struck (hw : w.Faithful hashes) {before after : List (List Nat)}
    {pre post : List Nat} {nonce : Nat}
    (hflags : ∀ chunk ∈ before ++ (pre ++ nonce :: post) :: after, ∀ k ∈ chunk,
      (turn k).unflagged = true)
    (hquiet : Quiet hashes cutoffTime turn w.hashed (before.flatten ++ pre))
    (hstruck : Struck hashes cutoffTime turn (w.hashed ++ (before.flatten ++ pre)) nonce)
    (hpost : ∀ k ∈ post, cutoffTime ≤ (turn k).elapsed)
    (hafter : ∀ chunk ∈ after, ∀ k ∈ chunk, cutoffTime ≤ (turn k).elapsed) :
    (mineChunks hashes cutoffTime turn (before ++ (pre ++ nonce :: post) :: after) w).hashed =
      w.hashed ++ (before.flatten ++ pre ++ nonce :: leftAfter nonce post after) := by
  obtain ⟨hbefore, hflags⟩ := List.forall_mem_append.mp hflags
  obtain ⟨hchunk, hflags⟩ := List.forall_mem_cons.mp hflags
  obtain ⟨hpre, hchunk⟩ := List.forall_mem_append.mp hchunk
  obtain ⟨hnonce, hrest⟩ := List.forall_mem_cons.mp hchunk
  obtain ⟨hquiet, hquietChunk⟩ := quiet_append.mp hquiet
  obtain ⟨w₁, hw₁, hhashed₁, hnext₁⟩ := mineChunks_quiet_append hw hbefore hquiet
  rw [← hhashed₁] at hquietChunk
  obtain ⟨w₂, hw₂, hhashed₂, hnext₂⟩ := mineChunk_quiet_append hw₁ hpre hquietChunk
  have htried : w₂.hashed = w.hashed ++ (before.flatten ++ pre) := by
    rw [hhashed₂, hhashed₁, List.append_assoc]
  rw [← htried] at hstruck
  obtain ⟨w₃, hw₃, hhashed₃, hexit⟩ := mineChunk_struck hw₂ hnonce hrest hstruck hpost
  have hfound₃ : Found hashes w₃.hashed := by
    rw [hhashed₃, List.append_cons]
    exact hstruck.2.append _
  rw [hnext₁, mineChunks, hnext₂, hexit]
  show (mineChunks hashes cutoffTime turn after w₃).hashed = _
  rw [hashed_mineChunks_late hw₃ hflags hfound₃ hafter, hhashed₃, htried, leftAfter]
  simp only [List.append_assoc, List.cons_append]

/-- A nonce of the chunks lies in one of them. -/
theorem exists_chunk_of_flatten_eq {chunks : List (List Nat)} {tried further : List Nat}
    {nonce : Nat} (h : chunks.flatten = tried ++ nonce :: further) :
    ∃ before pre post after, chunks = before ++ (pre ++ nonce :: post) :: after ∧
      tried = before.flatten ++ pre ∧ further = post ++ after.flatten := by
  obtain ⟨before, rest, rfl, rfl, hrest⟩ | ⟨before, pre, k, post, after, rfl, rfl, hrest⟩ :=
    List.flatten_eq_append_iff.mp h
  · obtain ⟨nils, post, after, rfl, hnils, rfl⟩ := List.flatten_eq_cons_iff.mp hrest.symm
    refine ⟨before ++ nils, [], post, after, by simp, ?_, rfl⟩
    rw [List.flatten_append, List.flatten_eq_nil_iff.mpr hnils, List.append_nil, List.append_nil]
  · obtain ⟨rfl, rfl⟩ := List.cons.inj hrest
    exact ⟨before, pre, post, after, rfl, rfl, rfl⟩

/-- With the times in order, no later nonce is tried before the cutoff. -/
theorem hashed_mineChunks_ordered {before after : List (List Nat)} {pre post : List Nat}
    {nonce : Nat} (startNonce : Nat)
    (hflags : ∀ chunk ∈ before ++ (pre ++ nonce :: post) :: after,
      ∀ k ∈ chunk, (turn k).unflagged = true)
    (hclock : (before ++ (pre ++ nonce :: post) :: after).flatten.Pairwise
      fun i j => (turn i).elapsed ≤ (turn j).elapsed)
    (hquiet : Quiet hashes cutoffTime turn [] (before.flatten ++ pre))
    (hstruck : Struck hashes cutoffTime turn (before.flatten ++ pre) nonce) :
    (mineChunks hashes cutoffTime turn (before ++ (pre ++ nonce :: post) :: after)
        (.start startNonce)).hashed =
      before.flatten ++ pre ++ nonce :: leftAfter nonce post after := by
  have hsplit : (before ++ (pre ++ nonce :: post) :: after).flatten =
      (before.flatten ++ pre) ++ nonce :: (post ++ after.flatten) := by
    simp only [List.flatten_append, List.flatten_cons, List.append_assoc, List.cons_append]
  rw [hsplit] at hclock
  have hlater : ∀ k ∈ post ++ after.flatten, cutoffTime ≤ (turn k).elapsed := fun k hk =>
    hstruck.1.trans ((List.pairwise_cons.mp (List.pairwise_append.mp hclock).2.1).1 k hk)
  exact hashed_mineChunks_struck (Worker.faithful_start _) hflags hquiet hstruck
    (fun k hk => hlater k (List.mem_append_left _ hk))
    fun chunk hchunk k hk =>
      hlater k (List.mem_append_right _ (List.mem_flatten_of_mem hchunk hk))

/-- The number of nonces after the strike is that of the nonces left. -/
theorem further_le_iff {chunks : List (List Nat)} (startNonce bound : Nat)
    (hflags : ∀ chunk ∈ chunks, ∀ k ∈ chunk, (turn k).unflagged = true)
    (hclock : chunks.flatten.Pairwise fun i j => (turn i).elapsed ≤ (turn j).elapsed) :
    (∀ tried nonce further,
      (mineChunks hashes cutoffTime turn chunks (.start startNonce)).hashed =
        tried ++ nonce :: further →
      Struck hashes cutoffTime turn tried nonce → further.length ≤ bound) ↔
      LittleLeft hashes cutoffTime turn chunks bound := by
  constructor
  · rintro h before pre nonce post after rfl hquiet hstruck
    exact h _ _ _ (hashed_mineChunks_ordered startNonce hflags hclock hquiet hstruck) hstruck
  · intro h tried nonce further hhashed hstruck
    have hstrike : Quiet hashes cutoffTime turn [] chunks.flatten ∨ _ :=
      quiet_or_struck [] chunks.flatten
    obtain hquiet | ⟨before, first, later, hsplit, hquiet, hfirst⟩ := hstrike
    · rw [hashed_mineChunks_quiet (Worker.faithful_start startNonce) hflags hquiet] at hhashed
      rw [show chunks.flatten = tried ++ nonce :: further from hhashed, quiet_append] at hquiet
      exact absurd hstruck hquiet.2.1
    · obtain ⟨before, pre, post, after, rfl, rfl, -⟩ := exists_chunk_of_flatten_eq hsplit
      have hleft := h before pre first post after rfl hquiet hfirst
      rw [hashed_mineChunks_ordered startNonce hflags hclock hquiet hfirst] at hhashed
      obtain ⟨l, htried, hl⟩ | ⟨l, hbefore, hl⟩ := List.append_eq_append_iff.mp hhashed
      · have hlength := congrArg List.length hl
        simp only [List.length_cons, List.length_append] at hlength
        omega
      · cases l with
        | nil =>
            obtain ⟨-, rfl⟩ := List.cons.inj hl
            exact hleft
        | cons k l =>
            -- Before the first nonce the cutoff does not strike.
            obtain ⟨rfl, -⟩ := List.cons.inj hl
            rw [hbefore, quiet_append] at hquiet
            exact absurd hstruck hquiet.2.1

end Chunks

/-! ## The threads -/

/-- What a thread reads in the turns of its nonces. The clock does not go back, and no flag is
lowered. -/
structure Course where
  turn : Nat → CoreTurn
  clock : Monotone fun nonce => (turn nonce).elapsed
  flags : ∀ i j, i ≤ j → (turn j).unflagged = true → (turn i).unflagged = true

/-- Where the share of a thread starts. -/
def coreStart (range : NonceRange) (threads coreId : Nat) : Nat :=
  let coreRangeSize := wrappingSub range.stop range.start / threads
  Word.unsigned 64 (range.start + coreId * coreRangeSize : Nat)

/-- Once the cutoff time has elapsed and a thread holds a best difficulty of at least `MIN_DIFF`,
it hashes at most a hundred further nonces. -/
def LeavesInTime (hashes : Challenge → Nat → List Hash) (args : MineArgs) (m : Mission)
    (course : Nat → Course) : Prop :=
  ∀ chunkSize, calculateDynamicChunkSize m.nonceRange args.threads = .ok chunkSize →
    ∀ coreId < args.threads, ∀ tried nonce further,
      (core hashes args m chunkSize (fun id => (course id).turn) coreId).hashed =
        tried ++ nonce :: further →
      m.cutoffWith args ≤ ((course coreId).turn nonce).elapsed →
      minDiff ≤ ((tried ++ [nonce]).foldl (Worker.tryNonce (hashes m.challenge))
        (.start (coreStart m.nonceRange args.threads coreId))).best.difficulty →
      further.length ≤ 100

theorem minDiff_le_foldl {hashes : Nat → List Hash} (startNonce : Nat) (nonces : List Nat) :
    minDiff ≤ (nonces.foldl (Worker.tryNonce hashes) (.start startNonce)).best.difficulty ↔
      Found hashes nonces := by
  have hfold : ∀ w : Worker, w.Faithful hashes →
      (nonces.foldl (Worker.tryNonce hashes) w).Faithful hashes ∧
        (nonces.foldl (Worker.tryNonce hashes) w).hashed = w.hashed ++ nonces := by
    induction nonces with
    | nil => exact fun w hw => ⟨hw, (List.append_nil _).symm⟩
    | cons nonce nonces ih =>
        intro w hw
        obtain ⟨hfaithful, hhashed⟩ := ih (w.tryNonce hashes nonce) (hw.tryNonce nonce)
        refine ⟨hfaithful, ?_⟩
        rw [List.foldl_cons, hhashed, Worker.tryNonce_hashed, ← List.append_cons]
  obtain ⟨hfaithful, hhashed⟩ := hfold (.start startNonce) (Worker.faithful_start _)
  rw [hfaithful.minDiff_le_best, hhashed]
  rfl

/-- A thread goes upwards through its nonces. -/
theorem pairwise_flatten_coreChunks (range : NonceRange) (threads chunkSize coreId : Nat) :
    (coreChunks range threads chunkSize coreId).flatten.Pairwise (· < ·) := by
  rw [List.pairwise_flatten]
  constructor
  · intro chunk hchunk
    obtain ⟨chunkStart, -, rfl⟩ := List.mem_map.mp hchunk
    exact List.pairwise_lt_range'
  · simp only [coreChunks, stepBy, List.pairwise_map]
    refine List.pairwise_lt_range.imp ?_
    intro i j hij x hx y hy
    have hmul : (i + 1) * chunkSize ≤ j * chunkSize := Nat.mul_le_mul_right _ hij
    have hend := Word.unsigned_le 64
      (coreStart range threads coreId + i * chunkSize + chunkSize)
    obtain ⟨-, hlt⟩ := List.mem_range'_1.mp hx
    obtain ⟨hge, -⟩ := List.mem_range'_1.mp hy
    rw [Nat.add_one_mul] at hmul
    rw [coreStart] at hend
    omega

/-- A thread goes through what the flags leave it. -/
theorem core_eq_offered (hashes : Challenge → Nat → List Hash) (args : MineArgs) (m : Mission)
    (course : Nat → Course) (chunkSize coreId : Nat) :
    core hashes args m chunkSize (fun id => (course id).turn) coreId =
      mineChunks (hashes m.challenge) (m.cutoffWith args) (course coreId).turn
        (offered (course coreId).turn (coreChunks m.nonceRange args.threads chunkSize coreId))
        (.start (coreStart m.nonceRange args.threads coreId)) := by
  have hflags : (coreChunks m.nonceRange args.threads chunkSize coreId).flatten.Pairwise fun i j =>
      ((course coreId).turn j).unflagged = true → ((course coreId).turn i).unflagged = true :=
    (pairwise_flatten_coreChunks m.nonceRange args.threads chunkSize coreId).imp fun hij =>
      (course coreId).flags _ _ hij.le
  rw [mineChunks_offered _ hflags]
  rfl

/-- The threads leave in time in exactly the runs in which the chunks leave them little. -/
theorem leavesInTime_iff (hashes : Challenge → Nat → List Hash) (args : MineArgs) (m : Mission)
    (course : Nat → Course) : LeavesInTime hashes args m course ↔
      ∀ chunkSize, calculateDynamicChunkSize m.nonceRange args.threads = .ok chunkSize →
        ∀ coreId < args.threads, LittleLeft (hashes m.challenge) (m.cutoffWith args)
          (course coreId).turn (offered (course coreId).turn
            (coreChunks m.nonceRange args.threads chunkSize coreId)) 100 := by
  refine forall₂_congr fun chunkSize hsize => forall₂_congr fun coreId hid => ?_
  have hsorted := pairwise_flatten_coreChunks m.nonceRange args.threads chunkSize coreId
  have hclock : (offered (course coreId).turn
      (coreChunks m.nonceRange args.threads chunkSize coreId)).flatten.Pairwise fun i j =>
        ((course coreId).turn i).elapsed ≤ ((course coreId).turn j).elapsed := by
    rw [offered, ← List.filter_flatten]
    exact (hsorted.filter _).imp fun hij => (course coreId).clock hij.le
  have hunflagged : ∀ chunk ∈ offered (course coreId).turn
      (coreChunks m.nonceRange args.threads chunkSize coreId), ∀ k ∈ chunk,
        ((course coreId).turn k).unflagged = true := by
    intro chunk hchunk k hk
    obtain ⟨whole, -, rfl⟩ := List.mem_map.mp hchunk
    exact (List.mem_filter.mp hk).2
  rw [← further_le_iff (coreStart m.nonceRange args.threads coreId) 100 hunflagged hclock]
  refine forall₃_congr fun tried nonce further => ?_
  rw [core_eq_offered, minDiff_le_foldl, Struck, and_imp]

/-! ## A range of the server -/

/-- Every nonce has a hash above the minimum. -/
def nines (_ : Challenge) (_ : Nat) : List Hash := [⟨.fill 16 0, 9⟩]

/-- The cutoff is over when the mission arrives. -/
def overdue : Mission := ⟨.fill 32 7, ⟨0, 40_000_000⟩, 0, by decide⟩

/-- No flag is raised, and no second has passed. -/
def calm : CoreTurn := ⟨⟨true, false, 0⟩, false⟩

def calmCourse : Course := ⟨fun _ => calm, fun _ _ _ => le_rfl, fun _ _ _ _ => rfl⟩

theorem offered_calm (chunks : List (List Nat)) : offered calmCourse.turn chunks = chunks := by
  have hkeep : ∀ chunk : List Nat, chunk.filter (fun _ => calm.unflagged) = chunk :=
    fun chunk => List.filter_eq_self.mpr fun _ _ => rfl
  simp only [offered, calmCourse, hkeep, List.map_id']

theorem coreChunks_middle : coreChunks ⟨0, 40_000_000⟩ 3 3_000_000 1 =
    [List.range' 13_333_333 3_000_000, List.range' 16_333_333 3_000_000,
      List.range' 19_333_333 3_000_000, List.range' 22_333_333 3_000_000,
      List.range' 25_333_333 1_333_333] := by
  simp [coreChunks, stepBy, wrappingSub, Word.unsigned, List.range_succ]

/-- The second of three threads begins five chunks, all of them in the middle of a hundred. -/
theorem not_leavesInTime : ¬ ∀ (hashes : Challenge → Nat → List Hash) (args : MineArgs)
    (m : Mission) (course : Nat → Course), LeavesInTime hashes args m course := by
  intro h
  have hsize : calculateDynamicChunkSize overdue.nonceRange 3 = .ok 3_000_000 := by
    simp [calculateDynamicChunkSize, overdue, wrappingSub, Word.unsigned, minChunkSize,
      maxChunkSize]
  have hfound : Found (nines overdue.challenge) [13_333_333] :=
    ⟨13_333_333, List.mem_cons_self, _, List.mem_cons_self, by decide⟩
  have hfirst : List.range' 13_333_333 3_000_000 =
      13_333_333 :: List.range' 13_333_334 2_999_999 := List.range'_succ
  have hrun : (core nines ⟨3, 0⟩ overdue 3_000_000 (fun _ => calmCourse.turn) 1).hashed =
      13_333_333 :: leftAfter 13_333_333 (List.range' 13_333_334 2_999_999)
        [List.range' 16_333_333 3_000_000, List.range' 19_333_333 3_000_000,
          List.range' 22_333_333 3_000_000, List.range' 25_333_333 1_333_333] := by
    rw [core_eq_offered nines ⟨3, 0⟩ overdue fun _ => calmCourse, offered_calm,
      show coreChunks overdue.nonceRange (MineArgs.threads ⟨3, 0⟩) 3_000_000 1 = _ from
        coreChunks_middle, hfirst]
    exact @hashed_mineChunks_struck _ _ _ _ (Worker.faithful_start _) [] _ [] _ _
      (fun _ _ _ _ => rfl) trivial ⟨Nat.zero_le _, hfound⟩ (fun _ _ => Nat.zero_le _)
      fun _ _ _ _ => Nat.zero_le _
  have hleft := h nines ⟨3, 0⟩ overdue (fun _ => calmCourse) _ hsize 1 (by decide) [] _ _ hrun
    (Nat.zero_le _) ((minDiff_le_foldl _ _).mpr hfound)
  simp [leftAfter, length_untilHundred_range'] at hleft

end Turbomine

/-! ## The threads of `mine.rs` -/

namespace Mine

variable {hashes : Nat → List Hash} {stop cutoff : Nat} {turn : Nat → Turn}

theorem hashed_challengeLoop (nonce : Nat) (w : Worker) :
    ∃ len, (challengeLoop hashes stop cutoff turn nonce w).1.hashed =
      w.hashed ++ List.range' nonce len := by
  fun_induction challengeLoop hashes stop cutoff turn nonce w with
  | case1 | case2 => exact ⟨0, (List.append_nil _).symm⟩
  | case3 | case4 => exact ⟨1, Worker.tryNonce_hashed _ _ _⟩
  | case5 nonce w _ _ w' _ _ ih =>
      obtain ⟨len, hlen⟩ := ih
      refine ⟨len + 1, ?_⟩
      rw [hlen, Worker.tryNonce_hashed, List.range'_succ, ← List.append_cons]

/-- Once the cutoff time has elapsed and a thread holds a best difficulty of at least `MIN_DIFF`,
it hashes at most a hundred further nonces, whatever its range. -/
theorem leavesInTime (first : Nat) (hclock : Monotone fun nonce => (turn nonce).elapsed)
    {tried further : List Nat} {nonce : Nat}
    (hrun : (challengeLoop hashes stop cutoff turn first (.start first)).1.hashed =
      tried ++ nonce :: further)
    (hlate : cutoff ≤ (turn nonce).elapsed)
    (hbest : minDiff ≤
      ((tried ++ [nonce]).foldl (Worker.tryNonce hashes) (.start first)).best.difficulty) :
    further.length ≤ 100 := by
  by_contra hmany
  have hmem : ∀ k, k ∈ tried ++ nonce :: further → ∀ j, first ≤ j → j < k →
      ¬ LeavesAfter hashes cutoff turn first j := by
    intro k hk
    rw [← hrun, mem_hashed_challengeLoop (Worker.faithful_start _) le_rfl (by
      intro k
      simp [Worker.start])] at hk
    obtain hnone | ⟨-, -, -, hstays⟩ := hk
    · cases hnone
    · exact hstays
  obtain ⟨len, hlen⟩ := @hashed_challengeLoop hashes stop cutoff turn first (.start first)
  rw [hrun] at hlen
  obtain ⟨n, -, rfl, hrest⟩ := List.range'_eq_append_iff.mp hlen.symm
  obtain ⟨rfl, -, rfl⟩ := List.range'_eq_cons_iff.mp hrest.symm
  obtain ⟨k, hk, hhash⟩ := (Turbomine.minDiff_le_foldl first _).mp hbest
  have hfound : first ≤ k ∧ k ≤ first + n := by
    simp only [List.mem_append, List.mem_range'_1, List.mem_singleton] at hk
    omega
  rw [List.length_range', not_le] at hmany
  -- The next multiple of a hundred is hashed, and not as the last nonce.
  refine hmem (first + n + 101) ?_ (first + n + (100 - (first + n) % 100) % 100) (by omega)
    (by omega) (.inl ⟨by omega, hlate.trans (hclock (by omega)), k, hfound.1, by omega, hhash⟩)
  simp only [List.mem_append, List.mem_cons, List.mem_range'_1]
  omega

end Mine

end Hashpoo.Client
