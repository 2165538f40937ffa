import Hashpoo.Client.Cutoff
import Hashpoo.Foundation.Intervals

/-!
# The shares of the threads of `turbomine.rs`

`optimized_mining_rayon` divides the range among the threads, with the remainder for the
last one, and every share into chunks, the last of them shorter. As long as nothing ends a
chunk early, the threads together hash the range.
-/

namespace Hashpoo.Client.Turbomine

open Foundation

/-! ## Undisturbed turns -/

/-- No flag is raised, and the cutoff is not reached. -/
structure CoreTurn.Undisturbed (cutoffTime : Nat) (t : CoreTurn) : Prop where
  unflagged : t.unflagged = true
  early : t.elapsed < cutoffTime

theorem hashed_mineChunks_undisturbed {hashes : Nat → List Hash} {cutoffTime : Nat}
    {turn : Nat → CoreTurn} {w : Worker} {chunks : List (List Nat)} (hw : w.Faithful hashes)
    (h : ∀ chunk ∈ chunks, ∀ nonce ∈ chunk, (turn nonce).Undisturbed cutoffTime) :
    (mineChunks hashes cutoffTime turn chunks w).hashed = w.hashed ++ chunks.flatten := by
  refine hashed_mineChunks_quiet hw
    (fun chunk hchunk nonce hmem => (h chunk hchunk nonce hmem).unflagged)
    (quiet_of_early fun nonce hnonce => ?_)
  obtain ⟨chunk, hchunk, hmem⟩ := List.mem_flatten.mp hnonce
  exact (h chunk hchunk nonce hmem).early

/-! ## The size of the chunks -/

section Size

variable {range : NonceRange} {threads chunkSize : Nat}

/-- Five times a nonzero word does not wrap to zero. -/
theorem unsigned_mul_five_ne_zero (hpos : 1 ≤ threads) (hthreads : threads < 2 ^ 64) :
    Word.unsigned 64 (threads * 5 : Nat) ≠ 0 := by
  intro hzero
  rw [Word.unsigned_natCast] at hzero
  have hdvd : 2 ^ 64 ∣ threads :=
    (Nat.Coprime.pow_left 64 (by decide)).dvd_of_dvd_mul_right (Nat.dvd_of_mod_eq_zero hzero)
  exact absurd (Nat.le_of_dvd hpos hdvd) (not_le.mpr hthreads)

theorem calculateDynamicChunkSize_eq_ok (range : NonceRange) (hpos : 1 ≤ threads)
    (hthreads : threads < 2 ^ 64) :
    ∃ chunkSize, calculateDynamicChunkSize range threads = .ok chunkSize := by
  cases h : calculateDynamicChunkSize range threads with
  | ok chunkSize => exact ⟨chunkSize, rfl⟩
  | error p =>
      rw [calculateDynamicChunkSize] at h
      split at h
      · next hzero => exact absurd hzero (unsigned_mul_five_ne_zero hpos hthreads)
      · cases h

theorem chunkSize_bounds (h : calculateDynamicChunkSize range threads = .ok chunkSize) :
    minChunkSize ≤ chunkSize ∧ chunkSize ≤ maxChunkSize := by
  simp only [calculateDynamicChunkSize] at h
  split at h
  · cases h
  · cases h
    simp only [minChunkSize, maxChunkSize]
    omega

end Size

/-! ## The share of a thread -/

/-- No operation on the way to the chunks leaves `u64`. The number of threads is a `u32`. -/
structure NoOverflow (range : NonceRange) (threads chunkSize : Nat) : Prop where
  rangeSize : range.start ≤ range.stop
  chunks : threads < 2 ^ 32 → threads * 5 < 2 ^ 64
  coreOffset : ∀ coreId < threads, coreId * ((range.stop - range.start) / threads) < 2 ^ 64
  coreStart : ∀ coreId < threads,
    range.start + coreId * ((range.stop - range.start) / threads) < 2 ^ 64
  coreEnd : ∀ coreId < threads, range.start + coreId * ((range.stop - range.start) / threads) +
    (range.stop - range.start) / threads < 2 ^ 64
  chunkEnd : ∀ chunkStart ≤ range.stop, chunkStart + chunkSize < 2 ^ 64

/-- Where the share of a thread begins, and that of the thread before it ends. -/
def mark (range : NonceRange) (threads coreId : Nat) : Nat :=
  if coreId < threads then range.start + coreId * ((range.stop - range.start) / threads)
  else range.stop

section Share

variable {range : NonceRange} {threads chunkSize coreId : Nat}

theorem mark_le_stop (hrange : range.start ≤ range.stop) :
    mark range threads coreId ≤ range.stop := by
  rw [mark]
  split
  · next hid => exact (Nat.le_add_right _ _).trans (share_end_le hrange hid)
  · exact le_rfl

theorem monotone_mark (hrange : range.start ≤ range.stop) : Monotone (mark range threads) := by
  intro i j hij
  by_cases hj : j < threads
  · rw [mark, mark, if_pos hj, if_pos (by omega)]
    have hmul : i * ((range.stop - range.start) / threads) ≤
        j * ((range.stop - range.start) / threads) := Nat.mul_le_mul_right _ hij
    omega
  · rw [show mark range threads j = range.stop from if_neg hj]
    exact mark_le_stop hrange

theorem noOverflow (hrange : range.start ≤ range.stop)
    (hfit : range.stop + maxChunkSize < 2 ^ 64) (hchunk : chunkSize ≤ maxChunkSize) :
    NoOverflow range threads chunkSize := by
  have hend : ∀ coreId < threads, range.start + coreId * ((range.stop - range.start) / threads) +
      (range.stop - range.start) / threads < 2 ^ 64 := fun coreId hid =>
    (share_end_le hrange hid).trans_lt (by omega)
  have hstart : ∀ coreId < threads,
      range.start + coreId * ((range.stop - range.start) / threads) < 2 ^ 64 := fun coreId hid =>
    (Nat.le_add_right _ _).trans_lt (hend coreId hid)
  refine ⟨hrange, fun h => by omega, ?_, hstart, hend, fun chunkStart h => by omega⟩
  intro coreId hid
  exact (Nat.le_add_left _ _).trans_lt (hstart coreId hid)

theorem mark_succ (hid : coreId < threads) : mark range threads (coreId + 1) =
    if coreId = threads - 1 then range.stop
    else range.start + coreId * ((range.stop - range.start) / threads) +
      (range.stop - range.start) / threads := by
  rw [mark]
  split
  · next hnext => rw [if_neg (by omega), Nat.add_one_mul, Nat.add_assoc]
  · next hlast => rw [if_pos (by omega)]

theorem lt_of_mem_stepBy {start stop size chunkStart : Nat} (hsize : 0 < size)
    (h : chunkStart ∈ stepBy start stop size) : chunkStart < stop := by
  obtain ⟨i, hi, rfl⟩ := List.mem_map.mp h
  have hbefore : (i + 1) * size ≤ stop - start + size - 1 :=
    (Nat.le_div_iff_mul_le hsize).mp (List.mem_range.mp hi)
  rw [Nat.add_one_mul] at hbefore
  omega

/-- The chunks of an interval are the interval. -/
theorem flatten_stepBy {start stop size : Nat} (hle : start ≤ stop) (hsize : 0 < size) :
    ((stepBy start stop size).map fun chunkStart =>
      List.range' chunkStart (min (chunkStart + size) stop - chunkStart)).flatten =
      List.range' start (stop - start) := by
  let count := (stop - start + size - 1) / size
  have hmod : size * count + (stop - start + size - 1) % size = stop - start + size - 1 :=
    Nat.div_add_mod _ _
  have hlt : (stop - start + size - 1) % size < size := Nat.mod_lt _ hsize
  have hcount : stop - start ≤ count * size := by
    rw [Nat.mul_comm]
    omega
  rw [← flatMap_range'_steps hcount, Nat.add_sub_cancel' hle, stepBy, List.map_map,
    ← List.flatMap_def]
  apply List.flatMap_congr
  intro i hi
  have hchunk : start + i * size ≤ stop :=
    (lt_of_mem_stepBy hsize (List.mem_map_of_mem hi)).le
  rw [Function.comp_apply, min_eq_left hchunk, Nat.add_one_mul, Nat.add_assoc]

/-- The chunks of a thread are its share. -/
theorem flatten_coreChunks (hrange : range.start ≤ range.stop)
    (hfit : range.stop + maxChunkSize < 2 ^ 64) (hpos : 0 < chunkSize)
    (hchunk : chunkSize ≤ maxChunkSize) (hid : coreId < threads) :
    (coreChunks range threads chunkSize coreId).flatten =
      List.range' (mark range threads coreId)
        (mark range threads (coreId + 1) - mark range threads coreId) := by
  have hoverflow : NoOverflow range threads chunkSize := noOverflow hrange hfit hchunk
  have hmono : mark range threads coreId ≤ mark range threads (coreId + 1) :=
    monotone_mark hrange (Nat.le_succ coreId)
  have hstop : mark range threads (coreId + 1) ≤ range.stop := mark_le_stop hrange
  have hstart : mark range threads coreId =
      range.start + coreId * ((range.stop - range.start) / threads) := if_pos hid
  rw [← flatten_stepBy hmono hpos, coreChunks, wrappingSub_of_le hrange (by omega),
    Word.unsigned_of_lt (hoverflow.coreStart coreId hid),
    Word.unsigned_of_lt (hoverflow.coreEnd coreId hid), ← mark_succ hid, ← hstart]
  congr 1
  apply List.map_congr_left
  intro chunkStart hmem
  have hlt : chunkStart < mark range threads (coreId + 1) := lt_of_mem_stepBy hpos hmem
  rw [Word.unsigned_of_lt (hoverflow.chunkEnd chunkStart (by omega))]

end Share

/-! ## All threads together -/

/-- With no flag raised and the cutoff ahead, the threads hash every nonce of the range once, and
the outcome has all their hashes. -/
theorem covers (hashes : Challenge → Nat → List Hash) (args : MineArgs) (m : Mission)
    (turn : Nat → Nat → CoreTurn) (hpos : 1 ≤ args.threads) (hthreads : args.threads < 2 ^ 64)
    (hrange : m.nonceRange.start ≤ m.nonceRange.stop)
    (hfit : m.nonceRange.stop + 30_000_000 < 2 ^ 64)
    (hturn : ∀ coreId < args.threads, ∀ nonce,
      (turn coreId nonce).Undisturbed (m.cutoffWith args)) :
    ∃ chunkSize, calculateDynamicChunkSize m.nonceRange args.threads = .ok chunkSize ∧
      0 < chunkSize ∧ NoOverflow m.nonceRange args.threads chunkSize ∧
      (∃ bestResult, optimizedMiningRayon hashes args m turn = .ok (.of (hashes m.challenge)
        ((List.range args.threads).map (core hashes args m chunkSize turn)) bestResult)) ∧
      (List.range args.threads).flatMap
          (fun coreId => (core hashes args m chunkSize turn coreId).hashed) =
        List.range' m.nonceRange.start (m.nonceRange.stop - m.nonceRange.start) ∧
      ∀ o, optimizedMiningRayon hashes args m turn = .ok o →
        o.tried = Worker.tried (hashes m.challenge)
          (List.range' m.nonceRange.start (m.nonceRange.stop - m.nonceRange.start)) := by
  obtain ⟨chunkSize, hsize⟩ := calculateDynamicChunkSize_eq_ok m.nonceRange hpos hthreads
  obtain ⟨hmin, hmax⟩ := chunkSize_bounds hsize
  have hchunk : 0 < chunkSize := lt_of_lt_of_le (by decide) hmin
  have houtcome : ∃ bestResult, optimizedMiningRayon hashes args m turn =
      .ok (.of (hashes m.challenge)
        ((List.range args.threads).map (core hashes args m chunkSize turn)) bestResult) := by
    simp only [optimizedMiningRayon, hsize]
    exact ⟨_, rfl⟩
  have hcover : (List.range args.threads).flatMap
      (fun coreId => (core hashes args m chunkSize turn coreId).hashed) =
        List.range' m.nonceRange.start (m.nonceRange.stop - m.nonceRange.start) := by
    have hcore : ∀ coreId ∈ List.range args.threads,
        (core hashes args m chunkSize turn coreId).hashed =
          List.range' (mark m.nonceRange args.threads coreId)
            (mark m.nonceRange args.threads (coreId + 1) -
              mark m.nonceRange args.threads coreId) := by
      intro coreId hmem
      have hid : coreId < args.threads := List.mem_range.mp hmem
      rw [core, hashed_mineChunks_undisturbed (Worker.faithful_start _)
          fun _ _ nonce _ => hturn coreId hid nonce,
        flatten_coreChunks hrange hfit hchunk hmax hid]
      rfl
    rw [List.flatMap_congr hcore, flatMap_range'_marks (monotone_mark hrange),
      show mark m.nonceRange args.threads args.threads = m.nonceRange.stop from
        if_neg (lt_irrefl _),
      show mark m.nonceRange args.threads 0 = m.nonceRange.start from ?_]
    exact (if_pos hpos).trans (by rw [Nat.zero_mul, Nat.add_zero])
  refine ⟨chunkSize, hsize, hchunk, noOverflow hrange hfit hmax, houtcome, hcover, ?_⟩
  intro o ho
  obtain ⟨bestResult, hrayon⟩ := houtcome
  obtain rfl := Except.ok.inj (ho.symm.trans hrayon)
  rw [← hcover, Outcome.tried_of, List.flatMap_map]

/-- Three threads, and a range that they do not divide. -/
theorem covers_hundred : ∃ chunkSize, calculateDynamicChunkSize ⟨5, 105⟩ 3 = .ok chunkSize ∧
    0 < chunkSize ∧ NoOverflow ⟨5, 105⟩ 3 chunkSize ∧
    (∃ bestResult, optimizedMiningRayon (fun _ _ => []) ⟨3, 0⟩
      ⟨.fill 32 7, ⟨5, 105⟩, 60, by decide⟩ (fun _ _ => calm) =
        .ok (.of (fun _ => []) ((List.range 3).map (core (fun _ _ => []) ⟨3, 0⟩
          ⟨.fill 32 7, ⟨5, 105⟩, 60, by decide⟩ chunkSize fun _ _ => calm)) bestResult)) ∧
    (List.range 3).flatMap (fun coreId => (core (fun _ _ => []) ⟨3, 0⟩
      ⟨.fill 32 7, ⟨5, 105⟩, 60, by decide⟩ chunkSize (fun _ _ => calm) coreId).hashed) =
      List.range' 5 100 ∧
    ∀ o, optimizedMiningRayon (fun _ _ => []) ⟨3, 0⟩ ⟨.fill 32 7, ⟨5, 105⟩, 60, by decide⟩
      (fun _ _ => calm) = .ok o → o.tried = Worker.tried (fun _ => []) (List.range' 5 100) :=
  covers (fun _ _ => []) ⟨3, 0⟩ ⟨.fill 32 7, ⟨5, 105⟩, 60, by decide⟩ (fun _ _ => calm)
    (by decide) (by decide) (by decide) (by decide) fun _ _ _ => ⟨rfl, by decide⟩

end Hashpoo.Client.Turbomine
