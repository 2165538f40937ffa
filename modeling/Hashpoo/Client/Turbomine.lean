import Hashpoo.Client.Worker
import Hashpoo.Foundation.Results

/-!
# The workers of `turbomine.rs`

`optimized_mining_rayon` gives every thread a part of the range and cuts the part into
chunks. A flag or the cutoff ends a chunk, and only two of the flags end the thread.
-/

namespace Hashpoo.Client.Turbomine

open Foundation

def minChunkSize : Nat := 3_000_000

def maxChunkSize : Nat := 30_000_000

/-- `a - b` of two `u64`s. It wraps. -/
def wrappingSub (a b : Nat) : Nat := Word.unsigned 64 ((a : Int) - b)

/-- `calculate_dynamic_chunk_size`. It divides by zero when there are no threads. -/
def calculateDynamicChunkSize (nonceRange : NonceRange) (threads : Nat) : Except Panic Nat :=
  let rangeSize := wrappingSub nonceRange.stop nonceRange.start
  let chunksPerThread := 5
  let chunks := Word.unsigned 64 (threads * chunksPerThread : Nat)
  if chunks = 0 then .error .divideByZero
  else .ok (min (max (rangeSize / chunks) minChunkSize) maxChunkSize)

/-- `(start..stop).step_by(size)`. -/
def stepBy (start stop size : Nat) : List Nat :=
  (List.range ((stop - start + size - 1) / size)).map fun i => start + i * size

/-- What a thread reads in the turn of a nonce. -/
structure CoreTurn extends Turn where
  stopSignal : Bool
  deriving DecidableEq

/-- How the loop over the nonces of a chunk ends. -/
inductive ChunkExit where
  | next
  | outer
  deriving DecidableEq

/-- The loop over the nonces of a chunk. -/
def mineChunk (hashes : Nat → List Hash) (cutoffTime : Nat) (turn : Nat → CoreTurn) :
    List Nat → Worker → Worker × ChunkExit
  | [], w => (w, .next)
  | nonce :: nonces, w =>
      if (turn nonce).stopSignal = true then (w, .outer)
      else if (turn nonce).running = false then (w, .outer)
      else if (turn nonce).stop = true then (w, .next)
      else
        let w := w.tryNonce hashes nonce
        if nonce % 100 = 0 ∧ (turn nonce).elapsed ≥ cutoffTime ∧ w.best.difficulty ≥ minDiff then
          (w, .next)
        else mineChunk hashes cutoffTime turn nonces w

/-- The loop `'outer` over the chunks of a thread. -/
def mineChunks (hashes : Nat → List Hash) (cutoffTime : Nat) (turn : Nat → CoreTurn) :
    List (List Nat) → Worker → Worker
  | [], w => w
  | chunk :: chunks, w =>
      match mineChunk hashes cutoffTime turn chunk w with
      | (w, .next) => mineChunks hashes cutoffTime turn chunks w
      | (w, .outer) => w

/-- The nonces of a thread, chunk by chunk. -/
def coreChunks (nonceRange : NonceRange) (threads chunkSize coreId : Nat) : List (List Nat) :=
  let coreRangeSize := wrappingSub nonceRange.stop nonceRange.start / threads
  let coreStart := Word.unsigned 64 (nonceRange.start + coreId * coreRangeSize : Nat)
  let coreEnd := if coreId = threads - 1 then nonceRange.stop
    else Word.unsigned 64 (coreStart + coreRangeSize : Nat)
  (stepBy coreStart coreEnd chunkSize).map fun chunkStart =>
    let chunkEnd := min (Word.unsigned 64 (chunkStart + chunkSize : Nat)) coreEnd
    List.range' chunkStart (chunkEnd - chunkStart)

/-- A thread of the pool. `MiningResult::new(core_start)` is the start of its part. -/
def core (hashes : Challenge → Nat → List Hash) (args : MineArgs) (m : Mission) (chunkSize : Nat)
    (turn : Nat → Nat → CoreTurn) (coreId : Nat) : Worker :=
  let coreRangeSize := wrappingSub m.nonceRange.stop m.nonceRange.start / args.threads
  let coreStart := Word.unsigned 64 (m.nonceRange.start + coreId * coreRangeSize : Nat)
  mineChunks (hashes m.challenge) (m.cutoffWith args) (turn coreId)
    (coreChunks m.nonceRange args.threads chunkSize coreId) (.start coreStart)

/-- `optimized_mining_rayon`. `turn` tells for each thread what it reads. -/
def optimizedMiningRayon (hashes : Challenge → Nat → List Hash) (args : MineArgs) (m : Mission)
    (turn : Nat → Nat → CoreTurn) : Except Panic Outcome := do
  let chunkSize ← calculateDynamicChunkSize m.nonceRange args.threads
  let cores := (List.range args.threads).map (core hashes args m chunkSize turn)
  let bestResult := match cores.map Worker.best with
    | [] => .new m.nonceRange.start
    | result :: results => results.foldl MiningResult.better result
  return .of (hashes m.challenge) cores bestResult

/-! ## What the threads send -/

variable {hashes : Nat → List Hash} {cutoffTime : Nat} {turn : Nat → CoreTurn} {w : Worker}

theorem faithful_mineChunk (h : w.Faithful hashes) (nonces : List Nat) :
    (mineChunk hashes cutoffTime turn nonces w).1.Faithful hashes := by
  induction nonces generalizing w with
  | nil => exact h
  | cons nonce nonces ih =>
      rw [mineChunk]
      split
      · exact h
      · split
        · exact h
        · split
          · exact h
          · show Worker.Faithful hashes (Prod.fst (if _ then _ else _))
            split
            · exact h.tryNonce nonce
            · exact ih (h.tryNonce nonce)

theorem faithful_mineChunks (h : w.Faithful hashes) (chunks : List (List Nat)) :
    (mineChunks hashes cutoffTime turn chunks w).Faithful hashes := by
  induction chunks generalizing w with
  | nil => exact h
  | cons chunk chunks ih =>
      have hchunk : (mineChunk hashes cutoffTime turn chunk w).1.Faithful hashes :=
        faithful_mineChunk h chunk
      rw [mineChunks]
      split
      · next w' hnext =>
        rw [hnext] at hchunk
        exact ih hchunk
      · next w' houter =>
        rw [houter] at hchunk
        exact hchunk

theorem filtered_optimizedMiningRayon {hashes : Challenge → Nat → List Hash} {args : MineArgs}
    {m : Mission} {turn : Nat → Nat → CoreTurn} {o : Outcome}
    (h : optimizedMiningRayon hashes args m turn = .ok o) : o.Filtered := by
  obtain ⟨chunkSize, -, hresult⟩ := bind_eq_ok.mp h
  rw [← pure_eq_ok.mp hresult]
  refine Outcome.filtered_of ?_ ?_
  · intro w hw
    obtain ⟨coreId, -, rfl⟩ := List.mem_map.mp hw
    exact faithful_mineChunks (Worker.faithful_start _) _
  · split
    · exact .inl rfl
    · next result results hresults =>
      have hbest := MiningResult.foldl_better_mem results result
      rw [← hresults] at hbest
      obtain ⟨w, hw, heq⟩ := List.mem_map.mp hbest
      exact .inr ⟨w, hw, heq.symm⟩

/-! ## The nonces -/

theorem mem_hashed_mineChunk (nonces : List Nat) {k : Nat}
    (h : k ∈ (mineChunk hashes cutoffTime turn nonces w).1.hashed) : k ∈ w.hashed ∨ k ∈ nonces := by
  induction nonces generalizing w with
  | nil => exact .inl h
  | cons nonce nonces ih =>
      have htried : k ∈ (w.tryNonce hashes nonce).hashed → k ∈ w.hashed ∨ k ∈ nonce :: nonces := by
        rw [Worker.tryNonce_hashed, List.mem_append, List.mem_singleton]
        exact Or.imp id fun hk => hk ▸ List.mem_cons_self
      rw [mineChunk] at h
      split at h
      · exact .inl h
      · split at h
        · exact .inl h
        · split at h
          · exact .inl h
          · simp only at h
            split at h
            · exact htried h
            · obtain hhashed | hmem := ih h
              · exact htried hhashed
              · exact .inr (List.mem_cons_of_mem _ hmem)

theorem mem_hashed_mineChunks (chunks : List (List Nat)) {k : Nat}
    (h : k ∈ (mineChunks hashes cutoffTime turn chunks w).hashed) :
    k ∈ w.hashed ∨ ∃ chunk ∈ chunks, k ∈ chunk := by
  induction chunks generalizing w with
  | nil => exact .inl h
  | cons chunk chunks ih =>
      have hchunk : k ∈ (mineChunk hashes cutoffTime turn chunk w).1.hashed →
          k ∈ w.hashed ∨ ∃ c ∈ chunk :: chunks, k ∈ c := fun hk =>
        (mem_hashed_mineChunk chunk hk).imp id fun hmem => ⟨chunk, List.mem_cons_self, hmem⟩
      rw [mineChunks] at h
      split at h
      · next w' hnext =>
        rw [hnext] at hchunk
        obtain hhashed | ⟨c, hc, hmem⟩ := ih h
        · exact hchunk hhashed
        · exact .inr ⟨c, List.mem_cons_of_mem _ hc, hmem⟩
      · next w' houter =>
        rw [houter] at hchunk
        exact hchunk h

theorem wrappingSub_of_le {a b : Nat} (hle : b ≤ a) (ha : a < 2 ^ 64) :
    wrappingSub a b = a - b := by
  rw [wrappingSub, ← Nat.cast_sub hle, Word.unsigned_of_lt (by omega)]

/-- The part of every thread ends in the range. -/
theorem share_end_le {range : NonceRange} {threads coreId : Nat} (hrange : range.start ≤ range.stop)
    (hid : coreId < threads) : range.start + coreId * ((range.stop - range.start) / threads) +
      (range.stop - range.start) / threads ≤ range.stop := by
  have hparts : threads * ((range.stop - range.start) / threads) ≤ range.stop - range.start :=
    Nat.mul_div_le _ _
  have hbefore : (coreId + 1) * ((range.stop - range.start) / threads) ≤
      threads * ((range.stop - range.start) / threads) := Nat.mul_le_mul_right _ hid
  rw [Nat.add_one_mul] at hbefore
  omega

/-- The part of every thread lies in the range, and so do its chunks. -/
theorem contains_of_mem_coreChunks {range : NonceRange} {threads chunkSize coreId : Nat}
    (hrange : range.start ≤ range.stop) (hstop : range.stop < 2 ^ 64) (hid : coreId < threads)
    {chunk : List Nat} (hchunk : chunk ∈ coreChunks range threads chunkSize coreId) {k : Nat}
    (hk : k ∈ chunk) : range.Contains k := by
  have hshare := share_end_le hrange hid
  simp only [coreChunks, wrappingSub_of_le hrange hstop, List.mem_map] at hchunk
  generalize (range.stop - range.start) / threads = size at hshare hchunk
  rw [Word.unsigned_of_lt (show range.start + coreId * size < 2 ^ 64 by omega),
    Word.unsigned_of_lt (show range.start + coreId * size + size < 2 ^ 64 by omega)] at hchunk
  obtain ⟨chunkStart, hstart, rfl⟩ := hchunk
  obtain ⟨i, -, rfl⟩ := List.mem_map.mp hstart
  obtain ⟨hge, hlt⟩ := List.mem_range'_1.mp hk
  refine ⟨by omega, ?_⟩
  have hend : (if coreId = threads - 1 then range.stop else range.start + coreId * size + size) ≤
      range.stop := by
    split <;> omega
  omega

/-- `turbomine` keeps to the range of a mission: its loops end before the end of the range. -/
theorem hashed_in_range (hashes : Challenge → Nat → List Hash) (args : MineArgs) (m : Mission)
    (chunkSize : Nat) (turn : Nat → Nat → CoreTurn)
    (hrange : m.nonceRange.start ≤ m.nonceRange.stop) {coreId : Nat} (hid : coreId < args.threads) :
    ∀ k ∈ (core hashes args m chunkSize turn coreId).hashed, m.nonceRange.Contains k := by
  intro k hk
  obtain hnone | ⟨chunk, hchunk, hmem⟩ := mem_hashed_mineChunks _ hk
  · cases hnone
  · exact contains_of_mem_coreChunks hrange m.stop_lt hid hchunk hmem

end Hashpoo.Client.Turbomine
