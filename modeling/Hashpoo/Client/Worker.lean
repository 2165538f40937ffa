import Hashpoo.Client.Submission
import Hashpoo.Foundation.Records
import Hashpoo.Server.Hashpower

/-!
# Worker threads

The threads of `mine.rs` and of `turbomine.rs` go through different nonces, but they do the
same with the hashes of a nonce: a hash above `MIN_DIFF` that is better than all before it
is kept and sent to the submission processor. So a thread sends the records of the hashes
it has tried.
-/

namespace Hashpoo.Client

open Foundation

/-- `MIN_DIFF` of both miners: "align with server". -/
def minDiff : Nat := 8

example : minDiff = Hashpoo.minDiff := rfl

/-- `drillx::Hash`, with the value of `difficulty()`. -/
structure Hash where
  d : Digest
  difficulty : Nat
  deriving DecidableEq

/-- `MiningResult`: the best hash of a thread with its nonce. -/
structure MiningResult where
  nonce : Nat
  difficulty : Nat
  d : Digest
  deriving DecidableEq

/-- Nothing has been found. The digest is that of `drillx::Hash::default()`. -/
def MiningResult.new (startNonce : Nat) : MiningResult := ⟨startNonce, 0, .fill 16 0⟩

/-- The submission for a hash. -/
def submissionOf (nonce : Nat) (hx : Hash) : ThreadSubmission :=
  ⟨.ofNat nonce, hx.difficulty, hx.d⟩

/-- The cutoff submission for a result. -/
def MiningResult.submission (r : MiningResult) : ThreadSubmission :=
  submissionOf r.nonce ⟨r.d, r.difficulty⟩

/-- The variables of a thread. `hashed` and `sent` record what it does. -/
structure Worker where
  best : MiningResult
  totalHashes : Nat
  hashed : List Nat
  sent : List ThreadSubmission
  deriving DecidableEq

/-- What a thread reads in the turn of a nonce. `stop` is the flag that the threads set when
the submission processor has gone. -/
structure Turn where
  running : Bool
  stop : Bool
  elapsed : Nat
  deriving DecidableEq

/-- The thread does not hash this nonce. -/
def Turn.TurnsAway (t : Turn) : Prop := t.running = false ∨ t.stop = true

instance (t : Turn) : Decidable t.TurnsAway :=
  inferInstanceAs (Decidable (t.running = false ∨ t.stop = true))

namespace Worker

def start (startNonce : Nat) : Worker := ⟨.new startNonce, 0, [], []⟩

/-- The body of the loop over the hashes of a nonce. -/
def tryHash (nonce : Nat) (w : Worker) (hx : Hash) : Worker :=
  let w := { w with totalHashes := w.totalHashes + 1 }
  if hx.difficulty > minDiff ∧ hx.difficulty > w.best.difficulty then
    { w with
      best := ⟨nonce, hx.difficulty, hx.d⟩
      sent := w.sent ++ [submissionOf nonce hx] }
  else w

/-- The loop over the hashes of a nonce. -/
def tryNonce (hashes : Nat → List Hash) (w : Worker) (nonce : Nat) : Worker :=
  (hashes nonce).foldl (tryHash nonce) { w with hashed := w.hashed ++ [nonce] }

/-- All hashes of the nonces, as submissions. -/
def tried (hashes : Nat → List Hash) (nonces : List Nat) : List ThreadSubmission :=
  nonces.flatMap fun nonce => (hashes nonce).map (submissionOf nonce)

theorem mem_tried {hashes : Nat → List Hash} {nonces : List Nat} {s : ThreadSubmission} :
    s ∈ tried hashes nonces ↔ ∃ nonce ∈ nonces, ∃ hx ∈ hashes nonce, submissionOf nonce hx = s := by
  simp [tried]

/-! ## What a thread sends -/

/-- The thread has sent the records among the submissions `l` and knows the last one. -/
structure Filters (w : Worker) (l : List ThreadSubmission) : Prop where
  sent : w.sent = records ThreadSubmission.difficulty minDiff l
  best : peak ThreadSubmission.difficulty minDiff l = max minDiff w.best.difficulty
  result : w.best.difficulty = 0 ∨ w.best.submission ∈ w.sent

variable {hashes : Nat → List Hash} {w : Worker} {l : List ThreadSubmission} {nonce : Nat}

theorem filters_start (startNonce : Nat) : (start startNonce).Filters [] where
  sent := rfl
  best := rfl
  result := .inl rfl

theorem Filters.tryHash (h : w.Filters l) (hx : Hash) :
    (w.tryHash nonce hx).Filters (l ++ [submissionOf nonce hx]) := by
  have hrecord : peak ThreadSubmission.difficulty minDiff l < (submissionOf nonce hx).difficulty ↔
      hx.difficulty > minDiff ∧ hx.difficulty > w.best.difficulty := by
    rw [h.best, max_lt_iff]
    rfl
  rw [Worker.tryHash]
  split
  · next hbetter =>
    constructor
    · show w.sent ++ _ = _
      rw [records_concat, if_pos (hrecord.mpr hbetter), h.sent]
    · rw [peak_concat, max_eq_right (hrecord.mpr hbetter).le]
      exact (max_eq_right hbetter.1.le).symm
    · exact .inr (List.mem_append_right _ List.mem_cons_self)
  · next hworse =>
    have hle : ¬ peak ThreadSubmission.difficulty minDiff l < (submissionOf nonce hx).difficulty :=
      fun hlt => hworse (hrecord.mp hlt)
    constructor
    · rw [records_concat, if_neg hle]
      exact h.sent
    · rw [peak_concat, max_eq_left (not_lt.mp hle)]
      exact h.best
    · exact h.result

theorem Filters.foldl_tryHash (h : w.Filters l) (hs : List Hash) :
    (hs.foldl (Worker.tryHash nonce) w).Filters (l ++ hs.map (submissionOf nonce)) := by
  induction hs generalizing w l with
  | nil =>
      rw [List.map_nil, List.append_nil]
      exact h
  | cons hx hs ih =>
      rw [List.foldl_cons, List.map_cons, ← List.singleton_append, ← List.append_assoc]
      exact ih (h.tryHash hx)

theorem foldl_tryHash_hashed (hs : List Hash) :
    (hs.foldl (tryHash nonce) w).hashed = w.hashed := by
  induction hs generalizing w with
  | nil => rfl
  | cons hx hs ih =>
      rw [List.foldl_cons, ih, tryHash]
      split <;> rfl

@[simp] theorem tryNonce_hashed (hashes : Nat → List Hash) (w : Worker) (nonce : Nat) :
    (w.tryNonce hashes nonce).hashed = w.hashed ++ [nonce] := foldl_tryHash_hashed _

/-- The thread has sent the records among everything it has tried. -/
def Faithful (hashes : Nat → List Hash) (w : Worker) : Prop := w.Filters (tried hashes w.hashed)

theorem faithful_start (startNonce : Nat) : (start startNonce).Faithful hashes :=
  filters_start startNonce

theorem Faithful.tryNonce (h : w.Faithful hashes) (nonce : Nat) :
    (w.tryNonce hashes nonce).Faithful hashes := by
  have hbefore : Filters { w with hashed := w.hashed ++ [nonce] } (tried hashes w.hashed) :=
    ⟨h.sent, h.best, h.result⟩
  have htried : tried hashes (w.hashed ++ [nonce]) =
      tried hashes w.hashed ++ (hashes nonce).map (submissionOf nonce) := by
    simp [tried]
  rw [Faithful, tryNonce_hashed, htried]
  exact hbefore.foldl_tryHash (hashes nonce)

namespace Faithful

/-- A thread only submits nonces that it has hashed. -/
theorem mem_sent (h : w.Faithful hashes) {s : ThreadSubmission} (hs : s ∈ w.sent) :
    ∃ nonce ∈ w.hashed, s.nonce = .ofNat nonce := by
  rw [h.sent] at hs
  obtain ⟨nonce, hnonce, hx, -, rfl⟩ := mem_tried.mp ((records_sublist _ _).subset hs)
  exact ⟨nonce, hnonce, rfl⟩

/-- A thread that has found something has met a hash above the minimum. -/
theorem minDiff_le_best (h : w.Faithful hashes) : minDiff ≤ w.best.difficulty ↔
    ∃ nonce ∈ w.hashed, ∃ hx ∈ hashes nonce, minDiff < hx.difficulty := by
  constructor
  · intro hle
    obtain hzero | hmem := h.result
    · rw [hzero] at hle
      exact absurd hle (by decide)
    · rw [h.sent] at hmem
      have hlt : minDiff < w.best.submission.difficulty := lt_of_mem_records hmem
      obtain ⟨nonce, hnonce, hx, hhx, heq⟩ := mem_tried.mp ((records_sublist _ _).subset hmem)
      refine ⟨nonce, hnonce, hx, hhx, ?_⟩
      rwa [show hx.difficulty = w.best.difficulty from congrArg ThreadSubmission.difficulty heq]
  · rintro ⟨nonce, hnonce, hx, hhx, hlt⟩
    have hpeak : (submissionOf nonce hx).difficulty ≤
        peak ThreadSubmission.difficulty minDiff (tried hashes w.hashed) :=
      key_le_peak (mem_tried.mpr ⟨nonce, hnonce, hx, hhx, rfl⟩)
    rw [h.best] at hpeak
    obtain hle | hle := le_max_iff.mp hpeak
    · exact absurd hlt (not_lt.mpr hle)
    · exact hlt.le.trans hle

end Faithful

end Worker

/-! ## Missions -/

/-- `ServerMessage::StartMining`. The range is one of `u64`s. -/
structure Mission where
  challenge : Challenge
  nonceRange : NonceRange
  cutoff : Nat
  stop_lt : nonceRange.stop < 2 ^ 64

/-- The arguments that a mission depends on. -/
structure MineArgs where
  threads : Nat
  buffer : Nat
  deriving DecidableEq

/-- The cutoff of the threads: `cutoff.saturating_sub(args.buffer as u64)`. -/
def Mission.cutoffWith (m : Mission) (args : MineArgs) : Nat := m.cutoff - args.buffer

/-- The better of two results, the first one at equal difficulty. -/
def MiningResult.better (acc x : MiningResult) : MiningResult :=
  if x.difficulty > acc.difficulty then x else acc

theorem MiningResult.foldl_better_mem (l : List MiningResult) (acc : MiningResult) :
    l.foldl better acc ∈ acc :: l := by
  induction l generalizing acc with
  | nil => exact List.mem_cons_self
  | cons x l ih =>
      rw [List.foldl_cons]
      obtain hhead | hrest := List.mem_cons.mp (ih (acc.better x))
      · rw [hhead, better]
        split
        · exact List.mem_cons_of_mem _ List.mem_cons_self
        · exact List.mem_cons_self
      · exact List.mem_cons_of_mem _ (List.mem_cons_of_mem _ hrest)

/-- What a mission leaves behind: everything its threads have tried, what they have sent, and
the submission that follows when they have finished. -/
structure Outcome where
  tried : List ThreadSubmission
  sends : List ThreadSubmission
  cutoff : ThreadSubmission
  deriving DecidableEq

/-- The submission processor passes on the records since the last reset. -/
theorem sentSubmissions_map (bestDiff : Nat) (l : List ThreadSubmission)
    (messages : List MessageSubmissionProcessor) :
    sentSubmissions bestDiff (l.map .submission ++ messages) =
      records ThreadSubmission.difficulty bestDiff l ++
        sentSubmissions (peak ThreadSubmission.difficulty bestDiff l) messages := by
  induction l generalizing bestDiff with
  | nil => rfl
  | cons s l ih =>
      rw [List.map_cons, List.cons_append, sentSubmissions, records, peak]
      split
      · next hlt => rw [ih, max_eq_right hlt.le, List.cons_append]
      · next hle => rw [ih, max_eq_left (not_lt.mp hle)]

namespace Outcome

/-- The channel of the submission processor during the mission, with what the threads have
sent in some order. -/
def channel (o : Outcome) (sends : List ThreadSubmission) : List MessageSubmissionProcessor :=
  (sends ++ [o.cutoff]).map .submission ++ [.reset]

/-- What goes to the server. -/
theorem sentSubmissions_channel (o : Outcome) (sends : List ThreadSubmission) :
    sentSubmissions 0 (o.channel sends) =
      records ThreadSubmission.difficulty 0 (sends ++ [o.cutoff]) := by
  rw [channel, sentSubmissions_map, sentSubmissions, sentSubmissions, List.append_nil]

/-- The outcome of threads with the best of their results. -/
def of (hashes : Nat → List Hash) (workers : List Worker) (best : MiningResult) : Outcome where
  tried := workers.flatMap fun w => Worker.tried hashes w.hashed
  sends := workers.flatMap Worker.sent
  cutoff := best.submission

theorem tried_of (hashes : Nat → List Hash) (workers : List Worker) (best : MiningResult) :
    (Outcome.of hashes workers best).tried =
      Worker.tried hashes (workers.flatMap Worker.hashed) :=
  (List.flatMap_assoc ..).symm

/-- The sends are worth more than the minimum and lose no best difficulty above it, and the
cutoff submission repeats one of them, or is worth nothing. -/
structure Filtered (o : Outcome) : Prop where
  above : ∀ s ∈ o.sends, minDiff < s.difficulty
  bound : ∀ k, (∀ s ∈ o.sends, s.difficulty ≤ k) ↔
    ∀ s ∈ o.tried, minDiff < s.difficulty → s.difficulty ≤ k
  cutoff : o.cutoff.difficulty = 0 ∨ o.cutoff ∈ o.sends

theorem filtered_of {hashes : Nat → List Hash} {workers : List Worker} {best : MiningResult}
    (hworkers : ∀ w ∈ workers, w.Faithful hashes)
    (hbest : best.difficulty = 0 ∨ ∃ w ∈ workers, best = w.best) :
    (Outcome.of hashes workers best).Filtered := by
  constructor
  · intro s hs
    obtain ⟨w, hw, hsent⟩ := List.mem_flatMap.mp hs
    rw [(hworkers w hw).sent] at hsent
    exact lt_of_mem_records hsent
  · intro k
    have hworker : ∀ w ∈ workers, ((∀ s ∈ w.sent, s.difficulty ≤ k) ↔
        ∀ s ∈ Worker.tried hashes w.hashed, minDiff < s.difficulty → s.difficulty ≤ k) := by
      intro w hw
      rw [(hworkers w hw).sent]
      exact forall_mem_records
    constructor
    · intro h s hs
      obtain ⟨w, hw, htried⟩ := List.mem_flatMap.mp hs
      exact (hworker w hw).mp (fun x hx => h x (List.mem_flatMap.mpr ⟨w, hw, hx⟩)) s htried
    · intro h s hs
      obtain ⟨w, hw, hsent⟩ := List.mem_flatMap.mp hs
      exact (hworker w hw).mpr (fun x hx => h x (List.mem_flatMap.mpr ⟨w, hw, hx⟩)) s hsent
  · obtain hzero | ⟨w, hw, rfl⟩ := hbest
    · exact .inl hzero
    · exact (hworkers w hw).result.imp id fun hmem => List.mem_flatMap.mpr ⟨w, hw, hmem⟩

end Outcome

end Hashpoo.Client
