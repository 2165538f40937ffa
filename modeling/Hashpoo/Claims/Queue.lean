import Hashpoo.Claims.Payout
import Hashpoo.Foundation.History

/-!
# No claim is lost

The queue holds at most one claim of a miner, but the check for an earlier one looks at a
copy of the queue, and the insertion comes four awaits later. The processor for its part
pays the item it has copied and removes by key. Both are sound as long as an inserted
claim finds no other request of its miner behind the check: then no insertion replaces an
entry, and the entry that leaves the queue is the one that was paid.
-/

namespace Hashpoo.Claims

open Foundation

/-! ## The log -/

/-- A claim that has left the queue, with the transaction it was booked under. -/
structure Removal where
  minerPubkey : Pubkey
  queued : Queued
  tx : PayoutTx
  deriving DecidableEq

/-- What a run tells about the queue: the claims answered with `SUCCESS`, and what the map
held at a key that was inserted again or removed. -/
structure QueueLog where
  inserted : List (Pubkey × Queued)
  overwritten : List (Pubkey × Queued)
  removed : List Removal
  deriving DecidableEq

namespace QueueLog

def empty : QueueLog := ⟨[], [], []⟩

/-- The log of the system. -/
def observe (s : State) (e : Event) (log : QueueLog) : QueueLog :=
  match e with
  | .request k .proceed =>
      match s.requests[k]? with
      | some r =>
          if r.pc = .insert then
            { log with
              inserted := (r.minerPubkey, ⟨⟨r.receiverPubkey, r.amount⟩, s.claimants.length⟩) ::
                log.inserted
              overwritten :=
                ((s.queue.lookup r.minerPubkey).map fun q => (r.minerPubkey, q)).toList ++
                  log.overwritten }
          else log
      | none => log
  | .processor .proceed =>
      match s.pc with
      | .book job tx .booked =>
          { log with removed := ((s.queue.lookup job.minerPubkey).map fun q =>
              ⟨job.minerPubkey, q, tx⟩).toList ++ log.removed }
      | _ => log
  | _ => log

/-- The transaction pays the claim: to its receiver, and its amount less what the creation
of a token account costs. -/
structure Settles (chain : Chain) (q : Queued) (tx : PayoutTx) : Prop where
  paid : chain.Paid tx
  claim : tx.claim = q.number
  receiver : tx.receiverPubkey = q.item.receiverPubkey
  amount : tx.amount = q.item.amount ∨
    tx.amount = Word.unsigned 64 ((q.item.amount : Int) - createAtaDeduction)

/-- Nothing is overwritten, what is removed was paid, and every accepted claim is in the
queue or was removed. -/
structure Lossless (s : State) (log : QueueLog) : Prop where
  overwritten : log.overwritten = []
  removed : ∀ x ∈ log.removed, Settles s.chain x.queued x.tx
  accounted : ∀ x ∈ log.inserted, s.queue.lookup x.1 = some x.2 ∨
    ∃ y ∈ log.removed, y.minerPubkey = x.1 ∧ y.queued = x.2

end QueueLog

/-- The request has found no claim of its miner in the queue. -/
def Request.Checked (r : Request) : Prop := r.pc ≠ .checkQueue

instance : DecidablePred Request.Checked := fun r => inferInstanceAs (Decidable (r.pc ≠ _))

/-- What a transaction for the job may amount to. -/
def Job.Owes (job : Job) (amount : Nat) : Prop :=
  amount = job.item.amount ∨
    amount = Word.unsigned 64 ((job.item.amount : Int) - createAtaDeduction)

theorem Job.owes_claimAmount (job : Job) (missing : Bool) :
    job.Owes (State.claimAmount job missing) := by
  cases missing with
  | true => exact .inr rfl
  | false => exact .inl rfl

namespace State

variable {wallet : Pubkey} {s t : State} {e : Event} {input : ProcessorInput}

/-! ## Requests -/

/-- When a request inserts its claim, no other request of its miner is between the check
and its answer. -/
def InsertsAlone (s : State) (e : Event) : Prop :=
  match e with
  | .request k .proceed => ∀ r ∈ s.requests[k]?, r.pc = .insert →
      ∀ r' ∈ s.requests.eraseIdx k, r'.Checked → r'.minerPubkey ≠ r.minerPubkey
  | _ => True

instance (s : State) (e : Event) : Decidable (s.InsertsAlone e) :=
  match e with
  | .request k .proceed => inferInstanceAs (Decidable (∀ r ∈ s.requests[k]?, _))
  | .request _ (.ata _) | .request _ (.call _) => .isTrue trivial
  | .processor _ | .post _ _ _ | .land _ _ | .advance _ | .credit _ _ | .tick _ => .isTrue trivial

/-- Who is behind the check in `t` was so before, or its miner has no claim in the queue. -/
def ChecksQueue (s t : State) : Prop :=
  ∀ x ∈ t.requests, x.Checked →
    (∃ y ∈ s.requests, y.Checked ∧ y.minerPubkey = x.minerPubkey) ∨ x.minerPubkey ∉ s.queue

theorem checksQueue_finish (s : State) (k : Nat) : s.ChecksQueue (s.finish k) :=
  fun x hx hchecked => .inl ⟨x, List.mem_of_mem_eraseIdx hx, hchecked, rfl⟩

theorem checksQueue_proceed {k : Nat} {r : Request} (hr : s.requests[k]? = some r)
    (hpassed : r.Checked ∨ r.minerPubkey ∉ s.queue) (pc : RequestPc) :
    s.ChecksQueue (s.proceed k r pc) := by
  intro x hx hchecked
  obtain hold | rfl := List.mem_or_eq_of_mem_set hx
  · exact .inl ⟨x, hold, hchecked, rfl⟩
  · exact hpassed.imp (fun hbehind => ⟨r, List.mem_of_getElem? hr, hbehind, rfl⟩) id

/-- A request gets behind the check when its miner has no claim in the queue. -/
theorem stepRequest_checked {k : Nat} {r : Request} {requestInput : RequestInput}
    (hr : s.requests[k]? = some r) (h : s.stepRequest k r requestInput = some t) :
    s.ChecksQueue t := by
  have hproceed : r.Checked → ∀ pc, s.ChecksQueue (s.proceed k r pc) :=
    fun hbehind => checksQueue_proceed hr (.inl hbehind)
  simp only [stepRequest] at h
  split at h
  case h_1 hpc =>
    split at h
    · cases h
      exact s.checksQueue_finish k
    · next hfree =>
      cases h
      exact checksQueue_proceed hr (.inr hfree) _
  case h_2 hpc =>
    have hbehind : r.Checked := by simp [Request.Checked, hpc]
    split at h
    · cases h
      exact s.checksQueue_finish k
    · split at h
      · cases h
        exact s.checksQueue_finish k
      · cases h
        exact hproceed hbehind _
  case h_3 hpc =>
    have hbehind : r.Checked := by simp [Request.Checked, hpc]
    split at h
    · split at h
      · cases h
        exact s.checksQueue_finish k
      · cases h
        exact hproceed hbehind _
    · cases h
      exact s.checksQueue_finish k
  case h_4 hpc =>
    have hbehind : r.Checked := by simp [Request.Checked, hpc]
    split at h
    · cases h
      exact hproceed hbehind _
    · split at h
      · split at h
        · cases h
          exact s.checksQueue_finish k
        · cases h
          exact hproceed hbehind _
      · cases h
        exact hproceed hbehind _
      · cases h
        exact fun x hx hchecked => .inl ⟨x, hx, hchecked, rfl⟩
  case h_5 =>
    cases h
    exact s.checksQueue_finish k
  case h_6 => cases h

/-! ## The invariant -/

/-- No request behind the check competes with a claim in the queue, and the processor holds
an item of the queue and a transaction for it. -/
structure Exclusive (s : State) : Prop where
  requests : ∀ r ∈ s.requests, r.Checked → r.minerPubkey ∉ s.queue
  job : ∀ job ∈ s.pc.job, s.queue.lookup job.minerPubkey = some ⟨job.item, job.number⟩
  amount : ∀ job amount, s.pc = .blockhash job amount → job.Owes amount
  tx : ∀ job ∈ s.pc.job, ∀ tx ∈ s.pc.tx,
    tx.receiverPubkey = job.item.receiverPubkey ∧ job.Owes tx.amount
  booked : ∀ job tx pc, s.pc = .book job tx pc → s.chain.Paid tx

theorem exclusive_start (db : Database) : (State.start db).Exclusive where
  requests r hr := by cases hr
  job job hjob := by cases hjob
  amount job amount hpc := by cases hpc
  tx job hjob := by cases hjob
  booked job tx pc hpc := by cases hpc

namespace Exclusive

/-- The processor goes on without a job. -/
theorem idle (h : s.Exclusive) : (s.goto .idle).Exclusive where
  requests := h.requests
  job job hjob := by cases hjob
  amount job amount hpc := by cases hpc
  tx job hjob := by cases hjob
  booked job tx pc hpc := by cases hpc

/-- The processor goes on with its job and its transaction. -/
theorem goto (h : s.Exclusive) {pc : ClaimPc} {job : Job} {tx : PayoutTx}
    (hjob : s.pc.job = some job) (htx : s.pc.tx = some tx) (hjob' : pc.job = some job)
    (htx' : pc.tx = some tx) (hbooked : ∀ job tx bpc, pc = .book job tx bpc → s.chain.Paid tx) :
    (s.goto pc).Exclusive where
  requests := h.requests
  job j hj := h.job j (by rw [hjob, ← hjob']; exact hj)
  amount j amount hpc := by
    change pc = _ at hpc
    rw [hpc] at htx'
    cases htx'
  tx j hj x hx := h.tx j (by rw [hjob, ← hjob']; exact hj) x (by rw [htx, ← htx']; exact hx)
  booked := hbooked

theorem moves (h : s.Exclusive) (hmoves : s.Moves wallet input t) : t.Exclusive := by
  cases hmoves with
  | pick minerPubkey queued hpc hqueued =>
      refine ⟨h.requests, ?_, ?_, ?_, ?_⟩
      · rintro job ⟨⟩
        exact hqueued
      · rintro job amount ⟨⟩
      · rintro job - tx ⟨⟩
      · rintro job tx pc ⟨⟩
  | checkAta job missing hpc =>
      refine ⟨h.requests, ?_, ?_, ?_, ?_⟩
      · rintro job' ⟨⟩
        exact h.job job (by rw [hpc]; rfl)
      · rintro job' amount ⟨⟩
        exact job.owes_claimAmount missing
      · rintro job' - tx ⟨⟩
      · rintro job' tx pc ⟨⟩
  | noBlockhash => exact h.idle
  | sign job amount hpc =>
      refine ⟨h.requests, ?_, ?_, ?_, ?_⟩
      · rintro job' ⟨⟩
        exact h.job job (by rw [hpc]; rfl)
      · rintro job' amount' ⟨⟩
      · rintro job' ⟨⟩ tx ⟨⟩
        exact ⟨rfl, h.amount job amount hpc⟩
      · rintro job' tx pc ⟨⟩
  | notSent => exact ⟨h.requests, h.job, h.amount, h.tx, h.booked⟩
  | sent job tx timer hpc =>
      have hsent : (s.deliver tx).Exclusive := ⟨h.requests, h.job, h.amount, h.tx, h.booked⟩
      exact hsent.goto (show s.pc.job = some job by rw [hpc]; rfl)
        (show s.pc.tx = some tx by rw [hpc]; rfl) rfl rfl (by simp)
  | expired => exact h.idle
  | waiting => exact h
  | failed => exact h.idle
  | confirmed job tx timer l hpc hfind hpaid =>
      refine h.goto (by rw [hpc]; rfl) (by rw [hpc]; rfl) rfl rfl ?_
      rintro job' tx' pc ⟨⟩
      obtain ⟨hl, hltx⟩ := Chain.landed_of_find hfind
      exact ⟨l, hl, hltx, hpaid⟩
  | call job tx pc pc' fails db hpc =>
      have hdb : ({ s with db := db } : State).Exclusive :=
        ⟨h.requests, h.job, h.amount, h.tx, h.booked⟩
      refine hdb.goto (show s.pc.job = some job by rw [hpc]; rfl)
        (show s.pc.tx = some tx by rw [hpc]; rfl) rfl rfl ?_
      rintro job' tx' pc'' ⟨⟩
      exact h.booked job tx pc hpc
  | panic => exact ⟨h.requests, h.job, h.amount, h.tx, h.booked⟩
  | dequeue job tx hpc =>
      refine ⟨?_, ?_, ?_, ?_, ?_⟩
      · intro r hr hchecked hmem
        exact h.requests r hr hchecked (AList.mem_erase.mp hmem).2
      · rintro job' ⟨⟩
      · rintro job' amount ⟨⟩
      · rintro job' ⟨⟩
      · rintro job' tx pc ⟨⟩

/-- The inserted claim is the only one of its miner, in the queue and on its way there. -/
theorem insertClaim (h : s.Exclusive) {k : Nat} {r : Request} (hr : s.requests[k]? = some r)
    (hpc : r.pc = .insert) (hok : s.InsertsAlone (.request k .proceed)) :
    (s.insertClaim k r).Exclusive := by
  have hfree : r.minerPubkey ∉ s.queue :=
    h.requests r (List.mem_of_getElem? hr) (by simp [Request.Checked, hpc])
  refine ⟨?_, ?_, h.amount, h.tx, h.booked⟩
  · intro x hx hchecked hmem
    have hother := hok r hr hpc x hx hchecked
    obtain hsame | hold := (AList.mem_insert _).mp hmem
    · exact hother hsame
    · exact h.requests x (List.mem_of_mem_eraseIdx hx) hchecked hold
  · intro job hjob
    have hheld := h.job job hjob
    have hkey : job.minerPubkey ≠ r.minerPubkey := by
      intro hsame
      rw [hsame] at hheld
      exact hfree (AList.lookup_isSome.mp (by rw [hheld]; rfl))
    rw [State.insertClaim, AList.lookup_insert_ne hkey]
    exact hheld

end Exclusive

/-! ## Steps -/

/-- A payout stays on the chain. -/
theorem step_paid {tx : PayoutTx} (h : s.chain.Paid tx) (hstep : s.Steps wallet e t) :
    t.chain.Paid tx := by
  cases hstep with
  | processor input t hmoves => cases hmoves <;> exact h
  | land tx' failed =>
      obtain ⟨l, hl, hpaid⟩ := h
      exact ⟨l, List.mem_cons_of_mem _ hl, hpaid⟩
  | advance signature => exact (Chain.advance_paid signature).mpr h
  | requests | insert | credit | tick => exact h

/-- The steps that touch the queue, and what the others leave as it is. -/
inductive QueueSteps (wallet : Pubkey) (s : State) (log : QueueLog) :
    Event → State → QueueLog → Prop
  | insert (k : Nat) (r : Request) : s.requests[k]? = some r → r.pc = .insert →
      QueueSteps wallet s log (.request k .proceed) (s.insertClaim k r)
        { log with
          inserted := (r.minerPubkey, ⟨⟨r.receiverPubkey, r.amount⟩, s.claimants.length⟩) ::
            log.inserted
          overwritten := ((s.queue.lookup r.minerPubkey).map fun q => (r.minerPubkey, q)).toList ++
            log.overwritten }
  | dequeue (job : Job) (tx : PayoutTx) : s.pc = .book job tx .booked →
      QueueSteps wallet s log (.processor .proceed)
        (({ s with queue := s.queue.erase job.minerPubkey } : State).goto .idle)
        { log with removed := ((s.queue.lookup job.minerPubkey).map fun q =>
            ⟨job.minerPubkey, q, tx⟩).toList ++ log.removed }
  | other (e : Event) (t : State) : t.queue = s.queue → QueueSteps wallet s log e t log

theorem step_queue (log : QueueLog) (h : s.step wallet e = some t) :
    s.QueueSteps wallet log e t (log.observe s e) := by
  obtain ⟨-, hstep⟩ := step_eq_some.mp h
  cases e with
  | processor input =>
      cases stepProcessor_moves hstep with
      | dequeue job tx hpc =>
          rw [QueueLog.observe, hpc]
          exact .dequeue job tx hpc
      | _ => exact .other _ _ rfl
  | request k requestInput =>
      simp only [stepAlive] at hstep
      split at hstep
      · next r hr =>
        by_cases hinsert : r.pc = .insert ∧ requestInput = .proceed
        · obtain ⟨hpc, rfl⟩ := hinsert
          simp only [stepRequest, hpc] at hstep
          cases hstep
          simp only [QueueLog.observe, hr, hpc, if_true]
          exact .insert k r hr hpc
        · have hlog : log.observe s (.request k requestInput) = log := by
            cases requestInput with
            | proceed =>
                have hpc : r.pc ≠ .insert := fun hpc => hinsert ⟨hpc, rfl⟩
                simp only [QueueLog.observe, hr, hpc, if_false]
            | ata | call => rfl
          rw [hlog]
          obtain ⟨requests, aborted, rfl⟩ | ⟨hpc, hproceed, -⟩ := stepRequest_cases hstep
          · exact .other _ _ rfl
          · exact absurd ⟨hpc, hproceed⟩ hinsert
      · cases hstep
  | post | land | credit =>
      simp only [stepAlive] at hstep
      split at hstep
      · cases hstep
        exact .other _ _ rfl
      · cases hstep
  | advance | tick =>
      cases hstep
      exact .other _ _ rfl

theorem step_exclusive (h : s.Exclusive) (hok : s.InsertsAlone e)
    (hstep : s.step wallet e = some t) : t.Exclusive := by
  have hpaid : ∀ tx, s.chain.Paid tx → t.chain.Paid tx := fun tx h => step_paid h (step_steps hstep)
  obtain ⟨-, halive⟩ := step_eq_some.mp hstep
  cases e with
  | processor input => exact h.moves (stepProcessor_moves halive)
  | request k requestInput =>
      simp only [stepAlive] at halive
      split at halive
      · next r hr =>
        have hchecked := stepRequest_checked hr halive
        obtain ⟨requests, aborted, rfl⟩ | ⟨hpc, rfl, rfl⟩ := stepRequest_cases halive
        · refine ⟨?_, h.job, h.amount, h.tx, h.booked⟩
          intro x hx hx'
          obtain ⟨y, hy, hy', hsame⟩ | hfree := hchecked x hx hx'
          · rw [← hsame]
            exact h.requests y hy hy'
          · exact hfree
        · exact h.insertClaim hr hpc hok
      · cases halive
  | post =>
      simp only [stepAlive] at halive
      split at halive
      · cases halive
        refine ⟨?_, h.job, h.amount, h.tx, h.booked⟩
        intro x hx hx'
        obtain hold | hnew := List.mem_append.mp hx
        · exact h.requests x hold hx'
        · cases List.mem_singleton.mp hnew
          exact absurd rfl hx'
      · cases halive
  | land | credit =>
      simp only [stepAlive] at halive
      split at halive
      · cases halive
        exact ⟨h.requests, h.job, h.amount, h.tx, fun job tx pc hpc =>
          hpaid tx (h.booked job tx pc hpc)⟩
      · cases halive
  | advance | tick =>
      cases halive
      exact ⟨h.requests, h.job, h.amount, h.tx, fun job tx pc hpc =>
        hpaid tx (h.booked job tx pc hpc)⟩

end State

/-! ## No loss -/

namespace QueueLog

variable {wallet : Pubkey} {s t : State} {e : Event} {log : QueueLog}

theorem Settles.step {q : Queued} {tx : PayoutTx} (h : Settles s.chain q tx)
    (hstep : s.Steps wallet e t) : Settles t.chain q tx where
  paid := State.step_paid h.paid hstep
  claim := h.claim
  receiver := h.receiver
  amount := h.amount

theorem lossless_start (db : Database) : Lossless (.start db) .empty where
  overwritten := rfl
  removed x hx := by cases hx
  accounted x hx := by cases hx

theorem step_lossless (hexclusive : s.Exclusive) (hnumbered : s.Numbered) (h : Lossless s log)
    (hstep : s.step wallet e = some t) : Lossless t (log.observe s e) := by
  have hremoved : ∀ x ∈ log.removed, Settles t.chain x.queued x.tx :=
    fun x hx => (h.removed x hx).step (State.step_steps hstep)
  have hqueue := State.step_queue log hstep
  generalize log.observe s e = log' at hqueue ⊢
  cases hqueue with
  | insert k r hr hpc =>
      have hfree : s.queue.lookup r.minerPubkey = none := by
        rw [AList.lookup_eq_none]
        exact hexclusive.requests r (List.mem_of_getElem? hr) (by simp [Request.Checked, hpc])
      refine ⟨?_, hremoved, ?_⟩
      · rw [hfree]
        exact h.overwritten
      · intro x hx
        obtain rfl | hold := List.mem_cons.mp hx
        · exact .inl (AList.lookup_insert _)
        · refine (h.accounted x hold).imp ?_ id
          intro hlookup
          have hkey : x.1 ≠ r.minerPubkey := by
            intro hsame
            rw [hsame, hfree] at hlookup
            cases hlookup
          exact (AList.lookup_insert_ne hkey).trans hlookup
  | dequeue job tx hpc =>
      have hjob : job ∈ s.pc.job := by rw [hpc]; rfl
      have htx : tx ∈ s.pc.tx := by rw [hpc]; rfl
      have hheld := hexclusive.job job hjob
      obtain ⟨hreceiver, hamount⟩ := hexclusive.tx job hjob tx htx
      rw [hheld]
      refine ⟨h.overwritten, ?_, ?_⟩
      · intro x hx
        obtain rfl | hold := List.mem_cons.mp hx
        · exact ⟨hexclusive.booked job tx _ hpc, hnumbered.tx job hjob tx htx, hreceiver, hamount⟩
        · exact hremoved x hold
      · intro x hx
        obtain hlookup | ⟨y, hy, hsame⟩ := h.accounted x hx
        · by_cases hkey : x.1 = job.minerPubkey
          · rw [hkey, hheld] at hlookup
            exact .inr ⟨_, List.mem_cons_self, hkey.symm, Option.some.inj hlookup⟩
          · exact .inl ((AList.lookup_erase_ne hkey).trans hlookup)
        · exact .inr ⟨y, List.mem_cons_of_mem _ hy, hsame⟩
  | other e t hqueue =>
      refine ⟨h.overwritten, hremoved, ?_⟩
      rw [hqueue]
      exact h.accounted

/-- In every run in which no claim is inserted while another request of its miner is behind
the check, nothing is overwritten and everything removed was paid. -/
theorem lossless_of_run {db : Database} {events : List Event}
    (h : run (withHistory (State.step wallet) fun s e log => log.observe s e)
      (.start db, .empty) events = some (s, log))
    (hmeets : Meets (State.step wallet) State.InsertsAlone (.start db) events) :
    Lossless s log :=
  (invariant_of_history
    (I := fun s log => s.Exclusive ∧ s.Numbered ∧ Lossless s log)
    (fun _ _ _ _ ⟨hexclusive, hnumbered, hlossless⟩ hok hstep =>
      ⟨State.step_exclusive hexclusive hok hstep, hnumbered.step (State.step_steps hstep),
        step_lossless hexclusive hnumbered hlossless hstep⟩)
    ⟨State.exclusive_start db, (State.payable_start db).numbered, lossless_start db⟩
    hmeets h).2.2

/-- A claim is paid and booked while a request of its miner waits for its turn. -/
def oneAfterTheOther : List Event :=
  Scenario.post :: Scenario.check 0 ++ [Scenario.insert 0] ++ Scenario.pay ++
    [Scenario.post, .request 0 .proceed] ++ Scenario.confirm (Scenario.payoutTx 0 0) ++
    Scenario.book

theorem lossless_oneAfterTheOther : ∃ s log,
    run (withHistory (State.step (.fill 32 9)) fun s e log => observe s e log)
      (.start Receipt.sampleDb, .empty) oneAfterTheOther = some (s, log) ∧
    log.removed.length = 1 ∧ Lossless s log := by
  obtain ⟨⟨s, log⟩, hrun, hremoved⟩ := exists_run
    (withHistory (State.step (.fill 32 9)) fun s e log => observe s e log)
    (.start Receipt.sampleDb, .empty) oneAfterTheOther (fun x => x.2.removed.length = 1) (by decide)
  exact ⟨s, log, hrun, hremoved, lossless_of_run hrun (by decide)⟩

/-- Two requests check the queue before either of them inserts. The second claim, with
another receiver, takes the place of the first one while that one is paid, and is removed
with the booking. -/
def twoBehindTheCheck : List Event :=
  Scenario.post :: .post (.fill 32 1) (.fill 32 4) 1_000_000_000 ::
    (Scenario.check 0 ++ Scenario.check 1) ++ [Scenario.insert 0] ++ Scenario.pay ++
    [Scenario.insert 0] ++ Scenario.confirm (Scenario.payoutTx 0 0) ++ Scenario.book

theorem not_lossless : ¬ ∀ wallet db events s log,
    run (withHistory (State.step wallet) fun s e log => observe s e log)
      (.start db, .empty) events = some (s, log) → Lossless s log := by
  intro h
  obtain ⟨⟨s, log⟩, hrun, hlost⟩ := exists_run
    (withHistory (State.step (.fill 32 9)) fun s e log => observe s e log)
    (.start Receipt.sampleDb, .empty) twoBehindTheCheck
    (fun x => x.2.overwritten.length = 1 ∧
      ∃ y ∈ x.2.removed, y.tx.receiverPubkey ≠ y.queued.item.receiverPubkey) (by decide)
  obtain ⟨-, y, hy, hreceiver⟩ := hlost
  exact hreceiver ((h _ _ _ _ _ hrun).removed y hy).receiver

end QueueLog

end Hashpoo.Claims
