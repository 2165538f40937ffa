import Hashpoo.Claims.Payout

/-!
# What a transaction pays, and to whom

Receiver and amount pass from a request through the queue and the job of the processor
into a transaction, which may be signed many times over. They stay together, and the only
change on the way is the deduction for a new token account, which the minimum of a claim
keeps from wrapping.
-/

namespace Hashpoo.Claims

open Foundation

/-- Which receivers and amounts a miner may have asked for. -/
abbrev Order := Pubkey → Pubkey → Nat → Prop

variable {Q : Order}

/-- The item was asked for and has passed the minimum. -/
structure Order.Grants (Q : Order) (minerPubkey : Pubkey) (item : ClaimsQueueItem) : Prop where
  asked : Q minerPubkey item.receiverPubkey item.amount
  minimum : minClaimAmountExistsAta ≤ item.amount
  word : item.amount < 2 ^ 64

/-- The amount of the item, with or without the deduction. -/
def Pays (item : ClaimsQueueItem) (amount : Nat) : Prop :=
  amount = item.amount ∨ amount + createAtaDeduction = item.amount

/-- A claim that has passed the minimum covers the deduction. -/
theorem pays_claimAmount {job : Job} (h : Q.Grants job.minerPubkey job.item)
    (isCreatingAta : Bool) : Pays job.item (State.claimAmount job isCreatingAta) := by
  have hminimum : 500_000_000 ≤ job.item.amount := h.minimum
  have hword := h.word
  cases isCreatingAta with
  | false => exact .inl rfl
  | true =>
      refine .inr ?_
      have hdeduct : Word.unsigned 64 ((job.item.amount : Int) - createAtaDeduction) =
          job.item.amount - 400_000_000 := by
        simp only [Word.unsigned, createAtaDeduction]
        omega
      show Word.unsigned 64 _ + 400_000_000 = job.item.amount
      rw [hdeduct]
      omega

/-- The check of the minimum lies behind the request. -/
def RequestPc.Sized : RequestPc → Prop
  | .checkQueue | .checkAta => False
  | .checkBalance | .checkLastClaim _ | .insert => True

/-- The miner has asked for what it posts. -/
def Event.Asks (Q : Order) : Event → Prop
  | .post minerPubkey receiverPubkey amount => Q minerPubkey receiverPubkey amount
  | _ => True

namespace State

variable {wallet : Pubkey} {s t : State} {e : Event} {k : Nat} {r : Request}

/-- A request keeps its data, and gets past the minimum only with an amount above it. -/
theorem stepRequest_sized {input : RequestInput} (h : s.stepRequest k r input = some t) :
    ∀ q ∈ t.requests, q ∈ s.requests ∨ ∃ pc, q = { r with pc := pc } ∧
      (pc.Sized → r.pc.Sized ∨ minClaimAmountExistsAta ≤ r.amount) := by
  have hfinish : ∀ q ∈ (s.finish k).requests, q ∈ s.requests := fun q hq =>
    List.mem_of_mem_eraseIdx hq
  have hproceed : ∀ pc, ∀ q ∈ (s.proceed k r pc).requests, q ∈ s.requests ∨
      q = { r with pc := pc } := fun pc q hq => List.mem_or_eq_of_mem_set hq
  intro q hq
  simp only [stepRequest] at h
  split at h
  case h_1 hpc =>
    cases h
    split at hq
    · exact .inl (hfinish q hq)
    · exact (hproceed _ q hq).imp_right fun heq => ⟨.checkAta, heq, False.elim⟩
  case h_2 hpc =>
    cases h
    split at hq
    · exact .inl (hfinish q hq)
    · next hminimum =>
      split at hq
      · exact .inl (hfinish q hq)
      · exact (hproceed _ q hq).imp_right fun heq => ⟨_, heq, fun _ => .inr (not_lt.mp hminimum)⟩
  case h_3 hpc =>
    have hsized : r.pc.Sized := by rw [hpc]; trivial
    split at h
    · cases h
      split at hq
      · exact .inl (hfinish q hq)
      · exact (hproceed _ q hq).imp_right fun heq => ⟨_, heq, fun _ => .inl hsized⟩
    · cases h
      exact .inl (hfinish q hq)
  case h_4 hpc =>
    have hsized : r.pc.Sized := by rw [hpc]; trivial
    split at h
    · cases h
      exact (hproceed _ q hq).imp_right fun heq => ⟨_, heq, fun _ => .inl hsized⟩
    · split at h
      · cases h
        split at hq
        · exact .inl (hfinish q hq)
        · exact (hproceed _ q hq).imp_right fun heq => ⟨_, heq, fun _ => .inl hsized⟩
      · cases h
        exact (hproceed _ q hq).imp_right fun heq => ⟨_, heq, fun _ => .inl hsized⟩
      · cases h
        exact .inl hq
  case h_5 =>
    cases h
    exact .inl (hfinish q hq)
  case h_6 => cases h

/-! ## Runs -/


/-- The invariant of receivers and amounts. -/
structure Paying (Q : Order) (s : State) : Prop where
  requests : ∀ r ∈ s.requests, Q r.minerPubkey r.receiverPubkey r.amount ∧ r.amount < 2 ^ 64 ∧
    (r.pc.Sized → minClaimAmountExistsAta ≤ r.amount)
  queue : ∀ pubkey q, s.queue.lookup pubkey = some q → Q.Grants pubkey q.item
  job : ∀ job ∈ s.pc.job, Q.Grants job.minerPubkey job.item
  amount : ∀ job amount, s.pc = .blockhash job amount → Pays job.item amount
  tx : ∀ job ∈ s.pc.job, ∀ tx ∈ s.pc.tx, tx.receiverPubkey = job.item.receiverPubkey ∧
    Pays job.item tx.amount
  sent : ∀ tx ∈ s.chain.sent, ∃ minerPubkey item, s.claimants[tx.claim]? = some minerPubkey ∧
    Q.Grants minerPubkey item ∧ tx.receiverPubkey = item.receiverPubkey ∧ Pays item tx.amount

theorem paying_start (db : Database) : (State.start db).Paying Q where
  requests r hr := by cases hr
  queue pubkey q hq := by cases hq
  job job hjob := by cases hjob
  amount job amount hpc := by cases hpc
  tx job hjob := by cases hjob
  sent tx htx := by cases htx

namespace Paying

/-- The processor goes on with its job, or without one. -/
theorem goto (h : s.Paying Q) {pc : ClaimPc} (hjob : ∀ job ∈ pc.job, job ∈ s.pc.job)
    (htx : ∀ tx ∈ pc.tx, tx ∈ s.pc.tx)
    (hamount : ∀ job amount, pc = .blockhash job amount → Pays job.item amount) :
    (s.goto pc).Paying Q where
  requests := h.requests
  queue := h.queue
  job job hmem := h.job job (hjob job hmem)
  amount := hamount
  tx job hmem tx htxMem := h.tx job (hjob job hmem) tx (htx tx htxMem)
  sent := h.sent

theorem deliver (h : s.Paying Q) (hnumbered : s.Numbered) {job : Job} {tx : PayoutTx}
    (hjob : s.pc.job = some job) (htx : s.pc.tx = some tx) : (s.deliver tx).Paying Q where
  requests := h.requests
  queue := h.queue
  job := h.job
  amount := h.amount
  tx := h.tx
  sent tx' hmem := by
    cases hmem with
    | head =>
        obtain ⟨hreceiver, hpays⟩ := h.tx job hjob tx htx
        have howner := hnumbered.job job hjob
        rw [← hnumbered.tx job hjob tx htx] at howner
        exact ⟨job.minerPubkey, job.item, howner, h.job job hjob, hreceiver, hpays⟩
    | tail _ hmem => exact h.sent tx' hmem

theorem moves (h : s.Paying Q) (hnumbered : s.Numbered) {input : ProcessorInput}
    (hmoves : s.Moves wallet input t) : t.Paying Q := by
  cases hmoves with
  | pick minerPubkey queued hpc hqueued =>
      refine ⟨h.requests, h.queue, ?_, by simp [State.goto], ?_, h.sent⟩
      · rintro job ⟨⟩
        exact h.queue minerPubkey queued hqueued
      · rintro job hjob tx ⟨⟩
  | checkAta job missing hpc =>
      refine h.goto (by simp [hpc, ClaimPc.job]) (by simp [ClaimPc.tx]) ?_
      rintro job' amount ⟨⟩
      exact pays_claimAmount (h.job job (by rw [hpc]; rfl)) missing
  | noBlockhash => exact h.goto (by simp [ClaimPc.job]) (by simp [ClaimPc.tx]) (by simp)
  | sign job amount hpc =>
      refine ⟨h.requests, h.queue, ?_, by simp [State.sign], ?_, h.sent⟩
      · rintro job' ⟨⟩
        exact h.job job (by rw [hpc]; rfl)
      · rintro job' ⟨⟩ tx ⟨⟩
        exact ⟨rfl, h.amount job amount hpc⟩
  | notSent job tx timer hpc =>
      exact h.deliver hnumbered (by rw [hpc]; rfl) (by rw [hpc]; rfl)
  | sent job tx timer hpc =>
      have hsent : (s.deliver tx).Paying Q :=
        h.deliver hnumbered (by rw [hpc]; rfl) (by rw [hpc]; rfl)
      refine hsent.goto ?_ ?_ (by simp) <;> simp [State.deliver, hpc, ClaimPc.job, ClaimPc.tx]
  | expired => exact h.goto (by simp [ClaimPc.job]) (by simp [ClaimPc.tx]) (by simp)
  | waiting => exact h
  | failed => exact h.goto (by simp [ClaimPc.job]) (by simp [ClaimPc.tx]) (by simp)
  | confirmed job tx timer l hpc =>
      exact h.goto (by simp [hpc, ClaimPc.job]) (by simp [hpc, ClaimPc.tx]) (by simp)
  | call job tx pc pc' fails db hpc =>
      have hdb : ({ s with db := db } : State).Paying Q :=
        ⟨h.requests, h.queue, h.job, h.amount, h.tx, h.sent⟩
      exact hdb.goto (by simp [hpc, ClaimPc.job]) (by simp [hpc, ClaimPc.tx]) (by simp)
  | panic => exact ⟨h.requests, h.queue, h.job, h.amount, h.tx, h.sent⟩
  | dequeue job tx hpc =>
      refine ⟨h.requests, fun pubkey q hq => h.queue pubkey q (HashMap.lookup_of_erase hq), ?_,
        by simp [State.goto], ?_, h.sent⟩
      · rintro job' ⟨⟩
      · rintro job' ⟨⟩

/-- Requests come and go. -/
theorem of_requests (h : s.Paying Q) {requests : List Request} {aborted : Bool}
    (hrequests : ∀ r ∈ requests, Q r.minerPubkey r.receiverPubkey r.amount ∧ r.amount < 2 ^ 64 ∧
      (r.pc.Sized → minClaimAmountExistsAta ≤ r.amount)) :
    ({ s with requests := requests, aborted := aborted } : State).Paying Q :=
  ⟨hrequests, h.queue, h.job, h.amount, h.tx, h.sent⟩

/-- The request that is inserted has passed the minimum. -/
theorem insertClaim (h : s.Paying Q) (hr : s.requests[k]? = some r) (hpc : r.pc = .insert) :
    (s.insertClaim k r).Paying Q := by
  obtain ⟨hasked, hword, hsized⟩ := h.requests r (List.mem_of_getElem? hr)
  have hgrants : Q.Grants r.minerPubkey ⟨r.receiverPubkey, r.amount⟩ :=
    ⟨hasked, hsized (by rw [hpc]; trivial), hword⟩
  refine ⟨fun q hq => h.requests q (List.mem_of_mem_eraseIdx hq), ?_, h.job, h.amount, h.tx,
    fun tx htx => ?_⟩
  · intro pubkey q hq
    obtain ⟨rfl, rfl⟩ | ⟨-, hold⟩ := HashMap.lookup_insert_eq_some.mp hq
    · exact hgrants
    · exact h.queue pubkey q hold
  · obtain ⟨minerPubkey, item, howner, hrest⟩ := h.sent tx htx
    refine ⟨minerPubkey, item, ?_, hrest⟩
    show (s.claimants ++ [r.minerPubkey])[tx.claim]? = some minerPubkey
    rw [List.getElem?_append_left (List.getElem?_eq_some_iff.mp howner).1]
    exact howner

theorem step (h : s.Paying Q) (hnumbered : s.Numbered) (hasks : e.Asks Q)
    (hstep : s.step wallet e = some t) : t.Paying Q := by
  obtain ⟨-, hstep⟩ := step_eq_some.mp hstep
  cases e with
  | processor input => exact h.moves hnumbered (stepProcessor_moves hstep)
  | post minerPubkey receiverPubkey amount =>
      simp only [stepAlive] at hstep
      split at hstep
      · next hword =>
        cases hstep
        refine h.of_requests fun q hq => ?_
        obtain hold | hnew := List.mem_append.mp hq
        · exact h.requests q hold
        · cases List.mem_singleton.mp hnew
          exact ⟨hasks, hword, False.elim⟩
      · cases hstep
  | request k input =>
      simp only [stepAlive] at hstep
      split at hstep
      · next r hr =>
        have hrequests : ∀ q ∈ t.requests, Q q.minerPubkey q.receiverPubkey q.amount ∧
            q.amount < 2 ^ 64 ∧ (q.pc.Sized → minClaimAmountExistsAta ≤ q.amount) := by
          intro q hq
          obtain hold | ⟨pc, rfl, hpc⟩ := stepRequest_sized hstep q hq
          · exact h.requests q hold
          · obtain ⟨hasked, hword, hsized⟩ := h.requests r (List.mem_of_getElem? hr)
            exact ⟨hasked, hword, fun hpast => (hpc hpast).elim hsized id⟩
        obtain ⟨requests, aborted, rfl⟩ | ⟨hpc, rfl, rfl⟩ := stepRequest_cases hstep
        · exact h.of_requests hrequests
        · exact h.insertClaim hr hpc
      · cases hstep
  | land tx failed =>
      simp only [stepAlive] at hstep
      split at hstep
      · cases hstep
        exact ⟨h.requests, h.queue, h.job, h.amount, h.tx, h.sent⟩
      · cases hstep
  | credit minerId amount =>
      simp only [stepAlive] at hstep
      split at hstep
      · cases hstep
        exact ⟨h.requests, h.queue, h.job, h.amount, h.tx, h.sent⟩
      · cases hstep
  | advance | tick =>
      cases hstep
      exact ⟨h.requests, h.queue, h.job, h.amount, h.tx, h.sent⟩

end Paying

theorem numbered_start (db : Database) : (State.start db).Numbered where
  queue pubkey q hq := by cases hq
  job job hjob := by cases hjob
  tx job hjob := by cases hjob
  sent tx htx := by cases htx

theorem paying_of_run {db : Database} {events : List Event}
    (h : run (State.step wallet) (.start db) events = some s) (hasks : ∀ e ∈ events, e.Asks Q) :
    s.Paying Q := by
  have hstart : (State.start db).Numbered ∧ (State.start db).Paying Q :=
    ⟨numbered_start db, paying_start db⟩
  refine (invariant_of_meets (I := fun s => s.Numbered ∧ s.Paying Q) ?_ hstart
    (meets_of_forall hasks) h).2
  intro s e t hs hok hstep
  exact ⟨hs.1.step (step_steps hstep), hs.2.step hs.1 hok hstep⟩

end State

end Hashpoo.Claims
