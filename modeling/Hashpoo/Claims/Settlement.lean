import Hashpoo.Claims.Balance
import Hashpoo.Claims.Payout

/-!
# From the payout on the chain to the debit in the tables

A payout has left the account of the pool when it lands, and it leaves the balance of its
miner when the booking makes the debit. In between it is unsettled. The processor debits the
transaction in hand only, and each transaction is in hand once, so a payout is settled at most
once.
-/

namespace Hashpoo.Claims

open Foundation

/-! ## The debit among the steps -/

/-- The payout in hand whose debit is to come. -/
def ClaimPc.unsettled : ClaimPc → Option PayoutTx
  | .idle | .checkAta _ | .blockhash _ _ => none
  | .send _ tx _ | .poll _ tx _ => some tx
  | .book _ tx pc => if pc.Debited then none else some tx

/-- The payout that a step of the processor has taken from the balance of its miner. -/
def ClaimPc.settles : ClaimPc → ClaimPc → Option PayoutTx
  | .book _ tx pc, .book _ _ pc' => if ¬ pc.Debited ∧ pc'.Debited then some tx else none
  | _, _ => none

theorem ClaimPc.settles_self (pc : ClaimPc) : pc.settles pc = none := by
  cases pc with
  | book job tx pc => exact if_neg fun h => h.1 h.2
  | _ => rfl

/-- Take the settled payout off the list. -/
def settle (payouts : List PayoutTx) : Option PayoutTx → List PayoutTx
  | some tx => payouts.erase tx
  | none => payouts

theorem mem_of_mem_settle {payouts : List PayoutTx} {settled : Option PayoutTx} {tx : PayoutTx}
    (h : tx ∈ settle payouts settled) : tx ∈ payouts := by
  cases settled with
  | none => exact h
  | some tx' => exact List.mem_of_mem_erase h

theorem nodup_settle {payouts : List PayoutTx} (h : payouts.Nodup) (settled : Option PayoutTx) :
    (settle payouts settled).Nodup := by
  cases settled with
  | none => exact h
  | some tx => exact h.erase tx

namespace Receipt

variable {rc : Receipt} {db db' : Database} {pc pc' : BookingPc} {now : Int} {fails : Bool}

/-- A debit is not taken back. -/
theorem Outcome.debited (h : rc.Outcome db pc pc' db') (hpc : pc.Debited) : pc'.Debited := by
  cases h with
  | stay => exact hpc
  | getMiner | getPool | decrease | decreaseRows => cases hpc
  | poolClaimed | addTransaction | getTransactionId | addClaim => trivial

/-- The calls whose failure ends the server write nothing. -/
theorem eq_of_panic {p : Panic} (h : rc.step now fails db pc = (.error p, db')) : db' = db := by
  cases pc with
  | getMiner | getPool =>
      simp only [step] at h
      split at h <;> cases h
      rfl
  | getTransactionId =>
      simp only [step] at h
      split at h <;> cases h
  | decrease | poolClaimed | addTransaction | addClaim =>
      simp only [step, retry] at h
      split at h
      · cases h
      · split at h <;> cases h
  | booked => cases h

end Receipt

namespace State

variable {wallet : Pubkey} {s t : State} {e : Event} {payouts : List PayoutTx}

/-- Apart from credits, the tables change by the calls of the booking alone, and so does what
is settled. -/
theorem Steps.tables (h : s.Steps wallet e t)
    (hcredit : ∀ minerId amount, e ≠ .credit minerId amount) :
    (t.db = s.db ∧ s.pc.settles t.pc = none) ∨
      ∃ job tx pc pc', s.pc = .book job tx pc ∧ t.pc = .book job tx pc' ∧
        (receipt wallet job tx).Outcome s.db pc pc' t.db := by
  cases h with
  | processor input t hmoves =>
      cases hmoves with
      | call job tx pc pc' fails db hpc hstep =>
          exact .inr ⟨job, tx, pc, pc', hpc, rfl, Receipt.step_outcome hstep⟩
      | panic job tx pc fails p db hpc hstep =>
          exact .inl ⟨Receipt.eq_of_panic hstep, s.pc.settles_self⟩
      | pick minerPubkey queued hpc | checkAta job missing hpc | noBlockhash job amount hpc
      | sign job amount hpc | sent job tx timer hpc | expired job tx timer answer hpc
      | failed job tx timer l hpc | confirmed job tx timer l hpc | dequeue job tx hpc =>
          exact .inl ⟨rfl, by rw [hpc]; rfl⟩
      | notSent | waiting => exact .inl ⟨rfl, s.pc.settles_self⟩
  | credit minerId amount => exact absurd rfl (hcredit minerId amount)
  | requests | insert | land | advance | tick => exact .inl ⟨rfl, s.pc.settles_self⟩

/-! ## What is unsettled -/

/-- The payouts on the list have landed, and the one in hand is among them until its debit. -/
structure Settling (s : State) (payouts : List PayoutTx) : Prop where
  valid : s.chain.Valid
  sent : ∀ tx ∈ s.chain.sent, tx.signature < s.chain.nextSignature
  hand : ∀ tx ∈ s.pc.tx, tx.signature < s.chain.nextSignature
  confirmed : ∀ job tx pc, s.pc = .book job tx pc → s.chain.Paid tx
  kept : ∀ tx ∈ s.pc.unsettled, s.chain.Paid tx → tx ∈ payouts
  nodup : payouts.Nodup
  paid : ∀ tx ∈ payouts, s.chain.Paid tx

theorem settling_start (db : Database) : (State.start db).Settling [] where
  valid := (payable_start db).valid
  sent tx htx := by cases htx
  hand tx htx := by cases htx
  confirmed job tx pc hpc := by cases hpc
  kept tx htx := by cases htx
  nodup := List.nodup_nil
  paid tx htx := by cases htx

namespace Settling

/-- What is unsettled depends on the chain and on where the processor is. -/
theorem congr (h : s.Settling payouts) (hchain : t.chain = s.chain) (hpc : t.pc = s.pc) :
    t.Settling payouts where
  valid := by rw [hchain]; exact h.valid
  sent := by rw [hchain]; exact h.sent
  hand := by rw [hchain, hpc]; exact h.hand
  confirmed := by rw [hchain, hpc]; exact h.confirmed
  kept := by rw [hchain, hpc]; exact h.kept
  nodup := h.nodup
  paid := by rw [hchain]; exact h.paid

/-- The processor goes on without a transaction. -/
theorem letGo (h : s.Settling payouts) {pc : ClaimPc} (htx : pc.tx = none) :
    (s.goto pc).Settling payouts := by
  have hnone : pc.unsettled = none := by
    cases pc with
    | idle | checkAta | blockhash => rfl
    | send | poll | book => cases htx
  refine ⟨h.valid, h.sent, fun tx hmem => ?_, fun job tx pc' hpc => ?_, fun tx hmem => ?_,
    h.nodup, h.paid⟩
  · rw [show (s.goto pc).pc.tx = none from htx] at hmem
    cases hmem
  · rw [show pc = .book job tx pc' from hpc] at htx
    cases htx
  · rw [show (s.goto pc).pc.unsettled = none from hnone] at hmem
    cases hmem

theorem deliver (h : s.Settling payouts) {tx : PayoutTx} (htx : s.pc.tx = some tx) :
    (s.deliver tx).Settling payouts where
  valid := h.valid.deliver tx
  sent tx' hmem := by
    cases hmem with
    | head => exact h.hand tx htx
    | tail _ hmem => exact h.sent tx' hmem
  hand := h.hand
  confirmed := h.confirmed
  kept := h.kept
  nodup := h.nodup
  paid := h.paid

/-- A new transaction has a signature of its own, so it has not paid yet. -/
theorem sign (h : s.Settling payouts) (job : Job) (amount : Nat) :
    (s.sign job amount).Settling payouts where
  valid := ⟨h.valid.sent, h.valid.once⟩
  sent tx htx := Nat.lt_succ_of_lt (h.sent tx htx)
  hand := by
    rintro tx ⟨⟩
    exact Nat.lt_succ_self _
  confirmed := by rintro job' tx pc ⟨⟩
  kept := by
    rintro tx ⟨⟩ ⟨l, hl, htx, -⟩
    have hlt := h.sent l.tx (h.valid.sent l hl)
    rw [htx] at hlt
    exact absurd hlt (lt_irrefl _)
  nodup := h.nodup
  paid := h.paid

theorem call (h : s.Settling payouts) {job : Job} {tx : PayoutTx} {pc pc' : BookingPc}
    {db : Database} (hpc : s.pc = .book job tx pc)
    (houtcome : (receipt wallet job tx).Outcome s.db pc pc' db) :
    (({ s with db := db } : State).goto (.book job tx pc')).Settling
      (settle payouts (s.pc.settles (.book job tx pc'))) := by
  have hpaid := h.confirmed job tx pc hpc
  refine ⟨h.valid, h.sent, ?_, ?_, ?_, nodup_settle h.nodup _,
    fun tx' htx' => h.paid tx' (mem_of_mem_settle htx')⟩
  · rintro tx' ⟨⟩
    exact h.hand tx (by rw [hpc]; rfl)
  · rintro job' tx' pc'' ⟨⟩
    exact hpaid
  · intro tx' hmem htx'
    by_cases hdebited : pc'.Debited
    · simp [State.goto, ClaimPc.unsettled, hdebited] at hmem
    · have hbefore : ¬ pc.Debited := fun hbefore => hdebited (houtcome.debited hbefore)
      have hnone : s.pc.settles (.book job tx pc') = none := by
        rw [hpc]
        exact if_neg fun hboth => hdebited hboth.2
      rw [hnone]
      refine h.kept tx' ?_ htx'
      rw [hpc]
      simpa [State.goto, ClaimPc.unsettled, hdebited, hbefore] using hmem

/-- The books change the tables only. -/
theorem withDb (h : s.Settling payouts) (db : Database) :
    ({ s with db := db } : State).Settling payouts :=
  h.congr rfl rfl

theorem of_settles_none (h : t.Settling payouts) (hnone : s.pc.settles t.pc = none) :
    t.Settling (settle payouts (s.pc.settles t.pc)) := by
  rw [hnone]
  exact h

theorem moves (h : s.Settling payouts) {input : ProcessorInput}
    (hmoves : s.Moves wallet input t) : t.Settling (settle payouts (s.pc.settles t.pc)) := by
  cases hmoves with
  | pick minerPubkey queued hpc | checkAta job missing hpc | noBlockhash job amount hpc
  | expired job tx timer answer hpc | failed job tx timer l hpc =>
      exact (h.letGo rfl).of_settles_none (by rw [hpc]; rfl)
  | dequeue job tx hpc =>
      have hqueue : ({ s with queue := s.queue.erase job.minerPubkey } : State).Settling payouts :=
        h.congr rfl rfl
      exact (hqueue.letGo rfl).of_settles_none (by rw [hpc]; rfl)
  | sign job amount hpc => exact (h.sign job amount).of_settles_none (by rw [hpc]; rfl)
  | notSent job tx timer hpc =>
      exact (h.deliver (by rw [hpc]; rfl)).of_settles_none s.pc.settles_self
  | sent job tx timer hpc =>
      have hsent : (s.deliver tx).Settling payouts := h.deliver (by rw [hpc]; rfl)
      refine of_settles_none ⟨hsent.valid, hsent.sent, ?_, ?_, ?_, hsent.nodup, hsent.paid⟩
        (by rw [hpc]; rfl)
      · rintro tx' ⟨⟩
        exact h.hand tx (by rw [hpc]; rfl)
      · rintro job' tx' pc ⟨⟩
      · rintro tx' ⟨⟩ hpaid
        exact h.kept tx (by rw [hpc]; rfl) hpaid
  | waiting => exact h.of_settles_none s.pc.settles_self
  | confirmed job tx timer l hpc hfind hpaid =>
      obtain ⟨hl, htx⟩ := Chain.landed_of_find hfind
      refine of_settles_none ⟨h.valid, h.sent, ?_, ?_, ?_, h.nodup, h.paid⟩ (by rw [hpc]; rfl)
      · rintro tx' ⟨⟩
        exact h.hand tx (by rw [hpc]; rfl)
      · rintro job' tx' pc ⟨⟩
        exact ⟨l, hl, htx, hpaid⟩
      · rintro tx' ⟨⟩ hpaid'
        exact h.kept tx (by rw [hpc]; rfl) hpaid'
  | call job tx pc pc' fails db hpc hstep => exact h.call hpc (Receipt.step_outcome hstep)
  | panic => exact of_settles_none (h.congr rfl rfl) s.pc.settles_self

/-- A transaction that lands and fails pays nothing. -/
theorem step (h : s.Settling payouts) (hland : ∀ tx, e ≠ .land tx false)
    (hsteps : s.Steps wallet e t) : t.Settling (settle payouts (s.pc.settles t.pc)) := by
  cases hsteps with
  | processor input t hmoves => exact h.moves hmoves
  | land tx failed hsent hfind =>
      have hfailed : failed = true := by
        cases failed with
        | true => rfl
        | false => exact absurd rfl (hland tx)
      have hpaid : ∀ tx', Chain.Paid { s.chain with
          landed := ⟨tx, .processed, failed⟩ :: s.chain.landed } tx' ↔ s.chain.Paid tx' := by
        intro tx'
        simp [Chain.Paid, hfailed]
      exact of_settles_none ⟨h.valid.land hsent hfind, h.sent, h.hand,
        fun job tx' pc hpc => (hpaid tx').mpr (h.confirmed job tx' pc hpc),
        fun tx' htx' hpaid' => h.kept tx' htx' ((hpaid tx').mp hpaid'), h.nodup,
        fun tx' htx' => (hpaid tx').mpr (h.paid tx' htx')⟩ s.pc.settles_self
  | advance signature =>
      have hpaid : ∀ tx, (s.chain.advance signature).Paid tx ↔ s.chain.Paid tx := fun _ =>
        Chain.advance_paid signature
      exact of_settles_none ⟨h.valid.advance signature, h.sent, h.hand,
        fun job tx pc hpc => (hpaid tx).mpr (h.confirmed job tx pc hpc),
        fun tx htx hpaid' => h.kept tx htx ((hpaid tx).mp hpaid'), h.nodup,
        fun tx htx => (hpaid tx).mpr (h.paid tx htx)⟩ s.pc.settles_self
  | requests | insert | credit | tick =>
      exact of_settles_none (h.congr rfl rfl) s.pc.settles_self

/-- A payout that lands is unsettled. -/
theorem payout (h : s.Settling payouts) {tx : PayoutTx}
    (hstep : s.step wallet (.land tx false) = some t) :
    t.Settling (tx :: payouts) ∧ t.db = s.db := by
  obtain ⟨-, hstep⟩ := step_eq_some.mp hstep
  simp only [stepAlive] at hstep
  split at hstep
  · next hland =>
    cases hstep
    obtain ⟨hsent, hfind⟩ := hland
    have hpaid : ∀ tx', Chain.Paid { s.chain with
        landed := ⟨tx, .processed, false⟩ :: s.chain.landed } tx' ↔
          tx = tx' ∨ s.chain.Paid tx' := by
      intro tx'
      simp [Chain.Paid]
    have hnew : tx ∉ payouts := by
      intro hold
      obtain ⟨l, hl, htx, -⟩ := h.paid tx hold
      exact Chain.not_landed_of_find hfind l hl htx
    refine ⟨⟨h.valid.land hsent hfind, h.sent, h.hand,
      fun job tx' pc hpc => (hpaid tx').mpr (.inr (h.confirmed job tx' pc hpc)),
      fun tx' htx' hpaid' => ?_, List.nodup_cons.mpr ⟨hnew, h.nodup⟩, fun tx' htx' => ?_⟩, rfl⟩
    · obtain rfl | hold := (hpaid tx').mp hpaid'
      · exact List.mem_cons_self
      · exact List.mem_cons_of_mem tx (h.kept tx' htx' hold)
    · refine (hpaid tx').mpr ?_
      obtain rfl | hold := List.mem_cons.mp htx'
      · exact .inl rfl
      · exact .inr (h.paid tx' hold)
  · cases hstep

end Settling

end State

end Hashpoo.Claims
