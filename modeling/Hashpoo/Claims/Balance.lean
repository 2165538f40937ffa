import Hashpoo.Claims.System

/-!
# Claims within the balance

A request reads the balance long before it inserts its claim, and the debit itself is
not guarded. The balance stays above zero as long as every claim that enters the queue
is covered by what the miner has left at that moment, or replaces a claim of the miner
that the processor is about to remove. Two requests that run side by side can break this:
both find the whole balance, and the second one inserts after the first one is paid.
-/

namespace Hashpoo

/-! ## Claims that the rewards cover -/

namespace Database

variable {db : Database}

def NonNegative (db : Database) : Prop := ∀ row ∈ db.rewards, 0 ≤ row.balance

instance (db : Database) : Decidable db.NonNegative :=
  inferInstanceAs (Decidable (∀ row ∈ db.rewards, _))

/-- The rewards of the miner cover the amount. -/
def Covers (db : Database) (pubkey : Pubkey) (amount : Nat) : Prop :=
  ∀ minerId ∈ db.miners.lookup pubkey, ∀ row ∈ db.rewards, row.minerId = minerId →
    (amount : Int) ≤ row.balance

instance (db : Database) (pubkey : Pubkey) (amount : Nat) : Decidable (db.Covers pubkey amount) :=
  inferInstanceAs (Decidable (∀ minerId ∈ db.miners.lookup pubkey, _))

/-- A row after the update is a row from before, changed if it is one of the miner's. -/
theorem mem_addToRewards {minerId delta : Int} {row : Reward}
    (h : row ∈ (db.addToRewards minerId delta).rewards) : ∃ old ∈ db.rewards,
      row.minerId = old.minerId ∧
      row.balance = if old.minerId = minerId then old.balance + delta else old.balance := by
  obtain ⟨old, hold, rfl⟩ := List.mem_map.mp h
  refine ⟨old, hold, ?_⟩
  split <;> simp

theorem NonNegative.addToRewards (h : db.NonNegative) {minerId delta : Int}
    (hrows : ∀ row ∈ db.rewards, row.minerId = minerId → 0 ≤ row.balance + delta) :
    (db.addToRewards minerId delta).NonNegative := by
  intro row hrow
  obtain ⟨old, hold, -, hbalance⟩ := mem_addToRewards hrow
  rw [hbalance]
  split
  · next hminer => exact hrows old hold hminer
  · exact h old hold

/-- Credits, and debits of other miners, leave a claim covered. -/
theorem Covers.addToRewards {pubkey : Pubkey} {amount : Nat} (h : db.Covers pubkey amount)
    {minerId delta : Int} (hdelta : 0 ≤ delta ∨ db.miners.lookup pubkey ≠ some minerId) :
    (db.addToRewards minerId delta).Covers pubkey amount := by
  intro id hid row hrow hminer
  obtain ⟨old, hold, hsame, hbalance⟩ := mem_addToRewards hrow
  have hcovered := h id hid old hold (hsame.symm.trans hminer)
  rw [hbalance]
  split
  · next hold' =>
    obtain hcredit | hother := hdelta
    · omega
    · rw [← hold', ← hsame, hminer] at hother
      exact absurd hid hother
  · exact hcovered

end Database

namespace Claims

open Foundation

/-! ## Successful calls of the booking -/

/-- The debit has been made. -/
def BookingPc.Debited : BookingPc → Prop
  | .getMiner | .getPool _ | .decrease _ _ => False
  | .poolClaimed _ _ | .addTransaction _ _ | .getTransactionId _ _ | .addClaim _ _ _ => True
  | .booked => True

instance : DecidablePred BookingPc.Debited
  | .getMiner | .getPool _ | .decrease _ _ => .isFalse id
  | .poolClaimed _ _ | .addTransaction _ _ | .getTransactionId _ _ => .isTrue trivial
  | .addClaim _ _ _ | .booked => .isTrue trivial

/-- The miner id that was looked up for the debit to come. -/
def BookingPc.debtor : BookingPc → Option Int
  | .getPool minerId | .decrease minerId _ => some minerId
  | _ => none

theorem debtor_of_debited {pc : BookingPc} (h : pc.Debited) : pc.debtor = none := by
  cases pc <;> first | rfl | cases h

/-- The claim whose debit is still to come. -/
def ClaimPc.owed : ClaimPc → Option Job
  | .idle => none
  | .checkAta job | .blockhash job _ | .send job _ _ | .poll job _ _ => some job
  | .book job _ pc => if pc.Debited then none else some job

theorem ClaimPc.owed_book {job : Job} {tx : PayoutTx} {pc : BookingPc} (h : ¬ pc.Debited) :
    (ClaimPc.book job tx pc).owed = some job := if_neg h

/-- What successful calls do to the rewards. -/
inductive Receipt.Advances (rc : Receipt) (db : Database) :
    BookingPc → BookingPc → Database → Prop
  | getMiner (minerId : Int) : db.miners.lookup rc.minerPubkey = some minerId →
      Advances rc db .getMiner (.getPool minerId) db
  | getPool (minerId poolId : Int) :
      Advances rc db (.getPool minerId) (.decrease minerId poolId) db
  | decrease (minerId poolId : Int) :
      Advances rc db (.decrease minerId poolId) (.poolClaimed minerId poolId)
        (db.addToRewards minerId (-rc.amountI64))
  | debited (pc pc' : BookingPc) (db' : Database) : pc.Debited → pc'.Debited →
      db'.rewards = db.rewards → db'.miners = db.miners → Advances rc db pc pc' db'

namespace Receipt

variable {rc : Receipt} {db db' : Database} {pc pc' : BookingPc} {now : Int} {fails : Bool}

theorem step_advances (h : rc.step now fails db pc = (.ok pc', db')) (hne : pc' ≠ pc) :
    rc.Advances db pc pc' db' := by
  cases step_outcome h with
  | stay => exact absurd rfl hne
  | getMiner minerId hminer => exact .getMiner minerId hminer
  | getPool minerId poolId => exact .getPool minerId poolId
  | decrease minerId poolId _ => exact .decrease minerId poolId
  | decreaseRows => exact absurd rfl hne
  | poolClaimed => exact .debited _ _ _ trivial trivial rfl rfl
  | addTransaction => exact .debited _ _ _ trivial trivial rfl rfl
  | getTransactionId => exact .debited _ _ _ trivial trivial rfl rfl
  | addClaim => exact .debited _ _ _ trivial trivial rfl rfl

end Receipt

namespace State

variable {wallet : Pubkey} {s t : State} {e : Event} {input : ProcessorInput}

/-! ## The two conditions -/

/-- The database call of the processor succeeds. -/
def callSucceeds (wallet : Pubkey) (s : State) (fails : Bool) : Bool :=
  match s.pc with
  | .book job tx pc =>
      match ((receipt wallet job tx).step s.now fails s.db pc).1 with
      | .ok pc' => pc' ≠ pc
      | .error _ => false
  | _ => false

/-- All calls succeed, and every transaction is confirmed within its time. -/
def Healthy (wallet : Pubkey) (s : State) (e : Event) : Prop :=
  match e with
  | .processor (.blockhash ok) => ok = true
  | .processor (.sent ok) => ok = true
  | .processor (.status _) => s.expiring = none ∧
      ∀ tx ∈ s.pc.tx, ∀ l ∈ s.chain.find tx, l.failed = false
  | .processor (.call fails) => s.callSucceeds wallet fails = true
  | .request _ (.call fails) => fails = false
  | _ => True

instance (s : State) (e : Event) : Decidable (s.Healthy wallet e) :=
  match e with
  | .processor (.blockhash _) | .processor (.sent _) => inferInstanceAs (Decidable (_ = _))
  | .processor (.status _) => inferInstanceAs (Decidable (_ ∧ ∀ tx ∈ s.pc.tx, _))
  | .processor (.call _) | .request _ (.call _) => inferInstanceAs (Decidable (_ = _))
  | .processor (.pick _) | .processor (.ata _) | .processor .proceed => .isTrue trivial
  | .request _ .proceed | .request _ (.ata _) => .isTrue trivial
  | .post _ _ _ | .land _ _ | .advance _ | .credit _ _ | .tick _ => .isTrue trivial

/-- A claim that enters the queue is covered by the balance of that moment, unless the
processor is at work on a claim of the miner and will remove both. -/
def InsertCovered (s : State) (e : Event) : Prop :=
  match e with
  | .request k .proceed => ∀ r ∈ s.requests[k]?, r.pc = .insert →
      (∃ job ∈ s.pc.job, job.minerPubkey = r.minerPubkey) ∨ s.db.Covers r.minerPubkey r.amount
  | _ => True

instance (s : State) (e : Event) : Decidable (s.InsertCovered e) :=
  match e with
  | .request k .proceed => inferInstanceAs (Decidable (∀ r ∈ s.requests[k]?, _))
  | .request _ (.ata _) | .request _ (.call _) => .isTrue trivial
  | .processor _ | .post _ _ _ | .land _ _ | .advance _ | .credit _ _ | .tick _ => .isTrue trivial

/-! ## The invariant -/

/-- The claims in the queue that will be paid, and the one under way, are covered. -/
structure Covered (s : State) : Prop where
  nonneg : s.db.NonNegative
  queue : ∀ pubkey q, s.queue.lookup pubkey = some q →
    (∀ job ∈ s.pc.job, job.minerPubkey ≠ pubkey) → s.db.Covers pubkey q.item.amount
  owed : ∀ job ∈ s.pc.owed, s.db.Covers job.minerPubkey job.item.amount
  debtor : ∀ job tx pc, s.pc = .book job tx pc → ∀ minerId ∈ pc.debtor,
    s.db.miners.lookup job.minerPubkey = some minerId

namespace Covered

/-- The processor goes on with the same job. -/
theorem goto (h : s.Covered) {pc : ClaimPc} (hjob : pc.job = s.pc.job)
    (howed : pc.owed = s.pc.owed) (hdebtor : ∀ job tx pc', pc = .book job tx pc' →
      ∀ minerId ∈ pc'.debtor, s.db.miners.lookup job.minerPubkey = some minerId) :
    (s.goto pc).Covered where
  nonneg := h.nonneg
  queue pubkey q hq hother := h.queue pubkey q hq (by rw [← hjob]; exact hother)
  owed job hmem := h.owed job (howed ▸ hmem)
  debtor := hdebtor

theorem debit (h : s.Covered) {job : Job} {tx : PayoutTx} {minerId poolId : Int}
    (hpc : s.pc = .book job tx (.decrease minerId poolId)) :
    (({ s with db := s.db.addToRewards minerId (-(receipt wallet job tx).amountI64) } : State).goto
      (.book job tx (.poolClaimed minerId poolId))).Covered := by
  have hminer : s.db.miners.lookup job.minerPubkey = some minerId := h.debtor _ _ _ hpc _ rfl
  have hcovers := h.owed job (by rw [hpc, ClaimPc.owed_book id]; rfl)
  refine ⟨h.nonneg.addToRewards ?_, ?_, ?_, ?_⟩
  · intro row hrow hid
    have hle := hcovers minerId hminer row hrow hid
    have hsigned : (receipt wallet job tx).amountI64 ≤ job.item.amount :=
      Word.signed_le 63 job.item.amount
    omega
  · intro pubkey q hq hother
    have hpubkey : job.minerPubkey ≠ pubkey := hother job rfl
    refine (h.queue pubkey q hq (by rw [hpc]; exact hother)).addToRewards (.inr ?_)
    -- Two keys never share a miner id.
    exact fun hsame => hpubkey (s.db.minerIds _ _ minerId hminer hsame)
  · rintro job' ⟨⟩
  · rintro job' tx' pc' ⟨⟩ id ⟨⟩

theorem call (h : s.Covered) {job : Job} {tx : PayoutTx} {pc pc' : BookingPc} {db : Database}
    (hpc : s.pc = .book job tx pc) (hadvances : (receipt wallet job tx).Advances s.db pc pc' db) :
    (({ s with db := db } : State).goto (.book job tx pc')).Covered := by
  cases hadvances with
  | getMiner minerId hminer =>
      refine h.goto (by rw [hpc]; rfl) (by rw [hpc]; rfl) ?_
      rintro job' tx' pc' ⟨⟩ id ⟨⟩
      exact hminer
  | getPool minerId poolId =>
      refine h.goto (by rw [hpc]; rfl) (by rw [hpc]; rfl) ?_
      rintro job' tx' pc' ⟨⟩ id ⟨⟩
      exact h.debtor _ _ _ hpc _ rfl
  | decrease minerId poolId => exact h.debit hpc
  | debited _ _ _ hdebited hdebited' hrewards hminers =>
      refine ⟨?_, ?_, ?_, ?_⟩
      · intro row hrow
        exact h.nonneg row (hrewards ▸ hrow)
      · intro pubkey q hq hother id hid row hrow
        exact h.queue pubkey q hq (by rw [hpc]; exact hother) id (hminers ▸ hid) row
          (hrewards ▸ hrow)
      · intro job' hjob
        simp [State.goto, ClaimPc.owed, hdebited'] at hjob
      · rintro job' tx' pc'' ⟨⟩ id hid
        rw [debtor_of_debited hdebited'] at hid
        cases hid

theorem moves (h : s.Covered) (hok : s.Healthy wallet (.processor input))
    (hmoves : s.Moves wallet input t) : t.Covered := by
  cases hmoves with
  | pick minerPubkey queued hpc hqueued =>
      have hfree : ∀ pubkey, ∀ job ∈ s.pc.job, job.minerPubkey ≠ pubkey := by
        rw [hpc]
        rintro pubkey job ⟨⟩
      refine ⟨h.nonneg, fun pubkey q hq _ => h.queue pubkey q hq (hfree pubkey), ?_, ?_⟩
      · rintro job ⟨⟩
        exact h.queue minerPubkey queued hqueued (hfree minerPubkey)
      · rintro job tx pc ⟨⟩
  | checkAta job missing hpc =>
      exact h.goto (by rw [hpc]; rfl) (by rw [hpc]; rfl) (by simp)
  | noBlockhash => cases hok
  | sign job amount hpc =>
      refine ⟨h.nonneg, fun pubkey q hq hother => h.queue pubkey q hq ?_, ?_, ?_⟩
      · rw [hpc]
        exact hother
      · rintro job' ⟨⟩
        exact h.owed job (by rw [hpc]; rfl)
      · rintro job' tx pc ⟨⟩
  | notSent => cases hok
  | sent job tx timer hpc =>
      have hsent : (s.deliver tx).Covered := ⟨h.nonneg, h.queue, h.owed, h.debtor⟩
      exact hsent.goto (show some job = s.pc.job by rw [hpc]; rfl)
        (show some job = s.pc.owed by rw [hpc]; rfl) (by simp)
  | expired job tx timer answer hpc htimer =>
      have hnone := hok.1
      simp [expiring, hpc, htimer] at hnone
  | waiting => exact h
  | failed job tx timer l hpc hfind hfailed =>
      have hpaid := hok.2 tx (by rw [hpc]; rfl) l hfind
      rw [hfailed] at hpaid
      cases hpaid
  | confirmed job tx timer l hpc =>
      refine h.goto (by rw [hpc]; rfl) (by rw [hpc]; rfl) ?_
      rintro job' tx' pc ⟨⟩ id ⟨⟩
  | call job tx pc pc' fails db hpc hstep =>
      refine h.call hpc (Receipt.step_advances hstep ?_)
      simpa [Healthy, callSucceeds, hpc, hstep] using hok
  | panic job tx pc fails p db hpc hstep =>
      simp [Healthy, callSucceeds, hpc, hstep] at hok
  | dequeue job tx hpc =>
      refine ⟨h.nonneg, fun pubkey q hq _ => ?_, ?_, ?_⟩
      · -- The entry is not the one of the miner whose claim is done.
        refine h.queue pubkey q (HashMap.lookup_of_erase hq) ?_
        rw [hpc]
        rintro job' ⟨⟩ rfl
        cases (AList.lookup_erase job.minerPubkey s.queue).symm.trans hq
      · rintro job' ⟨⟩
      · rintro job' tx' pc ⟨⟩

theorem insertClaim (h : s.Covered) {k : Nat} {r : Request} (hr : s.requests[k]? = some r)
    (hpc : r.pc = .insert) (hok : s.InsertCovered (.request k .proceed)) :
    (s.insertClaim k r).Covered := by
  refine ⟨h.nonneg, ?_, h.owed, h.debtor⟩
  intro pubkey q hq hother
  by_cases hkey : pubkey = r.minerPubkey
  · subst hkey
    simp only [State.insertClaim, AList.lookup_insert, Option.some.injEq] at hq
    subst hq
    obtain ⟨job, hjob, hsame⟩ | hcovers := hok r hr hpc
    · exact absurd hsame (hother job hjob)
    · exact hcovers
  · simp only [State.insertClaim, AList.lookup_insert_ne hkey] at hq
    exact h.queue pubkey q hq hother

theorem credit (h : s.Covered) (minerId : Int) (amount : Nat) :
    ({ s with db := s.db.addToRewards minerId amount } : State).Covered where
  nonneg := h.nonneg.addToRewards fun row hrow _ => by
    have hbalance := h.nonneg row hrow
    omega
  queue pubkey q hq hother := (h.queue pubkey q hq hother).addToRewards (.inl (by omega))
  owed job hjob := (h.owed job hjob).addToRewards (.inl (by omega))
  debtor := h.debtor

theorem step (h : s.Covered) (hok : s.Healthy wallet e ∧ s.InsertCovered e)
    (hstep : s.Steps wallet e t) : t.Covered := by
  cases hstep with
  | processor input t hmoves => exact h.moves hok.1 hmoves
  | insert k r hr hpc => exact h.insertClaim hr hpc hok.2
  | credit minerId amount => exact h.credit minerId amount
  | requests | land | advance | tick => exact ⟨h.nonneg, h.queue, h.owed, h.debtor⟩

end Covered

theorem covered_start {db : Database} (hdb : db.NonNegative) : (State.start db).Covered where
  nonneg := hdb
  queue pubkey q hq := by simp [start] at hq
  owed job hjob := by simp [start, ClaimPc.owed] at hjob
  debtor job tx pc hpc := by simp [start] at hpc

/-- In every run in which all calls succeed, all transactions are confirmed and every
claim is covered when it enters the queue, no balance falls below zero. -/
theorem nonNegative_of_run {db : Database} {events : List Event} (hdb : db.NonNegative)
    (h : run (State.step wallet) (.start db) events = some s)
    (hhealthy : Meets (State.step wallet) (Healthy wallet) (.start db) events)
    (hmeets : Meets (State.step wallet) InsertCovered (.start db) events) :
    s.db.NonNegative := by
  have hinv : s.Covered := invariant_of_meets
    (fun _ _ _ hs hok hstep => hs.step hok (step_steps hstep)) (covered_start hdb)
    (hhealthy.and hmeets) h
  exact hinv.nonneg

/-- Both requests pass every check. The second claim enters the queue while the first one
is paid, and is removed with it. -/
def insertedDuringPayout : List Event :=
  [Scenario.post, Scenario.post] ++ Scenario.check 0 ++ Scenario.check 1 ++
    [Scenario.insert 0] ++ Scenario.pay ++ [Scenario.insert 0] ++
    Scenario.confirm (Scenario.payoutTx 0 0) ++ Scenario.book

theorem nonNegative_insertedDuringPayout : ∃ s, run (State.step (.fill 32 9))
    (.start Receipt.sampleDb) insertedDuringPayout = some s ∧
    (s.db.rewards = [⟨1000, 0⟩] ∧ s.claimants.length = 2) ∧ s.db.NonNegative := by
  obtain ⟨s, hrun, hpaid⟩ := exists_run (State.step (.fill 32 9)) (.start Receipt.sampleDb)
    insertedDuringPayout (fun s => s.db.rewards = [⟨1000, 0⟩] ∧ s.claimants.length = 2) (by decide)
  exact ⟨s, hrun, hpaid, nonNegative_of_run (by decide) hrun (by decide) (by decide)⟩

/-- Both requests pass every check, and the second claim enters the queue after the first
one has been paid. -/
def insertedAfterPayout : List Event :=
  [Scenario.post, Scenario.post] ++ Scenario.check 0 ++ Scenario.check 1 ++
    [Scenario.insert 0] ++ Scenario.pay ++ Scenario.confirm (Scenario.payoutTx 0 0) ++
    Scenario.book ++ [Scenario.insert 0] ++ Scenario.pay ++
    Scenario.confirm (Scenario.payoutTx 1 1) ++ Scenario.book

theorem not_nonNegative : ¬ ∀ wallet db events s, db.NonNegative →
    run (State.step wallet) (.start db) events = some s →
    Meets (State.step wallet) (Healthy wallet) (.start db) events → s.db.NonNegative := by
  intro h
  obtain ⟨s, hrun, hdebt⟩ := exists_run (State.step (.fill 32 9)) (.start Receipt.sampleDb)
    insertedAfterPayout (fun s => s.db.rewards = [⟨1000, -1_000_000_000⟩]) (by decide)
  have hclaim := h _ _ _ _ (by decide) hrun (by decide)
  exact absurd (hclaim ⟨1000, -1_000_000_000⟩ (by simp [hdebt])) (by decide)

end State

end Claims

end Hashpoo
