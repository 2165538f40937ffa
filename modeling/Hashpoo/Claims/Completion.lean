import Hashpoo.Claims.System

/-!
# From the confirmation to the end of a claim

The booking calls as steps of the processor. Whatever the pattern of failures, the claim
stays in the queue until the last call has succeeded, and a panic on the way leaves a
server that takes no further step.
-/

namespace Hashpoo.Claims.State

open Foundation

variable {wallet : Pubkey} {s t : State} {job : Job} {tx : PayoutTx} {pc : BookingPc}
  {db : Database} {fails : Nat → Bool} {minerId : Int} {pool : Pool}

/-- The processor at the call `pc` of a booking, with the tables `db`. -/
def booking (s : State) (job : Job) (tx : PayoutTx) (pc : BookingPc) (db : Database) : State :=
  { s with db := db, pc := .book job tx pc }

/-- The first `n` calls. -/
def calls (fails : Nat → Bool) (n : Nat) : List Event :=
  (List.range n).map fun i => .processor (.call (fails i))

/-- From the confirmation on, the processor comes to the removal of the claim. It has then
booked the payout exactly once, and the claim was in the queue as before until then. -/
def Completes (wallet : Pubkey) (s : State) (job : Job) (tx : PayoutTx) (fails : Nat → Bool)
    (minerId : Int) (pool : Pool) : Prop :=
  ∃ n t, run (step wallet) s (calls fails n ++ [.processor .proceed]) = some t ∧
    (receipt wallet job tx).Booked minerId pool s.db t.db ∧
    t.queue = s.queue.erase job.minerPubkey ∧
    ∀ m ≤ n, ∀ u, run (step wallet) s (calls fails m) = some u → u.queue = s.queue

/-! ## The calls as steps -/

theorem calls_succ (n : Nat) :
    calls fails (n + 1) = calls fails n ++ [.processor (.call (fails n))] := by
  simp [calls, List.range_succ]

/-- What the calls of a booking have led to. After a panic no step is possible. -/
def Follows (s : State) (job : Job) (tx : PayoutTx) (reached : Option State) :
    Except Panic BookingPc × Database → Prop
  | (.ok pc, db) => reached = some (s.booking job tx pc db)
  | (.error _, _) => ∀ t ∈ reached, t.aborted = true ∧ t.queue = s.queue

theorem Follows.queue_eq {reached : Option State} {st : Except Panic BookingPc × Database}
    (h : s.Follows job tx reached st) (ht : reached = some t) : t.queue = s.queue := by
  obtain ⟨outcome, db⟩ := st
  cases outcome with
  | ok pc =>
      cases (show reached = _ from h).symm.trans ht
      rfl
  | error p => exact (h t ht).2

theorem step_booking (halive : s.aborted = false) (failed : Bool) :
    s.Follows job tx ((s.booking job tx pc db).step wallet (.processor (.call failed)))
      ((receipt wallet job tx).step s.now failed db pc) := by
  have hstep : (s.booking job tx pc db).step wallet (.processor (.call failed)) =
      (s.booking job tx pc db).stepProcessor wallet (.call failed) :=
    if_neg (by simp [booking, halive])
  rw [hstep]
  cases hcall : (receipt wallet job tx).step s.now failed db pc with
  | mk outcome db' =>
      cases outcome with
      | ok pc' =>
          show stepProcessor wallet (s.booking job tx pc db) (.call failed) = _
          simp only [stepProcessor, booking, hcall]
      | error p =>
          intro t ht
          simp only [stepProcessor, booking, hcall, Option.mem_def, Option.some.injEq] at ht
          subst ht
          exact ⟨rfl, rfl⟩

theorem run_calls (wallet : Pubkey) (fails : Nat → Bool) (hpc : s.pc = .book job tx .getMiner)
    (halive : s.aborted = false) (n : Nat) :
    s.Follows job tx (run (step wallet) s (calls fails n))
      ((receipt wallet job tx).run fails (fun _ => s.now) s.db n) := by
  induction n with
  | zero =>
      show some s = some (s.booking job tx .getMiner s.db)
      rw [booking, ← hpc]
  | succ n ih =>
      rw [calls_succ, run_concat, Receipt.run]
      cases hrun : (receipt wallet job tx).run fails (fun _ => s.now) s.db n with
      | mk outcome db =>
          rw [hrun] at ih
          cases outcome with
          | ok pc =>
              rw [show run (step wallet) s (calls fails n) = some _ from ih]
              exact step_booking halive (fails n)
          | error p =>
              intro t ht
              obtain ⟨u, hu, hstep⟩ := Option.bind_eq_some_iff.mp ht
              rw [step_eq_some, (ih u hu).1] at hstep
              cases hstep.1

/-! ## The end of the claim -/

/-- The processor removes the claim exactly when the calls have booked the payout. -/
theorem completes_iff_books (hpc : s.pc = .book job tx .getMiner) (halive : s.aborted = false) :
    s.Completes wallet job tx fails minerId pool ↔
      (receipt wallet job tx).Books fails (fun _ => s.now) minerId pool s.db := by
  constructor
  · rintro ⟨n, t, hrun, hbooked, -, -⟩
    rw [run_concat] at hrun
    obtain ⟨u, hu, hlast⟩ := Option.bind_eq_some_iff.mp hrun
    obtain ⟨hrunning, hstep⟩ := step_eq_some.mp hlast
    have hcalls := run_calls wallet fails hpc halive n
    cases hresult : (receipt wallet job tx).run fails (fun _ => s.now) s.db n with
    | mk outcome db =>
        rw [hresult] at hcalls
        cases outcome with
        | ok pc =>
            cases (show run (step wallet) s (calls fails n) = _ from hcalls).symm.trans hu
            cases stepProcessor_moves hstep with
            | dequeue job' tx' hbook =>
                cases hbook
                exact ⟨n, db, hresult, hbooked⟩
        | error p =>
            rw [(hcalls u hu).1] at hrunning
            cases hrunning
  · rintro ⟨n, db, hn, hbooked⟩
    have hcalls := run_calls wallet fails hpc halive n
    rw [hn] at hcalls
    refine ⟨n, { s with queue := s.queue.erase job.minerPubkey, db := db, pc := .idle }, ?_,
      hbooked, rfl, fun m _ u hu => (run_calls wallet fails hpc halive m).queue_eq hu⟩
    rw [run_concat, show run (step wallet) s (calls fails n) = _ from hcalls]
    exact if_neg (by simp [booking, halive])

/-- For every pattern of finitely many failures, the claim is completed if and only if both
unwrapped calls succeed at once, the amount and the new balances stay within `BIGINT`, and
the signature is not yet among the transactions. -/
theorem completes_iff {reward : Reward} (hpc : s.pc = .book job tx .getMiner)
    (halive : s.aborted = false)
    (hminer : s.db.miners.lookup job.minerPubkey = some minerId)
    (hpool : s.db.pools.lookup wallet = some pool) (hrow : s.db.rewardsOf minerId = [reward])
    (hfinite : ∃ N, ∀ i ≥ N, fails i = false) :
    s.Completes wallet job tx fails minerId pool ↔
      (fails 0 = false ∧ fails 1 = false) ∧ job.item.amount < 2 ^ 63 ∧
      FitsBigint (reward.balance - job.item.amount) ∧
      FitsBigint (pool.claimedRewards + job.item.amount) ∧
      ∀ row ∈ s.db.transactions, row.2.signature ≠ tx.signature :=
  (completes_iff_books hpc halive).trans (Receipt.books_iff hminer hpool hrow hfinite)

/-- The first miner's claim for half of its balance has been confirmed. -/
def sampleJob : Job := ⟨.fill 32 1, ⟨.fill 32 3, 500_000_000⟩, 0⟩

def sampleTx : PayoutTx := ⟨7, 0, .fill 32 3, 500_000_000⟩

def sampleConfirmed : State := (State.start Receipt.sampleDb).booking sampleJob sampleTx .getMiner
  Receipt.sampleDb

/-- The debit and the update of the pool fail once each. -/
theorem completes_sample : sampleConfirmed.Completes (.fill 32 9) sampleJob sampleTx
    (fun i => i = 2 ∨ i = 4) 1000 ⟨1000, 0⟩ :=
  (completes_iff rfl rfl rfl rfl (show _ = [⟨1000, 1_000_000_000⟩] from rfl)
    ⟨5, fun i hi => by simp only [decide_eq_false_iff_not]; omega⟩).mpr
    (by simp [sampleConfirmed, booking, sampleJob, Receipt.sampleDb, FitsBigint])

/-- One failure of the first call, and the server is gone after the payout. -/
theorem not_completes : ¬ ∀ (wallet : Pubkey) (s : State) (job : Job) (tx : PayoutTx)
    (fails : Nat → Bool) (minerId : Int) (pool : Pool) (reward : Reward),
    s.pc = .book job tx .getMiner → s.aborted = false →
    s.db.miners.lookup job.minerPubkey = some minerId → s.db.pools.lookup wallet = some pool →
    s.db.rewardsOf minerId = [reward] → (∃ N, ∀ i ≥ N, fails i = false) →
    s.Completes wallet job tx fails minerId pool := by
  intro h
  have hcompletes := h (.fill 32 9) sampleConfirmed sampleJob sampleTx (fun i => i = 0) 1000
    ⟨1000, 0⟩ ⟨1000, 1_000_000_000⟩ rfl rfl rfl rfl rfl
    ⟨1, fun i hi => by simp only [decide_eq_false_iff_not]; omega⟩
  have hbooks := (completes_iff_books rfl rfl).mp hcompletes
  obtain ⟨hfirst, -⟩ := Receipt.first_of_books (show _ = some 1000 from rfl) hbooks
  cases hfirst

end Hashpoo.Claims.State
