import Hashpoo.Claims.Payee
import Hashpoo.Claims.Settlement
import Hashpoo.Mining.Backing

/-!
# The tables against the chain

Mining, claims and books are three subsystems that share two things. The proof account on the
chain is credited by mining and debited by payouts; the tables are credited by reports and
debited by bookings. A reward is on the chain before it is in the tables, and so is a payout,
so the tables may show more than the account holds only by the payouts that are unsettled.
-/

namespace Hashpoo

open Foundation

namespace Ledger

variable {origin : Ledger} {wallet : Pubkey}

/-! ## The account of the balances -/

/-- The debit that is to come. -/
def debitToCome (rc : Claims.Receipt) (pc : Claims.BookingPc) : Int :=
  if pc.Debited then 0 else -rc.amountI64

theorem debitToCome_congr {rc : Claims.Receipt} {pc pc' : Claims.BookingPc}
    (h : pc.Debited ↔ pc'.Debited) : debitToCome rc pc = debitToCome rc pc' := by
  simp only [debitToCome, h]

theorem balanceTotal_outcome {db db' : Database} {rc : Claims.Receipt}
    {pc pc' : Claims.BookingPc} (hunique : (db.rewards.map Reward.minerId).Nodup)
    (h : rc.Outcome db pc pc' db') :
    db'.balanceTotal + debitToCome rc pc' = db.balanceTotal + debitToCome rc pc := by
  cases h with
  | decrease minerId poolId hsingle =>
      have hbefore : debitToCome rc (.decrease minerId poolId) = -rc.amountI64 := if_neg id
      have hafter : debitToCome rc (.poolClaimed minerId poolId) = 0 := if_pos trivial
      rw [Database.balanceTotal_addToRewards, hsingle, hbefore, hafter]
      omega
  | decreaseRows minerId poolId hrows => rw [Database.addToRewards_of_rows hunique hrows]
  | stay => rfl
  | getMiner | getPool => exact congrArg _ (debitToCome_congr Iff.rfl)
  | poolClaimed | addTransaction | getTransactionId | addClaim =>
      exact congrArg _ (debitToCome_congr Iff.rfl)

/-- What the balances of all miners come to. -/
def owing (wallet : Pubkey) (hunique : (origin.db.rewards.map Reward.minerId).Nodup) :
    Account origin wallet Int where
  value ledger := ledger.db.balanceTotal
  earning _ := 0
  reward := origin.db.credited
  contribution _ := 0
  poolRewards _ := 0
  booking := debitToCome
  value_earnings _ batch := by simp
  value_rewards hsame hloop := by
    rw [Database.rewardsLoop_balanceTotal hloop, hsame.credited]
  value_contributions _ batch := by simp
  value_poolRewards _ _ := by simp
  value_outcome hsame _ houtcome :=
    balanceTotal_outcome (by rw [hsame.minerIds]; exact hunique) houtcome
  booking_booked _ := if_pos trivial

variable {cfg : MineConfig} {hunique : (origin.db.rewards.map Reward.minerId).Nodup}
  {msg : MessageInternalMineSuccess}

/-- Both accounts price the calls alike. -/
theorem owing_worth (call : Call) :
    (owing wallet hunique).worth call = (issuance wallet hunique).worth call := by
  cases call <;> rfl

theorem owing_mineSuccess_le (h : msg.Sound) :
    (owing wallet hunique).mineSuccess cfg msg ≤ msg.rewards := by
  have hworth : (owing wallet hunique).worth = (issuance wallet hunique).worth :=
    funext owing_worth
  have hsame : (owing wallet hunique).mineSuccess cfg msg =
      (issuance wallet hunique).mineSuccess cfg msg := by
    simp only [Account.mineSuccess, Account.message, Account.owed, hworth]
  rw [hsame]
  exact (mineSuccess_bounds h).2

theorem adds_owing {e : Event} (hsound : ∀ msg ∈ e.landed, msg.Sound)
    (hconfirmed : e.confirmed wallet = none) : (owing wallet hunique).Adds cfg e where
  landed msg hmsg call hcall := by
    rw [owing_worth]
    exact (mineSuccess_bounds (hsound msg hmsg)).1 call hcall
  confirmed rc hrc := by
    rw [hconfirmed] at hrc
    cases hrc

namespace State

variable {s t : State} {e : Event}

/-- The books with the tables as they are now. -/
def withDb (s : State) (db : Database) : State := { s with ledger := { s.ledger with db := db } }

/-- No booking begins of itself. -/
theorem claim_of_steps (h : s.claim = none) (hconfirmed : e.confirmed wallet = none)
    (hsteps : s.Steps cfg wallet e t) : t.claim = none := by
  cases hsteps with
  | confirm => cases hconfirmed
  | claim now fails rc pc pc' db hclaim => cases h.symm.trans hclaim
  | dequeue => rfl
  | _ => exact h

end State

/-- A change of the tables changes what they show, and nothing that is on its way. -/
theorem Account.total_withDb (acc : Account origin wallet Int) (s : State) (db : Database) :
    acc.total cfg (s.withDb db) - acc.value (s.withDb db).ledger =
      acc.total cfg s - acc.value s.ledger := by
  simp only [Account.total, State.withDb]
  omega

end Ledger

namespace Treasury

/-! ## The three subsystems together -/

/-- The claims and the books work on the same tables. -/
structure State where
  mining : Mining.State
  claims : Claims.State
  books : Ledger.State
  /-- The payouts on the chain that no balance shows. The program does not see this list. -/
  unsettled : List Claims.PayoutTx

inductive Event where
  | mining (e : Mining.Event)
  | claims (e : Claims.Event)
  | books (e : Ledger.Event)

namespace State

def start (proof : Proof) (origin : Ledger) : State where
  mining := .start proof
  claims := .start origin.db
  books := .start origin
  unsettled := []

/-- A step of the mining side. With a report the landed-tx task begins its calls. -/
def stepMining (cfg : Mining.Config) (mineConfig : MineConfig) (wallet : Pubkey) (s : State)
    (e : Mining.Event) : Option State :=
  match s.mining.step cfg e, s.mining.reports cfg e with
  | some mining, none => some { s with mining := mining }
  | some mining, some msg =>
      (s.books.step mineConfig wallet (.land msg)).map fun books =>
        { s with mining := mining, books := books }
  | none, _ => none

/-- A payout lands when the proof account covers it. -/
def stepPayout (cfg : Mining.Config) (wallet : Pubkey) (s : State) (tx : Claims.PayoutTx) :
    Option State :=
  match s.claims.step wallet (.land tx false), s.mining.step cfg (.claim tx.amount) with
  | some claims, some mining =>
      some { s with claims := claims, mining := mining, unsettled := tx :: s.unsettled }
  | _, _ => none

/-- Another step of the requests, the processor or the chain. -/
def stepClaims (wallet : Pubkey) (s : State) (e : Claims.Event) : Option State :=
  (s.claims.step wallet e).map fun claims =>
    { s with
      claims := claims
      books := s.books.withDb claims.db
      unsettled := Claims.settle s.unsettled (s.claims.pc.settles claims.pc) }

/-- The reports begin with the mining side, and the bookings belong to the claims. -/
def stepBooks (mineConfig : MineConfig) (wallet : Pubkey) (s : State) (e : Ledger.Event) :
    Option State :=
  if e.landed = none ∧ e.confirmed wallet = none then
    (s.books.step mineConfig wallet e).map fun books =>
      { s with books := books, claims := { s.claims with db := books.ledger.db } }
  else
    none

/-- Nothing moves after a panic. Claims of the proof account are payouts, and credits are
what the books write. -/
def step (cfg : Mining.Config) (mineConfig : MineConfig) (wallet : Pubkey) (s : State)
    (e : Event) : Option State :=
  if s.mining.aborted ∨ s.claims.aborted ∨ s.books.aborted then none
  else match e with
  | .mining (.claim _) => none
  | .mining e => s.stepMining cfg mineConfig wallet e
  | .claims (.credit _ _) => none
  | .claims (.land tx false) => s.stepPayout cfg wallet tx
  | .claims e => s.stepClaims wallet e
  | .books e => s.stepBooks mineConfig wallet e

/-- The steps, one constructor for each kind. -/
inductive Steps (cfg : Mining.Config) (mineConfig : MineConfig) (wallet : Pubkey) (s : State) :
    Event → State → Prop
  | mining (e : Mining.Event) (mining : Mining.State) : (∀ amount, e ≠ .claim amount) →
      s.mining.step cfg e = some mining → s.mining.reports cfg e = none →
      Steps cfg mineConfig wallet s (.mining e) { s with mining := mining }
  | report (e : Mining.Event) (mining : Mining.State) (msg : MessageInternalMineSuccess)
      (books : Ledger.State) : (∀ amount, e ≠ .claim amount) →
      s.mining.step cfg e = some mining → s.mining.reports cfg e = some msg →
      s.books.step mineConfig wallet (.land msg) = some books →
      Steps cfg mineConfig wallet s (.mining e) { s with mining := mining, books := books }
  | payout (tx : Claims.PayoutTx) (claims : Claims.State) (mining : Mining.State) :
      s.claims.step wallet (.land tx false) = some claims →
      s.mining.step cfg (.claim tx.amount) = some mining →
      Steps cfg mineConfig wallet s (.claims (.land tx false))
        { s with claims := claims, mining := mining, unsettled := tx :: s.unsettled }
  | claims (e : Claims.Event) (claims : Claims.State) :
      (∀ minerId amount, e ≠ .credit minerId amount) → (∀ tx, e ≠ .land tx false) →
      s.claims.step wallet e = some claims →
      Steps cfg mineConfig wallet s (.claims e)
        { s with
          claims := claims
          books := s.books.withDb claims.db
          unsettled := Claims.settle s.unsettled (s.claims.pc.settles claims.pc) }
  | books (e : Ledger.Event) (books : Ledger.State) : e.landed = none →
      e.confirmed wallet = none → s.books.step mineConfig wallet e = some books →
      Steps cfg mineConfig wallet s (.books e)
        { s with books := books, claims := { s.claims with db := books.ledger.db } }

variable {cfg : Mining.Config} {mineConfig : MineConfig} {wallet : Pubkey} {s t : State}
  {e : Event}

theorem steps_of_stepMining {e : Mining.Event} (hclaim : ∀ amount, e ≠ .claim amount)
    (h : s.stepMining cfg mineConfig wallet e = some t) :
    s.Steps cfg mineConfig wallet (.mining e) t := by
  simp only [stepMining] at h
  split at h
  · next mining hstep hreports =>
    cases h
    exact .mining e mining hclaim hstep hreports
  · next mining msg hstep hreports =>
    obtain ⟨books, hbooks, rfl⟩ := Option.map_eq_some_iff.mp h
    exact .report e mining msg books hclaim hstep hreports hbooks
  · cases h

theorem steps_of_stepPayout {tx : Claims.PayoutTx} (h : s.stepPayout cfg wallet tx = some t) :
    s.Steps cfg mineConfig wallet (.claims (.land tx false)) t := by
  simp only [stepPayout] at h
  split at h
  · next claims mining hclaims hmining =>
    cases h
    exact .payout tx claims mining hclaims hmining
  · cases h

theorem steps_of_stepClaims {e : Claims.Event}
    (hcredit : ∀ minerId amount, e ≠ .credit minerId amount)
    (hland : ∀ tx, e ≠ .land tx false) (h : s.stepClaims wallet e = some t) :
    s.Steps cfg mineConfig wallet (.claims e) t := by
  obtain ⟨claims, hstep, rfl⟩ := Option.map_eq_some_iff.mp h
  exact .claims e claims hcredit hland hstep

theorem steps_of_stepBooks {e : Ledger.Event} (h : s.stepBooks mineConfig wallet e = some t) :
    s.Steps cfg mineConfig wallet (.books e) t := by
  simp only [stepBooks, Option.ite_none_right_eq_some] at h
  obtain ⟨⟨hlanded, hconfirmed⟩, h⟩ := h
  obtain ⟨books, hstep, rfl⟩ := Option.map_eq_some_iff.mp h
  exact .books e books hlanded hconfirmed hstep

theorem step_steps (h : s.step cfg mineConfig wallet e = some t) :
    s.Steps cfg mineConfig wallet e t := by
  simp only [step, Option.ite_none_left_eq_some] at h
  obtain ⟨-, h⟩ := h
  cases e with
  | mining e =>
      cases e with
      | claim amount => cases h
      | _ => exact steps_of_stepMining (fun amount heq => by cases heq) h
  | claims e =>
      cases e with
      | credit minerId amount => cases h
      | land tx failed =>
          cases failed with
          | false => exact steps_of_stepPayout h
          | true =>
              exact steps_of_stepClaims (fun minerId amount heq => by cases heq)
                (fun tx heq => by cases heq) h
      | _ =>
          exact steps_of_stepClaims (fun minerId amount heq => by cases heq)
            (fun tx heq => by cases heq) h
  | books e => exact steps_of_stepBooks h

/-! ## What is known in every state -/

/-- A report is made from snapshots that fit its landing, and no claim asks for more than an
`i64` can hold. -/
def Regular (s : State) : Event → Prop
  | .mining e => s.mining.ReportsWithin e
  | .claims (.post _ _ amount) => amount < 2 ^ 63
  | _ => True

instance (s : State) (e : Event) : Decidable (s.Regular e) :=
  match e with
  | .mining e => inferInstanceAs (Decidable (s.mining.ReportsWithin e))
  | .claims (.post _ _ amount) => inferInstanceAs (Decidable (amount < 2 ^ 63))
  | .claims (.processor _) | .claims (.request _ _) | .claims (.land _ _) => .isTrue trivial
  | .claims (.advance _) | .claims (.credit _ _) | .claims (.tick _) => .isTrue trivial
  | .books _ => .isTrue trivial

/-- The amounts that an `i64` can hold. -/
abbrev Small : Claims.Order := fun _ _ amount => amount < 2 ^ 63

theorem asks_of_regular {e : Claims.Event} (h : s.Regular (.claims e)) : e.Asks Small := by
  cases e with
  | post minerPubkey receiverPubkey amount => exact h
  | _ => trivial

variable {origin : Ledger} {hunique : (origin.db.rewards.map Reward.minerId).Nodup}

/-- The invariants of the three subsystems, and what connects them. -/
structure Kept (cfg : Mining.Config) (mineConfig : MineConfig) (wallet : Pubkey)
    (hunique : (origin.db.rewards.map Reward.minerId).Nodup) (s : State) : Prop where
  tables : s.claims.db = s.books.ledger.db
  delivering : s.mining.submission.Delivering cfg s.mining.shared.chain
  backed : ∀ r ∈ s.mining.submission.submissions, r.Backed s.mining.shared.chain
  numbered : s.claims.Numbered
  paying : s.claims.Paying Small
  settling : s.claims.Settling s.unsettled
  posting : Ledger.Account.Posting origin wallet s.books
  pending : (Ledger.owing wallet hunique).Pending mineConfig s.books
  unclaimed : s.books.claim = none

theorem kept_start (proof : Proof) :
    (start proof origin).Kept cfg mineConfig wallet hunique where
  tables := rfl
  delivering := Mining.State.delivering_start proof
  backed r hr := by cases hr
  numbered := Claims.State.numbered_start origin.db
  paying := Claims.State.paying_start origin.db
  settling := Claims.State.settling_start origin.db
  posting := Ledger.Account.posting_start
  pending := Ledger.Account.pending_start
  unclaimed := rfl

/-- The tasks of the claims do not depend on the tables. -/
theorem numbered_withDb {c : Claims.State} (h : c.Numbered) (db : Database) :
    ({ c with db := db } : Claims.State).Numbered := ⟨h.queue, h.job, h.tx, h.sent⟩

theorem paying_withDb {c : Claims.State} (h : c.Paying Small) (db : Database) :
    ({ c with db := db } : Claims.State).Paying Small :=
  ⟨h.requests, h.queue, h.job, h.amount, h.tx, h.sent⟩

/-- The message of a report is among those that have been sent. -/
theorem sound_of_reports {e : Mining.Event} {mining : Mining.State}
    {msg : MessageInternalMineSuccess}
    (hbacked : ∀ r ∈ mining.submission.submissions, r.Backed mining.shared.chain)
    (hstep : s.mining.step cfg e = some mining) (hreports : s.mining.reports cfg e = some msg) :
    msg.Sound := by
  have hsent : msg ∈ mining.reported := by
    rw [Mining.State.reported_step hstep, hreports]
    exact List.mem_cons_self
  obtain ⟨r, hr, hmsg⟩ := List.mem_flatMap.mp hsent
  exact (hbacked r hr msg hmsg).1

theorem books_of_land {books books' : Ledger.State} {msg : MessageInternalMineSuccess}
    (h : books.step mineConfig wallet (.land msg) = some books') :
    books'.ledger = books.ledger ∧ books'.claim = books.claim := by
  cases Ledger.State.step_steps h with
  | land => exact ⟨rfl, rfl⟩
  | abort e hlanded => cases hlanded

/-- Requests, processor and chain leave the owners of the rows alone. -/
theorem posting_withDb {claims : Claims.State} (htables : s.claims.db = s.books.ledger.db)
    (h : Ledger.Account.Posting origin wallet s.books)
    (hdb : (claims.db = s.claims.db ∧ s.claims.pc.settles claims.pc = none) ∨
      ∃ job tx pc pc', s.claims.pc = .book job tx pc ∧ claims.pc = .book job tx pc' ∧
        (Claims.State.receipt wallet job tx).Outcome s.claims.db pc pc' claims.db) :
    Ledger.Account.Posting origin wallet (s.books.withDb claims.db) := by
  refine ⟨?_, h.authority⟩
  obtain ⟨hsame, -⟩ | ⟨job, tx, pc, pc', -, -, houtcome⟩ := hdb
  · rw [hsame, htables]
    exact h.sameRows
  · rw [htables] at houtcome
    exact h.sameRows.outcome houtcome

theorem Kept.step (h : s.Kept cfg mineConfig wallet hunique) (hok : s.Regular e)
    (hsteps : s.Steps cfg mineConfig wallet e t) : t.Kept cfg mineConfig wallet hunique := by
  cases hsteps with
  | mining e mining hclaim hstep hreports =>
      exact { h with
        delivering := Mining.State.step_delivering h.delivering hstep
        backed := Mining.State.step_backed h.delivering h.backed (fun _ _ => hok) hstep }
  | report e mining msg books hclaim hstep hreports hbooks =>
      have hbacked := Mining.State.step_backed h.delivering h.backed (fun _ _ => hok) hstep
      have hsound := sound_of_reports hbacked hstep hreports
      obtain ⟨hledger, hfree⟩ := books_of_land hbooks
      have hadds : (Ledger.owing wallet hunique).Adds mineConfig (.land msg) :=
        Ledger.adds_owing (fun m hm => by cases hm; exact hsound) rfl
      exact { h with
        tables := by rw [hledger]; exact h.tables
        delivering := Mining.State.step_delivering h.delivering hstep
        backed := hbacked
        posting := h.posting.step (Ledger.State.step_steps hbooks)
        pending := h.pending.step hadds (Ledger.State.step_steps hbooks)
        unclaimed := hfree.trans h.unclaimed }
  | payout tx claims mining hclaims hmining =>
      obtain ⟨hsettling, hdb⟩ := h.settling.payout hclaims
      have hasks : Claims.Event.Asks Small (.land tx false) := trivial
      exact { h with
        tables := hdb.trans h.tables
        delivering := Mining.State.step_delivering h.delivering hmining
        backed := Mining.State.step_backed h.delivering h.backed (fun _ heq => by cases heq)
          hmining
        numbered := h.numbered.step (Claims.State.step_steps hclaims)
        paying := h.paying.step h.numbered hasks hclaims
        settling := hsettling }
  | claims e claims hcredit hland hclaims =>
      have hsteps := Claims.State.step_steps hclaims
      exact { h with
        tables := rfl
        numbered := h.numbered.step hsteps
        paying := h.paying.step h.numbered (asks_of_regular hok) hclaims
        settling := h.settling.step hland hsteps
        posting := posting_withDb h.tables h.posting (hsteps.tables hcredit)
        pending := ⟨h.pending.landed, h.pending.messages, h.pending.success, h.pending.claim⟩ }
  | books e books hlanded hconfirmed hbooks =>
      have hsteps := Ledger.State.step_steps hbooks
      have hadds : (Ledger.owing wallet hunique).Adds mineConfig e :=
        Ledger.adds_owing (fun msg hmsg => by rw [hlanded] at hmsg; cases hmsg) hconfirmed
      exact { h with
        tables := rfl
        numbered := numbered_withDb h.numbered _
        paying := paying_withDb h.paying _
        settling := h.settling.withDb _
        posting := h.posting.step hsteps
        pending := h.pending.step hadds hsteps
        unclaimed := Ledger.State.claim_of_steps h.unclaimed hconfirmed hsteps }

/-! ## The accounts against the chain -/

/-- What has been paid out and no balance shows. -/
def outstanding (s : State) : Nat := (s.unsettled.map Claims.PayoutTx.amount).sum

/-- What the tables and the work on its way show beyond the account on the chain and the
unsettled payouts. A reward counts from its report on, with the credits that it leads to. -/
def excess (mineConfig : MineConfig) (acc : Ledger.Account origin wallet Int) (s : State) : Int :=
  acc.total mineConfig s.books + s.mining.shared.chain.mined -
    (s.mining.shared.chain.current.balance + s.outstanding +
      (s.mining.reported.map (acc.mineSuccess mineConfig)).sum)

/-- A payout takes no more than what the miner has asked for. -/
theorem amount_le_of_pays {item : ClaimsQueueItem} {amount : Nat} (h : Claims.Pays item amount) :
    amount ≤ item.amount := by
  obtain h | h := h <;> omega

/-- The booking takes the payout off the list, and at least its amount from the balances. -/
theorem booking_excess {job : Claims.Job} {tx : Claims.PayoutTx} {pc pc' : Claims.BookingPc}
    {claims : Claims.State} (h : s.Kept cfg mineConfig wallet hunique)
    (hpc : s.claims.pc = .book job tx pc) (hpc' : claims.pc = .book job tx pc')
    (houtcome : (Claims.State.receipt wallet job tx).Outcome s.claims.db pc pc' claims.db) :
    claims.db.balanceTotal + s.outstanding ≤ s.books.ledger.db.balanceTotal +
      ((Claims.settle s.unsettled (s.claims.pc.settles claims.pc)).map
        Claims.PayoutTx.amount).sum := by
  rw [h.tables] at houtcome
  have hnodup : (s.books.ledger.db.rewards.map Reward.minerId).Nodup := by
    rw [h.posting.sameRows.minerIds]
    exact hunique
  have htotal := Ledger.balanceTotal_outcome hnodup houtcome
  by_cases hsettles : ¬ pc.Debited ∧ pc'.Debited
  · have hsettled : s.claims.pc.settles claims.pc = some tx := by
      rw [hpc, hpc']
      exact if_pos hsettles
    have hmem : tx ∈ s.unsettled := by
      refine h.settling.kept tx ?_ (h.settling.confirmed job tx pc hpc)
      rw [hpc]
      exact if_neg hsettles.1
    have hjob : s.claims.pc.job = some job := by rw [hpc]; rfl
    have hamount : (Claims.State.receipt wallet job tx).amountI64 = job.item.amount :=
      Word.signed_of_nat_lt (w := 63) (h.paying.job job hjob).asked
    have hpays := amount_le_of_pays (h.paying.tx job hjob tx (by rw [hpc]; rfl)).2
    have hbefore : Ledger.debitToCome (Claims.State.receipt wallet job tx) pc =
        -(job.item.amount : Int) := by
      rw [Ledger.debitToCome, if_neg hsettles.1, hamount]
    have hafter : Ledger.debitToCome (Claims.State.receipt wallet job tx) pc' = 0 :=
      if_pos hsettles.2
    have hsum := List.sum_map_erase Claims.PayoutTx.amount hmem
    rw [hsettled, Claims.settle, outstanding]
    omega
  · have hsettled : s.claims.pc.settles claims.pc = none := by
      rw [hpc, hpc']
      exact if_neg hsettles
    have hdebited : pc.Debited ↔ pc'.Debited :=
      ⟨houtcome.debited, fun hafter => by_contra fun hbefore => hsettles ⟨hbefore, hafter⟩⟩
    have hsame : Ledger.debitToCome (Claims.State.receipt wallet job tx) pc =
        Ledger.debitToCome (Claims.State.receipt wallet job tx) pc' :=
      Ledger.debitToCome_congr hdebited
    rw [hsettled, Claims.settle, outstanding]
    omega

/-- No step makes the tables gain on the chain. -/
theorem excess_step (h : s.Kept cfg mineConfig wallet hunique)
    (hsteps : s.Steps cfg mineConfig wallet e t) :
    t.excess mineConfig (Ledger.owing wallet hunique) ≤
      s.excess mineConfig (Ledger.owing wallet hunique) := by
  cases hsteps with
  | mining e mining hclaim hstep hreports =>
      have hchain := Mining.State.step_claimed hstep
      have hzero := Mining.Event.claimed_of_ne hclaim
      have hreported := Mining.State.reported_step hstep
      rw [hreports, Option.toList_none, List.nil_append] at hreported
      simp only [excess, outstanding, hreported]
      omega
  | report e mining msg books hclaim hstep hreports hbooks =>
      have hchain := Mining.State.step_claimed hstep
      have hzero := Mining.Event.claimed_of_ne hclaim
      have hreported := Mining.State.reported_step hstep
      have htotal : (Ledger.owing wallet hunique).total mineConfig books =
          (Ledger.owing wallet hunique).total mineConfig s.books +
            (Ledger.owing wallet hunique).gain mineConfig (.land msg) :=
        Ledger.Account.total_step h.posting (Ledger.State.step_steps hbooks)
      have hgain : (Ledger.owing wallet hunique).gain mineConfig (.land msg) =
          (Ledger.owing wallet hunique).mineSuccess mineConfig msg := add_zero _
      rw [hreports] at hreported
      simp only [excess, outstanding, hreported, Option.toList_some, List.singleton_append,
        List.map_cons, List.sum_cons]
      omega
  | payout tx claims mining hclaims hmining =>
      have hchain := Mining.State.step_claimed hmining
      have hreported := Mining.State.reported_step hmining
      have hreports : s.mining.reports cfg (.claim tx.amount) = none := rfl
      rw [hreports, Option.toList_none, List.nil_append] at hreported
      simp only [Mining.Event.claimed] at hchain
      simp only [excess, outstanding, hreported, List.map_cons, List.sum_cons]
      omega
  | claims e claims hcredit hland hclaims =>
      have htotal : (Ledger.owing wallet hunique).total mineConfig (s.books.withDb claims.db) -
          (Ledger.owing wallet hunique).value (s.books.withDb claims.db).ledger =
            (Ledger.owing wallet hunique).total mineConfig s.books -
              (Ledger.owing wallet hunique).value s.books.ledger :=
        Ledger.Account.total_withDb (Ledger.owing wallet hunique) s.books claims.db
      have hbooking : claims.db.balanceTotal + s.outstanding ≤ s.books.ledger.db.balanceTotal +
          ((Claims.settle s.unsettled (s.claims.pc.settles claims.pc)).map
            Claims.PayoutTx.amount).sum := by
        obtain ⟨hsame, hnone⟩ | ⟨job, tx, pc, pc', hpc, hpc', houtcome⟩ :=
          (Claims.State.step_steps hclaims).tables hcredit
        · rw [hsame, hnone, h.tables]
          exact le_rfl
        · exact booking_excess h hpc hpc' houtcome
      have hvalue : (Ledger.owing wallet hunique).value (s.books.withDb claims.db).ledger =
          claims.db.balanceTotal := rfl
      have hvalue' : (Ledger.owing wallet hunique).value s.books.ledger =
          s.books.ledger.db.balanceTotal := rfl
      simp only [excess, outstanding] at hbooking ⊢
      omega
  | books e books hlanded hconfirmed hbooks =>
      have htotal : (Ledger.owing wallet hunique).total mineConfig books =
          (Ledger.owing wallet hunique).total mineConfig s.books +
            (Ledger.owing wallet hunique).gain mineConfig e :=
        Ledger.Account.total_step h.posting (Ledger.State.step_steps hbooks)
      have hgain : (Ledger.owing wallet hunique).gain mineConfig e = 0 := by
        rw [Ledger.Account.gain, hlanded, hconfirmed]
        rfl
      simp only [excess, outstanding]
      omega

/-! ## Runs -/

/-- The tables show no more than the account on the chain holds and has unsettled, if they did
so at the start. -/
theorem Kept.covered (h : s.Kept cfg mineConfig wallet hunique) {proof : Proof}
    (hexcess : s.excess mineConfig (Ledger.owing wallet hunique) ≤
      origin.db.balanceTotal - proof.balance) :
    s.books.ledger.db.balanceTotal + proof.balance ≤
      s.mining.shared.chain.current.balance + s.outstanding + origin.db.balanceTotal := by
  have hpending := h.pending.value_le
  have hvalue : (Ledger.owing wallet hunique).value s.books.ledger =
      s.books.ledger.db.balanceTotal := rfl
  have hmined := Mining.State.reported_le_mined h.delivering h.backed
  have hcredits : (s.mining.reported.map
      ((Ledger.owing wallet hunique).mineSuccess mineConfig)).sum ≤
        (s.mining.reported.map MessageInternalMineSuccess.rewards).sum := by
    refine List.sum_le_sum fun msg hmsg => Ledger.owing_mineSuccess_le ?_
    obtain ⟨r, hr, hmsg⟩ := List.mem_flatMap.mp hmsg
    exact (h.backed r hr msg hmsg).1
  rw [excess] at hexcess
  omega

/-- In every state of every regular run of mining, claims and books, all balances together
have gained no more than the proof account on the chain, but for the payouts that have landed
and are not debited yet. Each of these is on the chain, and on the list once. -/
theorem covered_of_run (cfg : Mining.Config) (mineConfig : MineConfig) (wallet : Pubkey)
    (proof : Proof) (origin : Ledger) (events : List Event) (s : State)
    (hunique : (origin.db.rewards.map Reward.minerId).Nodup)
    (hrun : run (step cfg mineConfig wallet) (start proof origin) events = some s)
    (hregular : Meets (step cfg mineConfig wallet) Regular (start proof origin) events) :
    s.books.ledger.db.balanceTotal + proof.balance ≤
        s.mining.shared.chain.current.balance + s.outstanding + origin.db.balanceTotal ∧
      s.unsettled.Nodup ∧ ∀ tx ∈ s.unsettled, s.claims.chain.Paid tx := by
  have hstart : (start proof origin).excess mineConfig (Ledger.owing wallet hunique) ≤
      origin.db.balanceTotal - proof.balance := by
    have htotal : (Ledger.owing wallet hunique).total mineConfig (start proof origin).books =
        origin.db.balanceTotal := by
      simp [Ledger.Account.total, start, Ledger.State.start, Ledger.owing]
    have hmined : (start proof origin).mining.shared.chain.mined = 0 := rfl
    have hbalance : (start proof origin).mining.shared.chain.current.balance = proof.balance := rfl
    have houtstanding : (start proof origin).outstanding = 0 := rfl
    have hreported : (start proof origin).mining.reported = [] := rfl
    rw [excess, htotal, hmined, hbalance, houtstanding, hreported, List.map_nil, List.sum_nil]
    omega
  have hinv : s.Kept cfg mineConfig wallet hunique ∧
      s.excess mineConfig (Ledger.owing wallet hunique) ≤
        origin.db.balanceTotal - proof.balance := by
    refine invariant_of_meets (I := fun s => s.Kept cfg mineConfig wallet hunique ∧
      s.excess mineConfig (Ledger.owing wallet hunique) ≤
        origin.db.balanceTotal - proof.balance) ?_ ⟨kept_start proof, hstart⟩ hregular hrun
    intro s e t hs hok hstep
    exact ⟨hs.1.step hok (step_steps hstep), (excess_step hs.1 (step_steps hstep)).trans hs.2⟩
  exact ⟨hinv.1.covered hinv.2, hinv.1.settling.nodup, hinv.1.settling.paid⟩

/-- One miner, with a balance that the account on the chain just covers. -/
def sampleOrigin : Ledger where
  db := { Claims.Receipt.sampleDb with rewards := [⟨1000, 1_000_000_000⟩, ⟨1002, 0⟩] }
  totalRewards := ∅
  earnings := []
  contributions := []

/-- The miner submits a solution, which lands and is reported. -/
def mined : List Event :=
  List.map .mining (Mining.Scenario.join 0 (.fill 32 1) 1000 ++ Mining.Scenario.batch [0] ++
    Mining.Scenario.submit 0 Mining.Scenario.solution (.fill 32 1) ++ Mining.Scenario.send ++
    Mining.Scenario.land 500 ++ Mining.Scenario.report)

/-- The miner asks for 0.01 ORE, and the payout lands. -/
def paid : List Event :=
  List.map .claims ([Claims.Scenario.post] ++ Claims.Scenario.check 0 ++
    [Claims.Scenario.insert 0] ++ Claims.Scenario.pay ++
    [.land (Claims.Scenario.payoutTx 0 0) false])

/-- The credits are written while the payout is on its way. -/
def credited : List Event :=
  List.map .books ([.commission 0 .answered, .commission 0 .failed, .commission 0 .answered,
    .send 0, .receive] ++ List.replicate 4 (.success .answered))

/-- The payout has landed, the credits are written, and the debit is to come. -/
theorem covered_beforeDebit : ∃ s,
    run (step Mining.Scenario.config ⟨1000, 1002⟩ (.fill 32 9))
      (start Mining.Scenario.proof sampleOrigin) (mined ++ paid ++ credited) = some s ∧
    (s.books.ledger.db.balanceTotal = 1_000_000_500 ∧ s.outstanding = 1_000_000_000) ∧
    s.books.ledger.db.balanceTotal + Mining.Scenario.proof.balance ≤
        s.mining.shared.chain.current.balance + s.outstanding + sampleOrigin.db.balanceTotal ∧
      s.unsettled.Nodup ∧ ∀ tx ∈ s.unsettled, s.claims.chain.Paid tx := by
  obtain ⟨s, hrun, hshown⟩ := exists_run
    (step Mining.Scenario.config ⟨1000, 1002⟩ (.fill 32 9))
    (start Mining.Scenario.proof sampleOrigin) (mined ++ paid ++ credited)
    (fun s => s.books.ledger.db.balanceTotal = 1_000_000_500 ∧ s.outstanding = 1_000_000_000)
    (by decide +kernel)
  exact ⟨s, hrun, hshown, covered_of_run _ _ _ _ _ _ _ (by decide) hrun (by decide +kernel)⟩

end State

end Treasury

end Hashpoo
