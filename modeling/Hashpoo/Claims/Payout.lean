import Hashpoo.Claims.System
import Mathlib.Data.Finset.Card

/-!
# One payout for a claim

A claim stays in the queue until its payout is booked, and each round of the processor
signs a new transaction for it. It is therefore paid once as long as the processor lets
go of a transaction only if that one has not paid, and will not pay later. The code sees
to neither: it takes a transaction for confirmed only in the one status `confirmed`, so
it waits out the timer on a payout that the polls first meet as finalized.
-/

namespace Hashpoo.Claims

open Foundation

/-! ## Transactions on the chain -/

namespace Chain

variable {c : Chain} {tx : PayoutTx}

/-- Transactions that have been sent land, each at most once. -/
structure Valid (c : Chain) : Prop where
  sent : ∀ l ∈ c.landed, l.tx ∈ c.sent
  once : (c.landed.map LandedTx.tx).Nodup

/-- The transactions that have paid for a claim. -/
def payouts (c : Chain) (claim : Nat) : List LandedTx :=
  c.landed.filter fun l => l.tx.claim = claim ∧ l.failed = false

theorem landed_of_find {l : LandedTx} (h : c.find tx = some l) : l ∈ c.landed ∧ l.tx = tx :=
  ⟨List.mem_of_find?_eq_some h, by simpa using List.find?_some h⟩

theorem not_landed_of_find (h : c.find tx = none) : ∀ l ∈ c.landed, l.tx ≠ tx := by
  simpa [find] using h

@[simp] theorem advance_txs (signature : Signature) :
    (c.advance signature).landed.map LandedTx.tx = c.landed.map LandedTx.tx := by
  simp only [advance, List.map_map]
  refine List.map_congr_left fun l _ => ?_
  show LandedTx.tx (if _ then _ else l) = l.tx
  split <;> rfl

@[simp] theorem advance_paid (signature : Signature) :
    (c.advance signature).Paid tx ↔ c.Paid tx := by
  simp only [Paid, advance, List.mem_map, exists_exists_and_eq_and]
  refine exists_congr fun l => and_congr_right fun _ => ?_
  split <;> rfl

namespace Valid

theorem eq_of_tx (hc : c.Valid) {l l' : LandedTx} (hl : l ∈ c.landed) (hl' : l' ∈ c.landed)
    (htx : l.tx = l'.tx) : l = l' :=
  List.inj_on_of_nodup_map hc.once hl hl' htx

/-- A transaction that has landed and failed never pays. -/
theorem not_paid (hc : c.Valid) {l : LandedTx} (hfind : c.find tx = some l)
    (hfailed : l.failed = true) : ¬ c.Paid tx := by
  rintro ⟨l', hl', htx, hpaid⟩
  obtain ⟨hl, hltx⟩ := landed_of_find hfind
  have heq := hc.eq_of_tx hl hl' (hltx.trans htx.symm)
  rw [← heq, hfailed] at hpaid
  cases hpaid

/-- If one transaction alone has paid for the claim, there is one payout. -/
theorem payouts_length_le_one (hc : c.Valid) {claim : Nat}
    (hunique : ∀ tx tx', c.Paid tx → c.Paid tx' → tx.claim = claim → tx'.claim = claim →
      tx = tx') : (c.payouts claim).length ≤ 1 := by
  have hnodup : (c.payouts claim).Nodup := hc.once.of_map.filter _
  rw [← List.toFinset_card_of_nodup hnodup, Finset.card_le_one]
  simp only [List.mem_toFinset, payouts, List.mem_filter, decide_eq_true_eq]
  rintro l ⟨hl, hclaim, hpaid⟩ l' ⟨hl', hclaim', hpaid'⟩
  exact hc.eq_of_tx hl hl' (hunique _ _ ⟨l, hl, rfl, hpaid⟩ ⟨l', hl', rfl, hpaid'⟩ hclaim hclaim')

theorem deliver (hc : c.Valid) (tx : PayoutTx) : Valid { c with sent := tx :: c.sent } where
  sent l hl := List.mem_cons_of_mem _ (hc.sent l hl)
  once := hc.once

theorem land (hc : c.Valid) {failed : Bool} (hsent : tx ∈ c.sent) (hfind : c.find tx = none) :
    Valid { c with landed := ⟨tx, .processed, failed⟩ :: c.landed } where
  sent l hl := by
    cases hl with
    | head => exact hsent
    | tail _ hl => exact hc.sent l hl
  once := by
    have hnew : tx ∉ c.landed.map LandedTx.tx := by
      simpa using not_landed_of_find hfind
    exact List.nodup_cons.mpr ⟨hnew, hc.once⟩

theorem advance (hc : c.Valid) (signature : Signature) : (c.advance signature).Valid where
  sent l hl := by
    have htx : l.tx ∈ c.landed.map LandedTx.tx := by
      rw [← advance_txs signature]
      exact List.mem_map_of_mem hl
    obtain ⟨l', hl', heq⟩ := List.mem_map.mp htx
    rw [← heq]
    exact hc.sent l' hl'
  once := by
    rw [advance_txs]
    exact hc.once

end Valid

end Chain

namespace State

variable {wallet : Pubkey} {s t : State} {e : Event} {input : ProcessorInput}

/-! ## Numbers of claims -/

/-- The numbers of the claims in the queue. -/
def waiting (s : State) : List Nat := (HashMap.values s.queue).map Queued.number

theorem mem_waiting {claim : Nat} :
    claim ∈ s.waiting ↔ ∃ pubkey q, s.queue.lookup pubkey = some q ∧ q.number = claim := by
  constructor
  · intro h
    obtain ⟨q, hq, hnumber⟩ := List.mem_map.mp h
    obtain ⟨pubkey, hlookup⟩ := HashMap.mem_values.mp hq
    exact ⟨pubkey, q, hlookup, hnumber⟩
  · rintro ⟨pubkey, q, hlookup, hnumber⟩
    exact List.mem_map.mpr ⟨q, HashMap.mem_values.mpr ⟨pubkey, hlookup⟩, hnumber⟩

/-- Every number belongs to the one miner that it was given to. -/
structure Numbered (s : State) : Prop where
  queue : ∀ pubkey q, s.queue.lookup pubkey = some q → s.claimants[q.number]? = some pubkey
  job : ∀ job ∈ s.pc.job, s.claimants[job.number]? = some job.minerPubkey
  tx : ∀ job ∈ s.pc.job, ∀ tx ∈ s.pc.tx, tx.claim = job.number
  sent : ∀ tx ∈ s.chain.sent, tx.claim < s.claimants.length

namespace Numbered

/-- The processor goes on with its job, or without one. -/
theorem goto (h : s.Numbered) {pc : ClaimPc} (hjob : ∀ job ∈ pc.job, job ∈ s.pc.job)
    (htx : ∀ tx ∈ pc.tx, tx ∈ s.pc.tx) : (s.goto pc).Numbered where
  queue := h.queue
  job job hmem := h.job job (hjob job hmem)
  tx job hmem tx htxMem := h.tx job (hjob job hmem) tx (htx tx htxMem)
  sent := h.sent

theorem deliver (h : s.Numbered) {job : Job} {tx : PayoutTx} (hjob : s.pc.job = some job)
    (htx : s.pc.tx = some tx) : (s.deliver tx).Numbered where
  queue := h.queue
  job := h.job
  tx := h.tx
  sent tx' hmem := by
    cases hmem with
    | head =>
        have hnumber := h.job job hjob
        rw [h.tx job hjob tx htx]
        exact (List.getElem?_eq_some_iff.mp hnumber).1
    | tail _ hmem => exact h.sent tx' hmem

theorem moves (h : s.Numbered) (hmoves : s.Moves wallet input t) : t.Numbered := by
  cases hmoves with
  | pick minerPubkey queued hpc hqueued =>
      refine ⟨h.queue, ?_, ?_, h.sent⟩
      · rintro job ⟨⟩
        exact h.queue minerPubkey queued hqueued
      · rintro job hjob tx ⟨⟩
  | checkAta job missing hpc => exact h.goto (by simp [hpc, ClaimPc.job]) (by simp [ClaimPc.tx])
  | noBlockhash => exact h.goto (by simp [ClaimPc.job]) (by simp [ClaimPc.tx])
  | sign job amount hpc =>
      refine ⟨h.queue, ?_, ?_, h.sent⟩
      · rintro job' ⟨⟩
        exact h.job job (by rw [hpc]; rfl)
      · rintro job' ⟨⟩ tx ⟨⟩
        rfl
  | notSent job tx timer hpc => exact h.deliver (by rw [hpc]; rfl) (by rw [hpc]; rfl)
  | sent job tx timer hpc =>
      have hsent : (s.deliver tx).Numbered := h.deliver (by rw [hpc]; rfl) (by rw [hpc]; rfl)
      refine hsent.goto ?_ ?_ <;> simp [State.deliver, hpc, ClaimPc.job, ClaimPc.tx]
  | expired => exact h.goto (by simp [ClaimPc.job]) (by simp [ClaimPc.tx])
  | waiting => exact h
  | failed => exact h.goto (by simp [ClaimPc.job]) (by simp [ClaimPc.tx])
  | confirmed job tx timer l hpc =>
      exact h.goto (by simp [hpc, ClaimPc.job]) (by simp [hpc, ClaimPc.tx])
  | call job tx pc pc' fails db hpc =>
      have hdb : ({ s with db := db } : State).Numbered := ⟨h.queue, h.job, h.tx, h.sent⟩
      exact hdb.goto (by simp [hpc, ClaimPc.job]) (by simp [hpc, ClaimPc.tx])
  | panic => exact ⟨h.queue, h.job, h.tx, h.sent⟩
  | dequeue job tx hpc =>
      refine ⟨fun pubkey q hq => h.queue pubkey q (HashMap.lookup_of_erase hq), ?_, ?_, h.sent⟩
      · rintro job' ⟨⟩
      · rintro job' ⟨⟩

/-- Older numbers keep their miners. -/
theorem insertClaim (h : s.Numbered) (k : Nat) (r : Request) : (s.insertClaim k r).Numbered := by
  have hold : ∀ {number : Nat} {pubkey : Pubkey}, s.claimants[number]? = some pubkey →
      (s.claimants ++ [r.minerPubkey])[number]? = some pubkey := by
    intro number pubkey hnumber
    rw [List.getElem?_append_left (List.getElem?_eq_some_iff.mp hnumber).1]
    exact hnumber
  refine ⟨?_, fun job hjob => hold (h.job job hjob), h.tx, fun tx htx => ?_⟩
  · intro pubkey q hq
    by_cases hkey : pubkey = r.minerPubkey
    · subst hkey
      simp only [State.insertClaim, AList.lookup_insert, Option.some.injEq] at hq
      subst hq
      simp [State.insertClaim]
    · simp only [State.insertClaim, AList.lookup_insert_ne hkey] at hq
      exact hold (h.queue pubkey q hq)
  · have hlt := h.sent tx htx
    simp only [State.insertClaim, List.length_append, List.length_singleton]
    omega

theorem step (h : s.Numbered) (hstep : s.Steps wallet e t) : t.Numbered := by
  cases hstep with
  | processor input t hmoves => exact h.moves hmoves
  | insert k r => exact h.insertClaim k r
  | requests | land | advance | credit | tick => exact ⟨h.queue, h.job, h.tx, h.sent⟩

end Numbered

theorem step_valid (h : s.chain.Valid) (hstep : s.Steps wallet e t) : t.chain.Valid := by
  cases hstep with
  | processor input t hmoves =>
      cases hmoves with
      | sign => exact ⟨h.sent, h.once⟩
      | notSent job tx | sent job tx => exact h.deliver tx
      | pick | checkAta | noBlockhash | expired | waiting | failed | confirmed => exact h
      | call | panic | dequeue => exact h
  | land tx failed hsent hfind => exact h.land hsent hfind
  | advance signature => exact h.advance signature
  | requests | insert | credit | tick => exact h

/-! ## At most one payout -/

/-- No claim in the queue has been paid more than once. -/
def PaysOnce (s : State) : Prop := ∀ claim ∈ s.waiting, (s.chain.payouts claim).length ≤ 1

/-- While a claim is in the queue, the time does not run out on a transaction that has paid
for it, and no transaction pays for it but the one the processor holds. -/
def PaidInTime (s : State) (e : Event) : Prop :=
  match e with
  | .processor _ => ∀ tx ∈ s.expiring, s.chain.Paid tx → tx.claim ∉ s.waiting
  | .land tx failed => failed = false → tx.claim ∈ s.waiting → s.pc.tx = some tx
  | _ => True

instance (s : State) (e : Event) : Decidable (s.PaidInTime e) :=
  match e with
  | .processor _ => inferInstanceAs (Decidable (∀ tx ∈ s.expiring, _))
  | .land _ _ => inferInstanceAs (Decidable (_ → _))
  | .post _ _ _ | .request _ _ | .advance _ | .credit _ _ | .tick _ => .isTrue trivial

/-- A claim in the queue has been paid by nothing but the transaction in hand. -/
def PaidInHand (s : State) : Prop :=
  ∀ tx, s.chain.Paid tx → tx.claim ∈ s.waiting → s.pc.tx = some tx

theorem moves_inHand (hvalid : s.chain.Valid) (hnumbered : s.Numbered) (h : s.PaidInHand)
    (hok : s.PaidInTime (.processor input)) (hmoves : s.Moves wallet input t) :
    t.PaidInHand := by
  have hnone : s.pc.tx = none → ∀ tx, s.chain.Paid tx → tx.claim ∉ s.waiting := by
    intro hpc tx hpaid hwaits
    have hheld := h tx hpaid hwaits
    rw [hpc] at hheld
    cases hheld
  cases hmoves with
  | pick minerPubkey queued hpc =>
      intro tx hpaid hwaits
      exact absurd hwaits (hnone (by rw [hpc]; rfl) tx hpaid)
  | checkAta job missing hpc =>
      intro tx hpaid hwaits
      exact absurd hwaits (hnone (by rw [hpc]; rfl) tx hpaid)
  | noBlockhash job amount hpc | sign job amount hpc =>
      intro tx hpaid hwaits
      exact absurd hwaits (hnone (by rw [hpc]; rfl) tx hpaid)
  | notSent | waiting | panic => exact h
  | sent job tx timer hpc | confirmed job tx timer l hpc | call job tx pc pc' fails db hpc =>
      intro tx' hpaid hwaits
      have hheld := h tx' hpaid hwaits
      rw [hpc] at hheld
      exact hheld
  | expired job tx timer answer hpc htimer =>
      intro tx' hpaid hwaits
      have hheld := h tx' hpaid hwaits
      rw [hpc] at hheld
      cases hheld
      exact absurd hwaits (hok tx (by simp [expiring, hpc, htimer]) hpaid)
  | failed job tx timer l hpc hfind hfailed =>
      intro tx' hpaid hwaits
      have hheld := h tx' hpaid hwaits
      rw [hpc] at hheld
      cases hheld
      exact absurd hpaid (hvalid.not_paid hfind hfailed)
  | dequeue job tx hpc =>
      intro tx' hpaid hwaits
      obtain ⟨pubkey, q, hq, hnumber⟩ := mem_waiting.mp hwaits
      have hbefore : s.queue.lookup pubkey = some q := HashMap.lookup_of_erase hq
      have hheld := h tx' hpaid (mem_waiting.mpr ⟨pubkey, q, hbefore, hnumber⟩)
      rw [hpc] at hheld
      cases hheld
      -- The claim of the booked transaction is the one that has just left the queue.
      have hjob : job ∈ s.pc.job := by rw [hpc]; rfl
      have howner := hnumbered.queue pubkey q hbefore
      rw [hnumber, hnumbered.tx job hjob tx (by rw [hpc]; rfl), hnumbered.job job hjob] at howner
      cases howner
      have hgone := AList.lookup_erase job.minerPubkey s.queue
      cases hgone.symm.trans hq

theorem step_inHand (hvalid : s.chain.Valid) (hnumbered : s.Numbered) (h : s.PaidInHand)
    (hok : s.PaidInTime e) (hstep : s.Steps wallet e t) : t.PaidInHand := by
  cases hstep with
  | processor input t hmoves => exact moves_inHand hvalid hnumbered h hok hmoves
  | insert k r =>
      intro tx hpaid hwaits
      obtain ⟨pubkey, q, hq, hnumber⟩ := mem_waiting.mp hwaits
      by_cases hkey : pubkey = r.minerPubkey
      · subst hkey
        simp only [insertClaim, AList.lookup_insert, Option.some.injEq] at hq
        -- The number is new, and a transaction that has paid was signed before.
        obtain ⟨l, hl, rfl, -⟩ := hpaid
        have hlt := hnumbered.sent l.tx (hvalid.sent l hl)
        rw [← hnumber, ← hq] at hlt
        exact absurd hlt (lt_irrefl _)
      · simp only [insertClaim, AList.lookup_insert_ne hkey] at hq
        exact h tx hpaid (mem_waiting.mpr ⟨pubkey, q, hq, hnumber⟩)
  | land tx failed =>
      rintro tx' ⟨l, hl, htx, hpaid⟩ hwaits
      cases hl with
      | head =>
          cases htx
          exact hok hpaid hwaits
      | tail _ hl => exact h tx' ⟨l, hl, htx, hpaid⟩ hwaits
  | advance signature =>
      intro tx hpaid
      exact h tx ((Chain.advance_paid signature).mp hpaid)
  | requests | credit | tick => exact h

/-- The invariant of the payouts. -/
structure Payable (s : State) : Prop where
  valid : s.chain.Valid
  numbered : s.Numbered
  inHand : s.PaidInHand

theorem payable_start (db : Database) : (State.start db).Payable where
  valid := ⟨by simp [start], by simp [start]⟩
  numbered := ⟨by simp [start], by simp [start, ClaimPc.job], by simp [start, ClaimPc.job],
    by simp [start]⟩
  inHand tx hpaid := by simp [start, Chain.Paid] at hpaid

theorem step_payable (h : s.Payable) (hok : s.PaidInTime e) (hstep : s.Steps wallet e t) :
    t.Payable where
  valid := step_valid h.valid hstep
  numbered := h.numbered.step hstep
  inHand := step_inHand h.valid h.numbered h.inHand hok hstep

/-- In every run in which the polls see each payout in time and no transaction that was
given up pays, a claim in the queue has been paid at most once. -/
theorem paysOnce_of_run {db : Database} {events : List Event}
    (h : run (State.step wallet) (.start db) events = some s)
    (hmeets : Meets (State.step wallet) PaidInTime (.start db) events) : s.PaysOnce := by
  have hinv : s.Payable := invariant_of_meets
    (fun _ _ _ hs hok hstep => step_payable hs hok (step_steps hstep)) (payable_start db) hmeets h
  intro claim hclaim
  refine hinv.valid.payouts_length_le_one ?_
  intro tx tx' hpaid hpaid' htx htx'
  have hheld := hinv.inHand tx hpaid (htx ▸ hclaim)
  exact Option.some.inj (hheld.symm.trans (hinv.inHand tx' hpaid' (htx' ▸ hclaim)))

/-- The first transaction never lands, and the second one is confirmed. -/
def secondTry : List Event :=
  Scenario.post :: Scenario.check 0 ++ [Scenario.insert 0] ++ Scenario.pay ++ Scenario.expire ++
    Scenario.pay ++ Scenario.confirm (Scenario.payoutTx 1 0)

theorem paysOnce_secondTry : ∃ s, run (State.step (.fill 32 9)) (.start Receipt.sampleDb)
    secondTry = some s ∧ (s.waiting = [0] ∧ (s.chain.payouts 0).length = 1) ∧ s.PaysOnce := by
  obtain ⟨s, hrun, hpaid⟩ := exists_run (State.step (.fill 32 9)) (.start Receipt.sampleDb)
    secondTry (fun s => s.waiting = [0] ∧ (s.chain.payouts 0).length = 1) (by decide)
  exact ⟨s, hrun, hpaid, paysOnce_of_run hrun (by decide)⟩

/-- Between two polls the transaction passes from processed to finalized. The polls wait
for `confirmed` until the time is over, and the next round pays the claim again. -/
def finalizedUnseen : List Event :=
  Scenario.post :: Scenario.check 0 ++ [Scenario.insert 0] ++ Scenario.pay ++
    [.land (Scenario.payoutTx 0 0) false, .processor (.status (some .processed)), .advance 0,
      .advance 0, .processor (.status (some .finalized))] ++ Scenario.expire ++ Scenario.pay ++
    Scenario.confirm (Scenario.payoutTx 1 0)

theorem not_paysOnce : ¬ ∀ wallet db events s,
    run (State.step wallet) (.start db) events = some s → s.PaysOnce := by
  intro h
  obtain ⟨s, hrun, hwaits, htwo⟩ := exists_run (State.step (.fill 32 9))
    (.start Receipt.sampleDb) finalizedUnseen
    (fun s => 0 ∈ s.waiting ∧ (s.chain.payouts 0).length = 2) (by decide)
  have hclaim := h _ _ _ _ hrun 0 hwaits
  rw [htwo] at hclaim
  exact absurd hclaim (by decide)

end State

end Hashpoo.Claims
