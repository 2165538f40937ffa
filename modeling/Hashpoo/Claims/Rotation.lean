import Hashpoo.Claims.Handling
import Mathlib.Algebra.BigOperators.Group.Finset.Basic
import Mathlib.Algebra.BigOperators.Intervals
import Mathlib.Tactic.Common

/-!
# The claims in turn

Each round of `claim_processor` takes up the claim that comes first in the iteration over the
queue. Only a booked payment removes it. After any other end of its handling it comes first
again, as long as no arrival changes the order, so that its own payment decides whether the
claims behind it are ever taken up.

The calls that book a payment are answered here.
-/

namespace Hashpoo.Claims

open Foundation

/-! ## Payments in time -/

namespace Handling

/-- The handling ends with this result. -/
def EndsWith (now : Nat) (answers : Nat → RpcAnswer) (result : ClaimResult) : Prop :=
  Reaches step (start now) answers fun h => h.pc = .done result

/-- The node gives no blockhash, or accepts some send. -/
def Served (answers : Nat → RpcAnswer) : Prop :=
  (answers 0).blockhash = false ∨ ∃ n, (answers (1 + n)).sent = true

/-- The status is `Confirmed`, with an error or without. -/
def Decides (answer : RpcAnswer) : Prop := ∃ err, answer.status = some (.confirmed, err)

/-- Some poll that begins within 200 seconds is the first to be answered with `Confirmed`,
and there is no error. -/
def ConfirmsWithin (elapsed : Nat) (answers : Nat → RpcAnswer) : Prop :=
  ∃ n, (∀ i < n, ¬ Decides (answers i)) ∧ (answers n).status = some (.confirmed, false) ∧
    elapsed + ∑ i ∈ Finset.range n, ((answers i).took + 500) < 200_000

/-- The polls behind the send with the number `n`, the first one that is accepted, confirm the
transaction in time. -/
def SendConfirms (elapsed : Nat) (answers : Nat → RpcAnswer) : Prop :=
  ∃ n, (∀ i < n, (answers i).sent = false) ∧ (answers n).sent = true ∧
    ConfirmsWithin (elapsed + ∑ i ∈ Finset.range n, ((answers i).took + 2000) + (answers n).took)
      fun i => answers (n + 1 + i)

def PaidInTime (answers : Nat → RpcAnswer) : Prop :=
  (answers 0).blockhash = true ∧ SendConfirms 0 fun i => answers (1 + i)

variable {h : Handling} {answer : RpcAnswer} {answers : Nat → RpcAnswer} {now : Nat}
  {result : ClaimResult}

theorem exists_endsWith (h : Ends now answers) : ∃ result, EndsWith now answers result := by
  obtain ⟨n, result, hn⟩ := h
  exact ⟨result, n, hn⟩

theorem after_done (hpc : h.pc = .done result) (n : Nat) : after step h answers n = h := by
  induction n with
  | zero => rfl
  | succ n ih => rw [after_succ, ih, step, hpc]

/-- The end of a handling is the only one. -/
theorem reaches_done (hpc : h.pc = .done result) {result' : ClaimResult} :
    Reaches step h answers (fun h => h.pc = .done result') ↔ result = result' := by
  simp [Reaches, after_done hpc, hpc]

theorem not_expired_iff : ¬ h.Expired ↔ h.now - h.timer < 200_000 := by
  simp only [Expired]
  omega

theorem step_waits (hpc : h.pc = .poll) (hrunning : ¬ h.Expired) (hwaits : ¬ Decides answer) :
    h.step answer = { h with now := h.now + answer.took + 500 } := by
  simp only [step, hpc, hrunning, if_false]
  split
  · next err hstatus => exact absurd ⟨err, hstatus⟩ hwaits
  all_goals rfl

theorem step_decides (hpc : h.pc = .poll) (hrunning : ¬ h.Expired) {err : Bool}
    (hstatus : answer.status = some (.confirmed, err)) :
    (h.step answer).pc = .done (if err then .failed else .confirmed) := by
  simp only [step, hpc, hrunning, if_false, hstatus]

theorem confirmed_of_poll (hpc : h.pc = .poll) (htimer : h.timer ≤ h.now)
    (hconfirms : ConfirmsWithin (h.now - h.timer) answers) :
    Reaches step h answers fun h => h.pc = .done .confirmed := by
  obtain ⟨n, hbefore, hstatus, htime⟩ := hconfirms
  induction n generalizing h answers with
  | zero =>
      have hrunning : ¬ h.Expired := not_expired_iff.mpr (by simpa using htime)
      exact ⟨1, step_decides hpc hrunning hstatus⟩
  | succ n ih =>
      rw [Finset.sum_range_succ'] at htime
      have hrunning : ¬ h.Expired := not_expired_iff.mpr (by omega)
      have hstep := step_waits hpc hrunning (hbefore 0 n.succ_pos)
      rw [reaches_iff_step, hstep]
      refine .inr (ih hpc (by dsimp only; omega) (fun i hi => ?_) ?_ ?_)
      · rw [Nat.add_comm]
        exact hbefore (i + 1) (Nat.succ_lt_succ hi)
      · rwa [Nat.add_comm]
      · simp only [Nat.add_comm 1]
        omega

theorem confirmsWithin_of_poll (hpc : h.pc = .poll) (htimer : h.timer ≤ h.now) (n : Nat)
    (hdone : (after step h answers n).pc = .done .confirmed) :
    ConfirmsWithin (h.now - h.timer) answers := by
  induction n generalizing h answers with
  | zero =>
      rw [after, hpc] at hdone
      cases hdone
  | succ n ih =>
      rw [Nat.add_comm n 1, after_add] at hdone
      have hreaches : Reaches step (h.step (answers 0)) (fun i => answers (1 + i))
          (fun h => h.pc = .done .confirmed) := ⟨n, hdone⟩
      by_cases hexpired : h.Expired
      · have hend : (h.step (answers 0)).pc = .done .expired := by
          simp only [step, hpc, hexpired, if_true]
        cases (reaches_done hend).mp hreaches
      · have hrunning := not_expired_iff.mp hexpired
        by_cases hdecides : Decides (answers 0)
        · obtain ⟨err, hstatus⟩ := hdecides
          have hresult := (reaches_done (step_decides hpc hexpired hstatus)).mp hreaches
          cases err with
          | true => cases hresult
          | false =>
              exact ⟨0, fun i hi => absurd hi (Nat.not_lt_zero i), hstatus, by simpa using hrunning⟩
        · change (after step (h.step (answers 0)) _ n).pc = _ at hdone
          rw [step_waits hpc hexpired hdecides] at hdone
          have hlater : h.timer ≤ h.now + (answers 0).took + 500 := by omega
          obtain ⟨m, hbefore, hstatus, htime⟩ :=
            ih (h := { h with now := h.now + (answers 0).took + 500 }) hpc hlater hdone
          simp only [Nat.add_comm 1] at hbefore hstatus htime
          refine ⟨m + 1, fun i hi => ?_, hstatus, ?_⟩
          · cases i with
            | zero => exact hdecides
            | succ i => exact hbefore i (Nat.lt_of_succ_lt_succ hi)
          · rw [Finset.sum_range_succ']
            omega

/-- From the loop of the polls, a payment is a confirmation in time. -/
theorem confirmed_of_poll_iff (hpc : h.pc = .poll) (htimer : h.timer ≤ h.now) :
    Reaches step h answers (fun h => h.pc = .done .confirmed) ↔
      ConfirmsWithin (h.now - h.timer) answers :=
  ⟨fun ⟨n, hdone⟩ => confirmsWithin_of_poll hpc htimer n hdone, confirmed_of_poll hpc htimer⟩

/-- As long as the sends are rejected, the loop stays where it is. -/
theorem after_rejected (hpc : h.pc = .send) {n : Nat}
    (hrejected : ∀ i < n, (answers i).sent = false) : after step h answers n =
      { h with now := h.now + ∑ i ∈ Finset.range n, ((answers i).took + 2000) } := by
  induction n with
  | zero => rfl
  | succ n ih =>
      rw [after_succ, ih fun i hi => hrejected i (Nat.lt_succ_of_lt hi), Finset.sum_range_succ]
      simp only [step, hpc, hrejected n n.lt_succ_self, Bool.false_eq_true, if_false]
      simp only [Nat.add_assoc]

/-- The first accepted send leads to the polls. -/
theorem after_accepted (hpc : h.pc = .send) {n : Nat}
    (hrejected : ∀ i < n, (answers i).sent = false) (hsent : (answers n).sent = true) :
    after step h answers (n + 1) = { h with
      pc := .poll
      now := h.now + ∑ i ∈ Finset.range n, ((answers i).took + 2000) + (answers n).took } := by
  rw [after_succ, after_rejected hpc hrejected]
  simp only [step, hpc, hsent, if_true]

theorem confirmed_of_send_iff (hpc : h.pc = .send) (htimer : h.timer ≤ h.now) :
    Reaches step h answers (fun h => h.pc = .done .confirmed) ↔
      SendConfirms (h.now - h.timer) answers := by
  have hpending : ∀ h : Handling, h.pc = .send → ¬ h.pc = .done .confirmed := by
    intro h hpc
    simp [hpc]
  have hstays : ∀ (h : Handling) (answer : RpcAnswer), h.pc = .send → answer.sent = false →
      (h.step answer).pc = .send := by
    intro h answer hpc hrejected
    simp [step, hpc, hrejected]
  refine (reaches_iff_exit (fun h => h.pc = .send) (fun answer => answer.sent = false) hpending
    hstays hpc).trans (exists_congr fun n => and_congr_right fun hrejected => ?_)
  rw [Bool.not_eq_false]
  refine and_congr_right fun hsent => ?_
  rw [after_accepted hpc hrejected hsent, confirmed_of_poll_iff rfl (by dsimp only; omega)]
  refine iff_of_eq (congrArg₂ ConfirmsWithin ?_ rfl)
  dsimp only
  omega

/-- The claim is paid exactly when the node confirms its transaction in time. -/
theorem endsWith_confirmed_iff : EndsWith now answers .confirmed ↔ PaidInTime answers := by
  rw [EndsWith, reaches_iff_step, PaidInTime]
  cases hhash : (answers 0).blockhash with
  | false =>
      have hend : ((start now).step (answers 0)).pc = .done .noBlockhash := by
        simp [step, start, hhash]
      rw [reaches_done hend]
      simp [start]
  | true =>
      have hsend : (start now).step (answers 0) =
          ⟨.send, now + (answers 0).took, now + (answers 0).took⟩ := by
        simp [step, start, hhash]
      rw [hsend, confirmed_of_send_iff rfl le_rfl]
      simp [start]

theorem ne_confirmed (hunpaid : ¬ PaidInTime answers) (hends : EndsWith now answers result) :
    result ≠ .confirmed := by
  rintro rfl
  exact hunpaid (endsWith_confirmed_iff.mp hends)

end Handling

/-! ## The rounds -/

/-- The queue, in the order of the iteration. Every insertion has a number of its own. -/
structure Waiting where
  claims : List Nat
  next : Nat
  old : ∀ claim ∈ claims, claim < next
  nodup : claims.Nodup

/-- What the environment contributes to a round. -/
structure Round where
  answers : Nat → RpcAnswer
  /-- The number of claims that are inserted until the next round. -/
  arrived : Nat
  /-- The order of the iteration with them. -/
  order : List Nat → List Nat
  perm : ∀ claims, (order claims).Perm claims

namespace Waiting

variable {q : Waiting} {claim : Nat}

/-- A queue without insertions keeps its order. -/
def arrive (q : Waiting) (round : Round) : Waiting where
  claims :=
    if round.arrived = 0 then q.claims
    else round.order (q.claims ++ List.range' q.next round.arrived)
  next := q.next + round.arrived
  old claim h := by
    split at h
    · exact Nat.lt_add_right _ (q.old claim h)
    · obtain hold | hnew := List.mem_append.mp ((round.perm _).mem_iff.mp h)
      · exact Nat.lt_add_right _ (q.old claim hold)
      · exact (List.mem_range'_1.mp hnew).2
  nodup := by
    split
    · exact q.nodup
    · refine (round.perm _).nodup_iff.mpr (q.nodup.append List.nodup_range' ?_)
      intro claim hold hnew
      exact absurd (q.old claim hold) (Nat.not_lt.mpr (List.mem_range'_1.mp hnew).1)

/-- `writer.remove(&miner_pubkey)`. -/
def remove (q : Waiting) (claim : Nat) : Waiting where
  claims := q.claims.filter (· ≠ claim)
  next := q.next
  old claim h := q.old claim (List.mem_filter.mp h).1
  nodup := q.nodup.filter _

/-- Every other result is logged, and the claim stays. -/
def finish (q : Waiting) (claim : Nat) : ClaimResult → Waiting
  | .confirmed => q.remove claim
  | .failed | .expired | .noBlockhash => q

/-- The queue after the arrivals of the first rounds, when no claim leaves it. -/
def arrivals (q : Waiting) (rounds : Nat → Round) : Nat → Waiting
  | 0 => q
  | k + 1 => (q.arrivals rounds k).arrive (rounds k)

end Waiting

/-- A round begins, at this time and with this queue. -/
inductive Begins (rounds : Nat → Round) (now : Nat) (q : Waiting) : Nat → Nat → Waiting → Prop
  | first : Begins rounds now q 0 now q
  | idle (k now' : Nat) (q' : Waiting) : Begins rounds now q k now' q' → q'.claims = [] →
      Begins rounds now q (k + 1) (now' + 10_000) (q'.arrive (rounds k))
  | handled (k now' : Nat) (q' : Waiting) (claim n : Nat) (result : ClaimResult) :
      Begins rounds now q k now' q' → q'.claims.head? = some claim →
      (after Handling.step (.start now') (rounds k).answers n).pc = .done result →
      Begins rounds now q (k + 1)
        ((after Handling.step (.start now') (rounds k).answers n).now + 10_000)
        ((q'.finish claim result).arrive (rounds k))

/-- The handling of the claim that comes first ends, and if other claims wait, one of them is
taken up in a later round. -/
def Releases (rounds : Nat → Round) (now : Nat) (q : Waiting) : Prop :=
  ∀ claim others, q.claims = claim :: others →
    Handling.Ends now (rounds 0).answers ∧
      (others ≠ [] → ∃ k now' q' other, Begins rounds now q k now' q' ∧
        q'.claims.head? = some other ∧ other ≠ claim)

/-- In this round the claim is paid, or the arrivals have brought another one to the front. -/
def MakesWay (rounds : Nat → Round) (q : Waiting) (claim k : Nat) : Prop :=
  Handling.PaidInTime (rounds k).answers ∨
    (q.arrivals rounds (k + 1)).claims.head? ≠ some claim

namespace Waiting

variable {q : Waiting} {round : Round} {rounds : Nat → Round} {claim other : Nat}

/-- Nothing leaves the queue on an arrival, and what is new has a new number. -/
theorem mem_arrive : other ∈ (q.arrive round).claims ↔
    other ∈ q.claims ∨ q.next ≤ other ∧ other < q.next + round.arrived := by
  rw [arrive]
  dsimp only
  split
  · next hnone =>
    rw [hnone]
    exact ⟨.inl, fun h => h.resolve_right (by omega)⟩
  · rw [(round.perm _).mem_iff, List.mem_append, List.mem_range'_1]

theorem mem_arrivals (h : other ∈ q.claims) (k : Nat) : other ∈ (q.arrivals rounds k).claims := by
  induction k with
  | zero => exact h
  | succ k ih => exact mem_arrive.mpr (.inl ih)

theorem arrivals_of_quiet (h : ∀ k, (rounds k).arrived = 0) (k : Nat) :
    (q.arrivals rounds k).claims = q.claims := by
  induction k with
  | zero => rfl
  | succ k ih => exact (if_pos (h k)).trans ih

/-- A claim that has been paid does not come back. -/
theorem not_mem_arrive_remove (h : claim < q.next) :
    claim ∉ ((q.remove claim).arrive round).claims := by
  intro hmem
  obtain hold | hnew := mem_arrive.mp hmem
  · simpa using (List.mem_filter.mp hold).2
  · exact absurd h (Nat.not_lt.mpr hnew.1)

theorem finish_of_ne {result : ClaimResult} (h : result ≠ .confirmed) :
    q.finish claim result = q := by
  cases result with
  | confirmed => exact absurd rfl h
  | failed | expired | noBlockhash => rfl

/-- Another claim waits, and it comes first unless this one does. -/
theorem exists_front (hmem : other ∈ q.claims) (hfront : q.claims.head? ≠ some claim) :
    ∃ front, q.claims.head? = some front ∧ front ≠ claim := by
  cases hclaims : q.claims with
  | nil =>
      rw [hclaims] at hmem
      cases hmem
  | cons front rest =>
      rw [hclaims] at hfront
      exact ⟨front, rfl, fun hsame => hfront (congrArg some hsame)⟩

end Waiting

section Rounds

variable {rounds : Nat → Round} {now k n : Nat} {q q' : Waiting} {claim other : Nat}

/-- A claim that is paid in its round is gone in the next one. -/
theorem Begins.paid {now' : Nat} (h : Begins rounds now q k now' q')
    (hfront : q'.claims.head? = some claim) (hpaid : Handling.PaidInTime (rounds k).answers) :
    ∃ now'', Begins rounds now q (k + 1) now'' ((q'.remove claim).arrive (rounds k)) := by
  obtain ⟨n, hdone⟩ : Handling.EndsWith now' (rounds k).answers .confirmed :=
    Handling.endsWith_confirmed_iff.mpr hpaid
  exact ⟨_, .handled k now' q' claim n .confirmed h hfront hdone⟩

/-- A claim that is served but not paid is still there. -/
theorem Begins.unpaid {now' : Nat} (h : Begins rounds now q k now' q')
    (hfront : q'.claims.head? = some claim) (hserved : Handling.Served (rounds k).answers)
    (hunpaid : ¬ Handling.PaidInTime (rounds k).answers) :
    ∃ now'', Begins rounds now q (k + 1) now'' (q'.arrive (rounds k)) := by
  obtain ⟨result, n, hdone⟩ :=
    Handling.exists_endsWith ((Handling.ends_iff now' _).mpr hserved)
  have hnext := Begins.handled k now' q' claim n result h hfront hdone
  rw [Waiting.finish_of_ne (Handling.ne_confirmed hunpaid ⟨n, hdone⟩)] at hnext
  exact ⟨_, hnext⟩

/-- Until something makes way for the others, the claim comes first in every round. -/
theorem begins_arrivals (hfront : q.claims.head? = some claim)
    (hserved : ∀ k < n, Handling.Served (rounds k).answers)
    (hstays : ∀ k < n, ¬ MakesWay rounds q claim k) :
    (∃ now', Begins rounds now q n now' (q.arrivals rounds n)) ∧
      (q.arrivals rounds n).claims.head? = some claim := by
  induction n with
  | zero => exact ⟨⟨now, .first⟩, hfront⟩
  | succ n ih =>
      obtain ⟨⟨now', hbegins⟩, hfirst⟩ := ih (fun k hk => hserved k (Nat.lt_succ_of_lt hk))
        fun k hk => hstays k (Nat.lt_succ_of_lt hk)
      obtain ⟨hunpaid, hfirst'⟩ := not_or.mp (hstays n n.lt_succ_self)
      exact ⟨hbegins.unpaid hfirst (hserved n n.lt_succ_self) hunpaid, not_not.mp hfirst'⟩

/-- The first round that makes way is followed by one for another claim. -/
theorem exists_begins_of_first (hfront : q.claims.head? = some claim)
    (hserved : ∀ k ≤ n, Handling.Served (rounds k).answers)
    (hstays : ∀ k < n, ¬ MakesWay rounds q claim k) (hway : MakesWay rounds q claim n)
    (hother : other ∈ q.claims) (hne : other ≠ claim) :
    ∃ k now' q' front, Begins rounds now q k now' q' ∧ q'.claims.head? = some front ∧
      front ≠ claim := by
  obtain ⟨⟨now', hbegins⟩, hfirst⟩ :
      (∃ now', Begins rounds now q n now' (q.arrivals rounds n)) ∧ _ :=
    begins_arrivals hfront (fun k hk => hserved k hk.le) hstays
  have hmem : other ∈ (q.arrivals rounds n).claims := Waiting.mem_arrivals hother n
  by_cases hpaid : Handling.PaidInTime (rounds n).answers
  · obtain ⟨now'', hnext⟩ := hbegins.paid hfirst hpaid
    have hold : claim < (q.arrivals rounds n).next :=
      (q.arrivals rounds n).old claim (List.mem_of_mem_head? hfirst)
    have hkept : other ∈ (((q.arrivals rounds n).remove claim).arrive (rounds n)).claims :=
      Waiting.mem_arrive.mpr (.inl (List.mem_filter.mpr ⟨hmem, by simpa using hne⟩))
    obtain ⟨front, hhead, hother'⟩ := Waiting.exists_front hkept fun hhead =>
      Waiting.not_mem_arrive_remove hold (List.mem_of_mem_head? hhead)
    exact ⟨n + 1, now'', _, front, hnext, hhead, hother'⟩
  · obtain ⟨now'', hnext⟩ := hbegins.unpaid hfirst (hserved n le_rfl) hpaid
    have hkept : other ∈ (q.arrivals rounds (n + 1)).claims :=
      Waiting.mem_arrive.mpr (.inl hmem)
    obtain ⟨front, hhead, hother'⟩ := Waiting.exists_front hkept (hway.resolve_left hpaid)
    exact ⟨n + 1, now'', _, front, hnext, hhead, hother'⟩

/-- A claim that makes way is followed by another one. -/
theorem exists_begins_of_makesWay (hfront : q.claims.head? = some claim)
    (hserved : ∀ k ≤ n, Handling.Served (rounds k).answers) (hway : MakesWay rounds q claim n)
    (hother : other ∈ q.claims) (hne : other ≠ claim) :
    ∃ k now' q' front, Begins rounds now q k now' q' ∧ q'.claims.head? = some front ∧
      front ≠ claim := by
  induction n using Nat.strongRecOn with
  | ind n ih =>
      by_cases hearlier : ∃ m < n, MakesWay rounds q claim m
      · obtain ⟨m, hm, hway'⟩ := hearlier
        exact ih m hm (fun k hk => hserved k (hk.trans hm.le)) hway'
      · exact exists_begins_of_first hfront hserved (fun k hk hway' => hearlier ⟨k, hk, hway'⟩)
          hway hother hne

/-- In every round that begins the claim still comes first, unless an earlier one has made
way for the others. -/
theorem makesWay_of_begins {now' : Nat} (hfront : q.claims.head? = some claim)
    (h : Begins rounds now q k now' q') :
    (∃ n < k, (∀ j ≤ n, Handling.Served (rounds j).answers) ∧ MakesWay rounds q claim n) ∨
      (∀ j < k, Handling.Served (rounds j).answers) ∧ q' = q.arrivals rounds k ∧
        q'.claims.head? = some claim := by
  induction h with
  | first => exact .inr ⟨nofun, rfl, hfront⟩
  | idle k now' q' _ hempty ih =>
      obtain ⟨n, hn, hway⟩ | ⟨-, -, hfirst⟩ := ih
      · exact .inl ⟨n, Nat.lt_succ_of_lt hn, hway⟩
      · rw [hempty] at hfirst
        cases hfirst
  | handled k now' q' claim' n result _ hclaim hdone ih =>
      obtain ⟨m, hm, hway⟩ | ⟨hserved, rfl, hfirst⟩ := ih
      · exact .inl ⟨m, Nat.lt_succ_of_lt hm, hway⟩
      cases hfirst.symm.trans hclaim
      have hserved' : ∀ j ≤ k, Handling.Served (rounds j).answers := fun j hj => by
        obtain hlt | rfl := Nat.lt_or_eq_of_le hj
        · exact hserved j hlt
        · exact (Handling.ends_iff now' _).mp ⟨n, result, hdone⟩
      by_cases hway : MakesWay rounds q claim k
      · exact .inl ⟨k, k.lt_succ_self, hserved', hway⟩
      obtain ⟨hunpaid, hstays⟩ := not_or.mp hway
      rw [Waiting.finish_of_ne (Handling.ne_confirmed hunpaid ⟨n, hdone⟩)]
      exact .inr ⟨fun j hj => hserved' j (Nat.lt_succ_iff.mp hj), rfl, not_not.mp hstays⟩

/-- The claim that comes first releases the processor exactly when its first handling is
served and, if others wait, all its handlings are up to a round that makes way for them. -/
theorem releases_iff (rounds : Nat → Round) (now : Nat) (q : Waiting) :
    Releases rounds now q ↔ ∀ claim others, q.claims = claim :: others →
      Handling.Served (rounds 0).answers ∧
        (others ≠ [] → ∃ n, (∀ k ≤ n, Handling.Served (rounds k).answers) ∧
          MakesWay rounds q claim n) := by
  refine forall_congr' fun claim => forall_congr' fun others => forall_congr' fun hclaims => ?_
  refine and_congr (Handling.ends_iff now _) (forall_congr' fun hothers => ⟨?_, ?_⟩)
  · rintro ⟨k, now', q', other, hbegins, hother, hne⟩
    obtain ⟨n, -, hway⟩ | ⟨-, -, hfirst⟩ := makesWay_of_begins (by rw [hclaims]; rfl) hbegins
    · exact ⟨n, hway⟩
    · exact absurd (Option.some.inj (hother.symm.trans hfirst)) hne
  · rintro ⟨n, hserved, hway⟩
    obtain ⟨other, hother⟩ := List.exists_mem_of_ne_nil others hothers
    have hnodup : claim ∉ others := (List.nodup_cons.mp (hclaims ▸ q.nodup)).1
    refine exists_begins_of_makesWay (by rw [hclaims]; rfl) hserved hway ?_
      (ne_of_mem_of_not_mem hother hnodup)
    rw [hclaims]
    exact List.mem_cons_of_mem _ hother

/-- Without arrivals a claim that is never paid in time keeps the others waiting, also where
each of its handlings ends. -/
theorem not_releases_of_unpaid {others : List Nat} (hclaims : q.claims = claim :: others)
    (hothers : others ≠ []) (hquiet : ∀ k, (rounds k).arrived = 0)
    (hunpaid : ∀ k, ¬ Handling.PaidInTime (rounds k).answers) : ¬ Releases rounds now q := by
  intro hreleases
  obtain ⟨n, -, hpaid | hmoved⟩ :=
    ((releases_iff rounds now q).mp hreleases claim others hclaims).2 hothers
  · exact hunpaid n hpaid
  · rw [Waiting.arrivals_of_quiet hquiet, hclaims] at hmoved
    exact hmoved rfl

end Rounds

/-! ## A transaction that is always rejected -/

namespace Scenario

/-- Two claims wait. -/
def twoClaims : Waiting := ⟨[0, 1], 2, by decide, by decide⟩

/-- The node is reachable, but every send is rejected. No claims arrive. -/
def rejecting : Round := ⟨fun _ => ⟨100, true, false, none⟩, 0, id, fun claims => .refl claims⟩

end Scenario

theorem not_releases_rejecting : ¬ ∀ lifetime rounds now q,
    (∀ k now' q', Begins rounds now q k now' q' →
      Handling.RejectsExpired lifetime now' (rounds k).answers) →
    Releases rounds now q := by
  intro h
  have hreleases := h 60_000 (fun _ => Scenario.rejecting) 0 Scenario.twoClaims
    fun _ _ _ _ _ _ _ => rfl
  obtain hhash | ⟨n, hsent⟩ := ((releases_iff _ _ _).mp hreleases 0 [1] rfl).1
  · cases hhash
  · cases hsent

end Hashpoo.Claims
