import Hashpoo.Ledger.Solvency
import Hashpoo.Mining.Conservation

/-!
# Rewards that have been mined

A report infers its reward from two snapshots of the proof account. Where the snapshots fit
the landing, the reported reward was mined, and since no two submissions share a landing, all
reports together claim no more than all landings have brought in.
-/

namespace Hashpoo.Mining

open Foundation

/-! ## One submission -/

/-- The messages of the submission claim no more than its landing has brought in. -/
def Submission.Backed (chain : Chain) (r : Submission) : Prop :=
  ∀ msg ∈ r.messages, msg.Sound ∧
    ∀ l ∈ chain.landings, r.confirmed = some l.tx → msg.rewards ≤ l.reward

theorem backed_of_fit {msg : MessageInternalMineSuccess} {r : Submission} {latest : Proof}
    {l : Landing} (hfit : SnapshotsFit r latest l) (hcomputed : msg.Computed)
    (hrewards : msg.rewards = poolRewards latest.balance r.oldProof.balance)
    (hcontributions : msg.contributions = r.contributions) :
    msg.Sound ∧ msg.rewards ≤ l.reward := by
  have hfive := hfit.rewards
  have hwithin := hfit.within
  rw [poolRewards_eq hfit.grown (by omega)] at hrewards
  refine ⟨⟨hcomputed, ?_, ?_, ?_⟩, ?_⟩
  · rw [hrewards]
    exact Int.natCast_nonneg _
  · rw [hrewards]
    omega
  · rw [hcontributions]
    exact hfit.hashpower
  · rw [hrewards]
    omega

namespace Submission

/-- The message that the step sends. -/
def reports (cfg : Config) (r : Submission) :
    Stage → SubmissionInput → Option MessageInternalMineSuccess
  | .report latest id, .proceed =>
      r.bestSolution.map fun bestSolution =>
        mineSuccess cfg.drillx r.oldProof latest bestSolution r.contributions id
  | _, _ => none

variable {cfg : Config} {sh : Shared} {chain : Chain} {r r' : Submission} {stage : Stage}
  {input : SubmissionInput} {next : Option Stage} {eff : Effect}

theorem step_messages (h : r.step cfg sh stage input = some (r', next, eff)) :
    r'.messages = (r.reports cfg stage input).toList ++ r.messages := by
  cases step_moves h with
  | report latest id bestSolution hbest =>
      cases input with
      | proceed =>
          rw [reports, hbest]
          rfl
      | _ => cases h
  | _ => rfl

theorem Moves.backed (hsound : r.Sound cfg sh.chain) (hat : r.At stage.phase)
    (hok : ∀ latest ∈ stage.reported, ∀ l ∈ sh.chain.landings, r.confirmed = some l.tx →
      SnapshotsFit r latest l)
    (hbacked : r.Backed sh.chain) (h : r.Moves cfg sh stage r' next eff) :
    r'.Backed sh.chain := by
  cases h with
  | confirmed i tx hlanded =>
      obtain ⟨-, -, hmessages⟩ := hat
      simp [Backed, hmessages]
  | report latest id bestSolution hbest =>
      obtain ⟨hconfirmed, hmessages, -⟩ := hat
      have hfit : ∀ l ∈ sh.chain.landings, r.confirmed = some l.tx →
          (mineSuccess cfg.drillx r.oldProof latest bestSolution r.contributions id).Sound ∧
            (mineSuccess cfg.drillx r.oldProof latest bestSolution r.contributions id).rewards ≤
              l.reward := fun l hl htx =>
        backed_of_fit (hok latest rfl l hl htx) (mineSuccess_computed ..)
          (mineSuccess_rewards ..) (mineSuccess_contributions ..)
      intro msg hmsg
      rw [report_messages, hmessages, List.mem_singleton] at hmsg
      subst hmsg
      obtain ⟨tx, htx, -, -, l, hl, rfl⟩ := hsound.confirmed hconfirmed
      exact ⟨(hfit l hl htx).1, fun l' hl' htx' => (hfit l' hl' htx').2⟩
  | _ => exact hbacked

/-- A submission reports at most the rewards of its own landings. -/
theorem Backed.messages_le (hsound : r.Sound cfg chain) (hbacked : r.Backed chain) :
    (r.messages.map MessageInternalMineSuccess.rewards).sum ≤
      ((((chain.landings.filter fun l => l.tx.submission = r.number).map
        Landing.reward).sum : Nat) : Int) := by
  cases hmessages : r.messages with
  | nil => exact Int.natCast_nonneg _
  | cons msg rest =>
      have hmsg : msg ∈ r.messages := by
        rw [hmessages]
        exact List.mem_cons_self
      have hrest : rest = [] := by
        have honce := hsound.atMostOne
        rw [hmessages, List.length_cons] at honce
        exact List.length_eq_zero_iff.mp (by omega)
      obtain ⟨tx, htx, hnumber, -, l, hl, rfl⟩ :=
        hsound.confirmed (hsound.carries msg hmsg).1
      have hown : l.reward ∈
          (chain.landings.filter fun l => l.tx.submission = r.number).map Landing.reward :=
        List.mem_map_of_mem (List.mem_filter.mpr ⟨hl, by simpa using hnumber⟩)
      have hle := (hbacked msg hmsg).2 l hl htx
      have hshare := List.single_le_sum (fun x _ => Nat.zero_le x) l.reward hown
      rw [hrest, List.map_cons, List.map_nil, List.sum_cons, List.sum_nil, add_zero]
      omega

end Submission

/-! ## Reports and landings -/

/-- All rewards that have been mined. -/
def Chain.mined (c : Chain) : Nat := (c.landings.map Landing.reward).sum

/-- What a step takes from the proof account. -/
def Event.claimed : Event → Nat
  | .claim amount => amount
  | _ => 0

theorem Event.claimed_of_ne {e : Event} (h : ∀ amount, e ≠ .claim amount) : e.claimed = 0 := by
  cases e with
  | claim amount => exact absurd rfl (h amount)
  | _ => rfl

namespace State

variable {cfg : Config} {s s' t : State} {e : Event} {eff : Effect}

/-- All messages that have been sent to `pool_mine_success_processor`. -/
def reported (s : State) : List MessageInternalMineSuccess :=
  s.submission.submissions.flatMap Submission.messages

/-- The message that the step sends. -/
def reports (cfg : Config) (s : State) : Event → Option MessageInternalMineSuccess
  | .submission input =>
      match s.submission.pc with
      | .submit r stage => r.reports cfg stage input
      | _ => none
  | _ => none

theorem reports_of_current_none (h : s.submission.pc.current = none) (e : Event) :
    s.reports cfg e = none := by
  cases e with
  | submission input =>
      cases hpc : s.submission.pc with
      | submit r stage =>
          rw [hpc] at h
          cases h
      | _ => simp only [reports, hpc]
  | _ => rfl

theorem messages_of_step {p : PoolSubmissionProcessor} {input : SubmissionInput}
    (h : s.submission.step cfg s.shared input = some (p, eff)) :
    p.submissions.flatMap Submission.messages =
      (s.reports cfg (.submission input)).toList ++ s.reported := by
  cases hpc : s.submission.pc with
  | submit r stage =>
      have hreports : s.reports cfg (.submission input) = r.reports cfg stage input := by
        simp only [reports, hpc]
      simp only [PoolSubmissionProcessor.step, hpc] at h
      split at h
      · next r' next eff' hmove =>
        cases h
        rw [PoolSubmissionProcessor.submissions_resume, List.flatMap_cons,
          Submission.step_messages hmove, hreports, reported,
          PoolSubmissionProcessor.submissions_of_submit hpc, List.flatMap_cons,
          List.append_assoc]
      · cases h
  | _ =>
      have hnone : s.submission.pc.current = none := by rw [hpc]; rfl
      rw [reports_of_current_none hnone, Option.toList_none, List.nil_append, reported,
        PoolSubmissionProcessor.submissions_of_current_none hnone]
      cases PoolSubmissionProcessor.step_moves h with
      | outer pc numWaiting hbefore hafter =>
          rw [PoolSubmissionProcessor.submissions_of_current_none hafter]
      | freeze oldProof bestSolution hfreeze => rfl
      | submit r r' stage next eff hsubmit => cases hpc.symm.trans hsubmit

/-- No other step sends a message. -/
theorem reported_step (h : s.step cfg e = some t) :
    t.reported = (s.reports cfg e).toList ++ s.reported := by
  obtain ⟨-, s', eff, hperform, rfl⟩ := step_eq_some.mp h
  change s'.reported = _
  by_cases hsubmission : ∃ input, e = .submission input
  · obtain ⟨input, rfl⟩ := hsubmission
    obtain ⟨⟨p, eff'⟩, hstep, heq⟩ := Option.map_eq_some_iff.mp hperform
    cases heq
    exact messages_of_step hstep
  · have hne : ∀ input, e ≠ .submission input := by simpa using hsubmission
    have hreports : s.reports cfg e = none := by
      cases e with
      | submission input => exact absurd rfl (hne input)
      | _ => rfl
    rw [hreports, reported, reported, (perform_frame hperform).submission hne]
    rfl

/-- The balance of the proof account is what was there, what has been mined and what has not
been claimed. -/
theorem step_claimed (h : s.step cfg e = some t) :
    t.shared.chain.current.balance + e.claimed + s.shared.chain.mined =
      s.shared.chain.current.balance + t.shared.chain.mined := by
  obtain ⟨-, s', eff, hperform, rfl⟩ := step_eq_some.mp h
  change (s.shared.apply eff).chain.current.balance + _ + _ =
    _ + (s.shared.apply eff).chain.mined
  by_cases hscope : eff.scope = .landings
  · obtain ⟨tx, reward, challenge, time, rfl, rfl⟩ | ⟨amount, rfl, rfl⟩ :=
      perform_landings hperform hscope
    · simp only [Shared.apply, Chain.land, Chain.update, Chain.mined, Event.claimed,
        List.map_cons, List.sum_cons]
      omega
    · simp only [perform] at hperform
      split at hperform
      · next hcovered =>
        simp only [Shared.apply, Chain.claim, Chain.update, Chain.mined, Event.claimed]
        omega
      · cases hperform
  · have hclaimed : e.claimed = 0 := by
      cases e with
      | claim amount =>
          simp only [perform] at hperform
          split at hperform
          · cases hperform
            exact absurd rfl hscope
          · cases hperform
      | _ => rfl
    rw [Chain.mined, Chain.mined, Shared.apply_landings hscope, (Shared.apply_account hscope).1,
      hclaimed, Nat.add_zero]

/-- A new landing belongs to no submission that is confirmed. -/
theorem mem_landings_of_confirmed {r : Submission} {l : Landing}
    (hsound : r.Sound cfg s.shared.chain) (h : s.perform cfg e = some (s', eff))
    (hl : l ∈ (s.shared.apply eff).chain.landings) (htx : r.confirmed = some l.tx) :
    l ∈ s.shared.chain.landings := by
  by_cases hscope : eff.scope = .landings
  · obtain ⟨tx, reward, challenge, time, rfl, rfl⟩ | ⟨amount, rfl, rfl⟩ :=
      perform_landings h hscope
    · simp only [perform] at h
      split at h
      · next hland =>
        cases hl with
        | head =>
            obtain ⟨tx', htx', -, -, hlanded⟩ := hsound.confirmed (by rw [htx]; rfl)
            cases htx'.symm.trans htx
            exact absurd hlanded hland.2.1
        | tail _ hl => exact hl
      · cases h
    · exact hl
  · rwa [Shared.apply_landings hscope] at hl

theorem step_backed (hdelivering : s.submission.Delivering cfg s.shared.chain)
    (hbacked : ∀ r ∈ s.submission.submissions, r.Backed s.shared.chain)
    (hok : ∀ input, e = .submission input → s.ReportsWithin e) (h : s.step cfg e = some t) :
    ∀ r ∈ t.submission.submissions, r.Backed t.shared.chain := by
  obtain ⟨-, s', eff, hperform, rfl⟩ := step_eq_some.mp h
  intro r hr
  change r ∈ s'.submission.submissions at hr
  have hold : r.Sound cfg s.shared.chain ∧ r.Backed s.shared.chain := by
    obtain ⟨-, hsame⟩ | ⟨input, rfl, hmoves⟩ := perform_submission hperform
    · rw [hsame] at hr
      exact ⟨hdelivering.sound r hr, hbacked r hr⟩
    · refine ⟨(hmoves.delivering hdelivering).sound r hr, ?_⟩
      obtain hold | ⟨oldProof, bestSolution, -, rfl⟩ | ⟨x, stage, next, hpc, hmove⟩ :=
        hmoves.mem_submissions hr
      · exact hbacked r hold
      · simp [Submission.Backed, Submission.frozen]
      · have hx := PoolSubmissionProcessor.mem_submissions_of_submit hpc
        refine hmove.backed (hdelivering.sound x hx) (hdelivering.current x stage hpc).2 ?_
          (hbacked x hx)
        intro latest hlatest
        exact hok input rfl (x, latest)
          (by simp only [reporting, hpc]; exact Option.mem_map_of_mem _ hlatest)
  intro msg hmsg
  obtain ⟨hsound, hle⟩ := hold.2 msg hmsg
  exact ⟨hsound, fun l hl htx =>
    hle l (mem_landings_of_confirmed hold.1 hperform hl htx) htx⟩

/-- All reports together claim no more than has been mined. -/
theorem reported_le_mined (hdelivering : s.submission.Delivering cfg s.shared.chain)
    (hbacked : ∀ r ∈ s.submission.submissions, r.Backed s.shared.chain) :
    (s.reported.map MessageInternalMineSuccess.rewards).sum ≤ s.shared.chain.mined := by
  have hnumbers : (s.submission.submissions.map Submission.number).Nodup := by
    rw [hdelivering.numbers]
    exact List.nodup_reverse.mpr List.nodup_range
  have hshares := sum_shares_le hnumbers (fun l : Landing => l.tx.submission) Landing.reward
    s.shared.chain.landings
  have hreports : (s.submission.submissions.map fun r =>
      (r.messages.map MessageInternalMineSuccess.rewards).sum).sum ≤
      (s.submission.submissions.map fun r =>
        ((((s.shared.chain.landings.filter fun l => l.tx.submission = r.number).map
          Landing.reward).sum : Nat) : Int)).sum :=
    List.sum_le_sum fun r hr => (hbacked r hr).messages_le (hdelivering.sound r hr)
  have hcast : (s.submission.submissions.map fun r =>
      ((((s.shared.chain.landings.filter fun l => l.tx.submission = r.number).map
        Landing.reward).sum : Nat) : Int)).sum =
      (((s.submission.submissions.map Submission.number).map fun k =>
        ((s.shared.chain.landings.filter fun l => l.tx.submission = k).map
          Landing.reward).sum).sum : Nat) := by
    rw [Nat.cast_list_sum, List.map_map, List.map_map]
    rfl
  rw [reported, List.map_flatMap, List.flatMap_def, List.sum_flatten, List.map_map]
  refine le_trans hreports ?_
  rw [hcast]
  exact_mod_cast hshares

end State

end Hashpoo.Mining
