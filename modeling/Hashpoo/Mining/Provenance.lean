import Hashpoo.Mining.Linearization
import Hashpoo.Mining.SelfConsistency

/-!
# Where solutions come from

A solution passes from the message of a client through two channels and two processors
into the epoch, from there into a submission, its transactions and the message about its
success. Nothing is made up on the way: what holds of every solution that comes in with a
signature holds of every solution that is kept, sent to the chain or announced.
-/

namespace Hashpoo

/-- A forwarded solution comes from a message that carries it, signed. -/
theorem signedSolution_of_forwarded {sdk : SignatureScheme} {msg : WsMessage} {who : SocketAddr}
    {m : ClientBestSolution}
    (h : m ∈ (forwarded (processMessage sdk msg who)).filterMap ClientMessage.toContribution) :
    ∃ d, msg = .binary d ∧ SignedSolution sdk d m.solution m.pubkey := by
  obtain ⟨message, hmem, hm⟩ := List.mem_filterMap.mp h
  obtain ⟨addr, solution, pubkey, rfl⟩ : ∃ addr solution pubkey,
      message = .bestSolution addr solution pubkey := by
    cases message with
    | bestSolution addr solution pubkey => exact ⟨addr, solution, pubkey, rfl⟩
    | ready | mining | pong => cases hm
  cases hm
  cases msg with
  | binary d =>
      refine ⟨d, rfl, ?_⟩
      cases d with
      | nil => cases hmem
      | cons b rest =>
          by_cases htype : b = 2
          · subst htype
            by_cases hlong : 57 ≤ (2 :: rest).length
            · change _ ∈ forwarded ((processSolution sdk who (2 :: rest)).map _) at hmem
              rw [processSolution_eq sdk who hlong] at hmem
              obtain ⟨heq, hsigned⟩ := mem_verifySolution.mp hmem
              cases heq
              exact (signedSolution_iff hlong rfl).mpr ⟨rfl, rfl, hsigned⟩
            · change _ ∈ forwarded ((processSolution sdk who (2 :: rest)).map _) at hmem
              rw [processSolution_error sdk who (not_le.mp hlong)] at hmem
              cases hmem
          · -- The other types send no solution on.
            change _ ∈ forwarded ((processBinary sdk who (b :: rest)).map _) at hmem
            have hindex : index (b :: rest) 0 = .ok b := rfl
            simp only [processBinary, hindex, bind, Except.bind, htype, if_false] at hmem
            split at hmem
            · cases List.mem_singleton.mp hmem
            · split at hmem
              · cases List.mem_singleton.mp hmem
              · cases hmem
  | pong => cases List.mem_singleton.mp hmem
  | text | close | ping => cases hmem

namespace Mining

open Foundation

/-- Which solutions a key may stand for. -/
abbrev Origin := Pubkey → Solution → Prop

variable {P : Origin}

/-- Every entry holds a solution of the origin. -/
def Origin.Covers (P : Origin) (contributions : Contributions) : Prop :=
  ∀ pubkey c, contributions.lookup pubkey = some c → P pubkey c.solution

theorem Origin.covers_insert {contributions : Contributions} (h : P.Covers contributions)
    {m : ClientBestSolution} (hm : P m.pubkey m.solution) (drillx : Drillx) (minerId : Int) :
    P.Covers (contributions.insert m.pubkey (.of drillx minerId m.solution)) := by
  intro pubkey c hc
  obtain ⟨rfl, rfl⟩ | ⟨-, hold⟩ := HashMap.lookup_insert_eq_some.mp hc
  · rwa [InternalMessageContribution.of_solution]
  · exact h pubkey c hold

/-- The data of a submission and of its messages. -/
structure Submission.From (P : Origin) (r : Submission) : Prop where
  best : ∀ solution ∈ r.bestSolution, ∃ pubkey, P pubkey solution
  contributions : P.Covers r.contributions
  messages : ∀ msg ∈ r.messages, P.Covers msg.contributions

theorem Submission.Moves.from {cfg : Config} {sh : Shared} {r r' : Submission} {stage : Stage}
    {next : Option Stage} {eff : Effect} (h : r.Moves cfg sh stage r' next eff)
    (hfrom : r.From P) : r'.From P := by
  cases h with
  | report latest id bestSolution hbest =>
      refine ⟨hfrom.best, hfrom.contributions, fun msg hmsg => ?_⟩
      cases hmsg with
      | head => exact hfrom.contributions
      | tail _ hmsg => exact hfrom.messages msg hmsg
  | _ => exact ⟨hfrom.best, hfrom.contributions, hfrom.messages⟩

theorem Submission.Moves.sends_best {cfg : Config} {sh : Shared} {r r' : Submission}
    {stage : Stage} {next : Option Stage} {tx : MineTx}
    (h : r.Moves cfg sh stage r' next (.sendTx tx)) : r.bestSolution = some tx.solution := by
  cases h with
  | send i bestSolution hbest => exact hbest

namespace PoolSubmissionProcessor

variable {cfg : Config} {sh : Shared} {p p' : PoolSubmissionProcessor} {eff : Effect}

/-- A solution that is going to be frozen has just been read, or was read before. -/
theorem step_freezing {input : SubmissionInput} (h : p.step cfg sh input = some (p', eff))
    {oldProof : Proof} {best : Option Solution} (hpc : p'.pc = .freeze oldProof best) :
    best = sh.epochHashes.bestHash.solution := by
  simp only [step] at h
  split at h
  case h_8 =>
    split at h
    · next r next eff' _ =>
      cases h
      cases next <;> cases hpc
    · cases h
  case h_6 =>
    split at h <;> cases h <;> cases hpc
    rfl
  case h_1 hbefore =>
    cases h
    cases hbefore.symm.trans hpc
  all_goals (try split at h) <;> cases h <;> cases hpc

theorem Moves.sends (h : p.Moves cfg sh p' eff) {tx : MineTx} (heff : eff = .sendTx tx) :
    ∃ r ∈ p.submissions, r.bestSolution = some tx.solution := by
  cases h with
  | outer | freeze => cases heff
  | submit r r' stage next _ hpc hmoves =>
      subst heff
      exact ⟨r, mem_submissions_of_submit hpc, hmoves.sends_best⟩

end PoolSubmissionProcessor

theorem Shared.apply_sent {sh : Shared} {eff : Effect} {tx : MineTx}
    (h : tx ∈ (sh.apply eff).chain.sent) : eff = .sendTx tx ∨ tx ∈ sh.chain.sent := by
  cases eff with
  | sendTx tx' =>
      cases h with
      | head => exact .inl rfl
      | tail _ h => exact .inr h
  | _ => exact .inr h

/-- Messages enter the channel at its end and leave it at its front. -/
theorem Shared.mem_clientChannel_apply {sh : Shared} {eff : Effect} {message : ClientMessage}
    (h : message ∈ (sh.apply eff).clientChannel) :
    (∃ messages, eff = .sendClient messages ∧ message ∈ messages) ∨
      message ∈ sh.clientChannel := by
  cases eff with
  | sendClient messages =>
      obtain hold | hnew := List.mem_append.mp h
      · exact .inr hold
      · exact .inl ⟨messages, rfl, hnew⟩
  | receiveClient => exact .inr (List.mem_of_mem_tail h)
  | _ => exact .inr h

/-! ## Runs -/

/-- What comes in with a signature is of the origin. -/
def Event.Carries (sdk : SignatureScheme) (P : Origin) : Event → Prop
  | .receive _ (.binary d) => ∀ solution pubkey, SignedSolution sdk d solution pubkey →
      P pubkey solution
  | _ => True

namespace State

variable {cfg : Config} {s s' t : State} {e : Event} {eff : Effect}

/-- The invariant: solutions of the origin in every place that holds one. -/
structure Traced (P : Origin) (s : State) : Prop where
  received : ∀ m ∈ s.shared.clientChannel.filterMap ClientMessage.toContribution,
    P m.pubkey m.solution
  forwarded : ∀ m ∈ s.messages.forwarded, P m.pubkey m.solution
  queued : ∀ queue ∈ s.shared.contributionsChannel, ∀ m ∈ queue, P m.pubkey m.solution
  handled : ∀ m ∈ s.contributions.handling, P m.pubkey m.solution
  entries : P.Covers s.shared.epochHashes.contributions
  best : ∀ solution ∈ s.shared.epochHashes.bestHash.solution, ∃ pubkey, P pubkey solution
  freezing : ∀ best ∈ s.freezing, ∀ solution ∈ best, ∃ pubkey, P pubkey solution
  submissions : ∀ r ∈ s.submission.submissions, r.From P
  sent : ∀ tx ∈ s.shared.chain.sent, ∃ pubkey, P pubkey tx.solution

theorem traced_start (proof : Proof) : (State.start proof).Traced P where
  received m hm := by cases hm
  forwarded m hm := by cases hm
  queued queue hqueue m hm := by
    cases hqueue
    cases hm
  handled m hm := by cases hm
  entries pubkey c hc := by cases hc
  best solution hsolution := by cases hsolution
  freezing best hbest := by cases hbest
  submissions r hr := by cases hr
  sent tx htx := by cases htx

/-- The message processor moves by its own steps. -/
theorem perform_messages (h : s.perform cfg e = some (s', eff)) :
    s'.messages = s.messages ∨
      e = .message ∧ s.messages.step s.shared = some (s'.messages, eff) := by
  cases e with
  | message =>
      obtain ⟨⟨pc, eff'⟩, hstep, heq⟩ := Option.map_eq_some_iff.mp h
      cases heq
      exact .inr ⟨rfl, hstep⟩
  | submission | ready | mission | contribution | tracking =>
      obtain ⟨_, -, heq⟩ := Option.map_eq_some_iff.mp h
      cases heq
      exact .inl rfl
  | ping | pong =>
      cases h
      exact .inl rfl
  | _ =>
      simp only [perform] at h
      (try split at h) <;> (try split at h) <;> cases h <;> exact .inl rfl

/-- The messages that a step sends to the message processor. -/
theorem perform_sendClient {messages : List ClientMessage}
    (h : s.perform cfg e = some (s', .sendClient messages)) :
    ∃ k msg who, e = .receive k msg ∧
      messages = Hashpoo.forwarded (processMessage cfg.sdk msg who) := by
  cases e with
  | message =>
      obtain ⟨⟨pc, eff'⟩, hstep, heq⟩ := Option.map_eq_some_iff.mp h
      cases heq
      simp only [MessagePc.step] at hstep
      split at hstep <;> (try split at hstep) <;> cases hstep
  | receive k msg =>
      simp only [perform] at h
      split at h
      · next addr pubkey _ =>
        split at h
        · next sent hprocess =>
          cases h
          exact ⟨k, msg, addr, rfl, by rw [hprocess]; rfl⟩
        · next sent hprocess =>
          cases h
          exact ⟨k, msg, addr, rfl, by rw [hprocess]; rfl⟩
        · cases h
      · cases h
  | _ =>
      have hmem := perform_scope h
      simp [Event.scopes, Effect.scope, submissionScopes] at hmem

namespace Traced

theorem apply_received (hinv : s.Traced P) (hcarries : e.Carries cfg.sdk P)
    (h : s.perform cfg e = some (s', eff)) :
    ∀ m ∈ (s.shared.apply eff).clientChannel.filterMap ClientMessage.toContribution,
      P m.pubkey m.solution := by
  intro m hm
  obtain ⟨message, hmem, htoContribution⟩ := List.mem_filterMap.mp hm
  obtain ⟨messages, rfl, hsent⟩ | hold := Shared.mem_clientChannel_apply hmem
  · obtain ⟨k, msg, who, rfl, rfl⟩ := perform_sendClient h
    obtain ⟨d, rfl, hsigned⟩ := signedSolution_of_forwarded
      (List.mem_filterMap.mpr ⟨message, hsent, htoContribution⟩)
    exact hcarries m.solution m.pubkey hsigned
  · exact hinv.received m (List.mem_filterMap.mpr ⟨message, hold, htoContribution⟩)

/-- A message is taken up from the front of the channel. -/
theorem perform_forwarded (hinv : s.Traced P) (h : s.perform cfg e = some (s', eff)) :
    ∀ m ∈ s'.messages.forwarded, P m.pubkey m.solution := by
  intro m hm
  obtain hsame | ⟨-, hstep⟩ := perform_messages h
  · rw [hsame] at hm
    exact hinv.forwarded m hm
  · simp only [MessagePc.step] at hstep
    split at hstep
    · split at hstep
      · next message rest hchannel =>
        obtain ⟨hpc, -⟩ := Prod.mk.inj (Option.some.inj hstep)
        rw [← hpc] at hm
        refine hinv.received m (List.mem_filterMap.mpr ⟨message, ?_, hm⟩)
        rw [hchannel]
        exact List.mem_cons_self
      · cases hstep
    all_goals
      obtain ⟨hpc, -⟩ := Prod.mk.inj (Option.some.inj hstep)
      rw [← hpc] at hm
      cases hm

theorem perform_queued (hinv : s.Traced P) (h : s.perform cfg e = some (s', eff)) :
    (∀ queue ∈ (s.shared.apply eff).contributionsChannel, ∀ m ∈ queue, P m.pubkey m.solution) ∧
      ∀ m ∈ s'.contributions.handling, P m.pubkey m.solution := by
  by_cases hcontribution : e = .contribution
  · subst hcontribution
    obtain ⟨⟨pc, eff'⟩, hstep, heq⟩ := Option.map_eq_some_iff.mp h
    cases heq
    obtain ⟨taken, hhandled, hchannel⟩ := ContributionsPc.step_advances hstep
    have htaken : ∀ m ∈ taken, P m.pubkey m.solution := by
      obtain ⟨queue, hbefore, -⟩ | ⟨-, rfl⟩ := hchannel
      · exact fun m hm => hinv.queued _ hbefore m (List.mem_append_left queue hm)
      · exact fun m hm => absurd hm List.not_mem_nil
    refine ⟨fun queue hqueue m hm => ?_, fun m hm => ?_⟩
    · obtain ⟨rest, hbefore, hafter⟩ | ⟨hafter, -⟩ := hchannel
      · cases hafter.symm.trans hqueue
        exact hinv.queued _ hbefore m (List.mem_append_right taken hm)
      · cases hafter.symm.trans hqueue
    · have hmem : m ∈ s.contributions.handling.toList ++ taken := by
        rw [← hhandled]
        exact List.mem_append_right _ (Option.mem_toList.mpr hm)
      obtain hold | hnew := List.mem_append.mp hmem
      · exact hinv.handled m (Option.mem_toList.mp hold)
      · exact htaken m hnew
  · obtain ⟨-, hchannel⟩ := perform_queue hcontribution h
    refine ⟨fun queue hqueue m hm => ?_, ?_⟩
    · rw [hchannel] at hqueue
      obtain ⟨before, hbefore, rfl⟩ := Option.map_eq_some_iff.mp hqueue
      obtain hold | hnew := List.mem_append.mp hm
      · exact hinv.queued before hbefore m hold
      · cases e with
        | message =>
            simp only [enqueued] at hnew
            split at hnew
            · exact hinv.forwarded m (Option.mem_toList.mp hnew)
            · cases hnew
        | _ => cases hnew
    · rw [(perform_frame h).contributions hcontribution]
      exact hinv.handled

theorem perform_entries (hinv : s.Traced P) (h : s.perform cfg e = some (s', eff)) :
    P.Covers (s.shared.apply eff).epochHashes.contributions ∧
      ∀ solution ∈ (s.shared.apply eff).epochHashes.bestHash.solution,
        ∃ pubkey, P pubkey solution := by
  by_cases hscope : eff.scope = .hashes
  · obtain ⟨-, challenge, rfl⟩ | ⟨rfl, m, nonceRange, minerId, hpc, rfl⟩ := perform_hashes h hscope
    · refine ⟨fun pubkey c hc => ?_, fun solution hsolution => ?_⟩
      · cases hc
      · cases hsolution
    · have hm : P m.pubkey m.solution := hinv.handled m (by rw [hpc]; rfl)
      refine ⟨?_, fun solution hsolution => ?_⟩
      · rw [Shared.apply_record_contributions]
        exact Origin.covers_insert hinv.entries hm _ _
      · change solution ∈ (s.shared.epochHashes.record _ _ _).bestHash.solution at hsolution
        rw [EpochHashes.record] at hsolution
        split at hsolution
        · cases hsolution
          exact ⟨m.pubkey, hm⟩
        · exact hinv.best solution hsolution
  · rw [Shared.apply_epochHashes hscope]
    exact ⟨hinv.entries, hinv.best⟩

/-- A step of the submission processor freezes what it reads, and sends what is frozen. -/
theorem perform_submissions (hinv : s.Traced P) (h : s.perform cfg e = some (s', eff)) :
    (∀ best ∈ s'.freezing, ∀ solution ∈ best, ∃ pubkey, P pubkey solution) ∧
      ∀ r ∈ s'.submission.submissions, r.From P := by
  obtain ⟨-, hsame⟩ | ⟨input, rfl, hmoves⟩ := perform_submission h
  · have hfreezing : s'.freezing = s.freezing := by rw [State.freezing, hsame]; rfl
    rw [hfreezing, hsame]
    exact ⟨hinv.freezing, hinv.submissions⟩
  · obtain ⟨⟨p, eff'⟩, hstep, heq⟩ := Option.map_eq_some_iff.mp h
    cases heq
    refine ⟨fun best hbest solution hsolution => ?_, fun x hx => ?_⟩
    · simp only [State.freezing] at hbest
      split at hbest
      · next oldProof best' hpc =>
        cases hbest
        rw [PoolSubmissionProcessor.step_freezing hstep hpc] at hsolution
        exact hinv.best solution hsolution
      · cases hbest
    · obtain hold | ⟨oldProof, best, hpc, rfl⟩ | ⟨r, stage, next, hpc, hr⟩ :=
        hmoves.mem_submissions hx
      · exact hinv.submissions x hold
      · refine ⟨hinv.freezing best (by rw [State.freezing, hpc]; rfl), hinv.entries, fun msg hmsg => ?_⟩
        cases hmsg
      · exact hr.from (hinv.submissions r (PoolSubmissionProcessor.mem_submissions_of_submit hpc))

theorem perform_sent (hinv : s.Traced P) (h : s.perform cfg e = some (s', eff)) :
    ∀ tx ∈ (s.shared.apply eff).chain.sent, ∃ pubkey, P pubkey tx.solution := by
  intro tx htx
  obtain rfl | hold := Shared.apply_sent htx
  · obtain ⟨hne, -⟩ | ⟨input, -, hmoves⟩ := perform_submission h
    · cases e with
      | submission input => exact absurd rfl (hne input)
      | _ =>
          have hmem := perform_scope h
          simp [Event.scopes, Effect.scope] at hmem
    · obtain ⟨r, hr, hbest⟩ := hmoves.sends rfl
      exact (hinv.submissions r hr).best _ hbest
  · exact hinv.sent tx hold

theorem step (hinv : s.Traced P) (hcarries : e.Carries cfg.sdk P) (h : s.step cfg e = some t) :
    t.Traced P := by
  obtain ⟨-, s', eff, hperform, rfl⟩ := step_eq_some.mp h
  obtain ⟨hqueued, hhandled⟩ := hinv.perform_queued hperform
  obtain ⟨hentries, hbest⟩ := hinv.perform_entries hperform
  obtain ⟨hfreezing, hsubmissions⟩ := hinv.perform_submissions hperform
  have hforwarded := hinv.perform_forwarded hperform
  exact ⟨hinv.apply_received hcarries hperform, hforwarded, hqueued, hhandled, hentries, hbest,
    hfreezing, hsubmissions, hinv.perform_sent hperform⟩

end Traced

theorem traced_of_run {proof : Proof} {events : List Event}
    (h : run (State.step cfg) (.start proof) events = some s)
    (hcarries : ∀ e ∈ events, e.Carries cfg.sdk P) : s.Traced P :=
  invariant_of_meets (fun _ _ _ hs hok hstep => hs.step hok hstep) (traced_start proof)
    (meets_of_forall hcarries) h

/-- A message of the run carries the solution, signed under the key. -/
def Received (sdk : SignatureScheme) (events : List Event) : Origin := fun pubkey solution =>
  ∃ k d, .receive k (.binary d) ∈ events ∧ SignedSolution sdk d solution pubkey

/-- Whatever the processors interleave, every entry of the epoch, every entry of a message
about a success and every transaction of the server holds a solution that came in with a
valid signature: an entry with one under its own key. -/
theorem received_of_run {proof : Proof} {events : List Event}
    (h : run (State.step cfg) (.start proof) events = some s) :
    (Received cfg.sdk events).Covers s.shared.epochHashes.contributions ∧
      (∀ r ∈ s.submission.submissions, ∀ msg ∈ r.messages,
        (Received cfg.sdk events).Covers msg.contributions) ∧
      ∀ tx ∈ s.shared.chain.sent, ∃ pubkey, Received cfg.sdk events pubkey tx.solution := by
  have hcarries : ∀ e ∈ events, e.Carries cfg.sdk (Received cfg.sdk events) := by
    intro e he
    cases e with
    | receive k msg =>
        cases msg with
        | binary d => exact fun solution pubkey hsigned => ⟨k, d, he, hsigned⟩
        | _ => trivial
    | _ => trivial
  have hinv := traced_of_run h hcarries
  exact ⟨hinv.entries, fun r hr => (hinv.submissions r hr).messages, hinv.sent⟩

theorem received_untilReported : ∃ s, run (State.step Scenario.config) (.start Scenario.proof)
    (Scenario.untilLanded 500 ++ Scenario.report) = some s ∧
    (s.submission.submissions.flatMap (·.messages)).length = 1 ∧
    (∀ r ∈ s.submission.submissions, ∀ msg ∈ r.messages, (Received Scenario.config.sdk
      (Scenario.untilLanded 500 ++ Scenario.report)).Covers msg.contributions) := by
  obtain ⟨s, hrun, hsent⟩ := exists_run (State.step Scenario.config) (.start Scenario.proof)
    (Scenario.untilLanded 500 ++ Scenario.report)
    (fun s => (s.submission.submissions.flatMap (·.messages)).length = 1) (by decide)
  exact ⟨s, hrun, hsent, (received_of_run hrun).2.1⟩

end State

end Mining

end Hashpoo
