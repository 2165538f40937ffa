import Hashpoo.Client.Best
import Hashpoo.Server.ArrivalOrder

/-!
# A mission from end to end

The server hands out a range, a miner hashes it, three filters keep back what does not
improve, the rest crosses the wire among the messages of everybody else, and the two
client processors check and record it. The layouts, the filters and the checks fit
together: the entry of the miner ends as its best hash says.
-/

namespace Hashpoo.Protocol

open Foundation Client

/-! ## The mission -/

/-- The mission of a client that has decoded the message. -/
def missionOf (m : ServerMessageStartMining) : Mission where
  challenge := m.challenge
  nonceRange := ⟨m.nonceRangeStart.toNat, m.nonceRangeEnd.toNat⟩
  cutoff := m.cutoff.toInt.toNat
  stop_lt := m.nonceRangeEnd.toNat_lt

/-- Everything the threads have tried is a hash of a nonce of the range. -/
def Genuine (hashes : Challenge → Nat → List Hash) (m : Mission) (o : Outcome) : Prop :=
  ∀ s ∈ o.tried, ∃ nonce, m.nonceRange.Contains nonce ∧ ∃ hx ∈ hashes m.challenge nonce,
    submissionOf nonce hx = s

/-- One of the two miners has played the mission. `mine` only counts when its threads leave
before the end of the range. -/
def Played (hashes : Challenge → Nat → List Hash) (m : Mission) (o : Outcome) : Prop :=
  (∃ args turn, m.nonceRange.start ≤ m.nonceRange.stop ∧
      Turbomine.optimizedMiningRayon hashes args m turn = .ok o) ∨
    ∃ args cores, (∀ core ∈ cores, core.id % 2 ^ 32 < Mine.threadsOf args cores →
        Mine.Stays (hashes m.challenge) m.nonceRange (m.cutoffWith args) core.turn
          (Mine.firstNonce m core)) ∧
      o = Mine.outcome hashes args m cores

variable {hashes : Challenge → Nat → List Hash} {m : Mission} {o : Outcome}

theorem genuine_of_hashed {workers : List Worker} {best : MiningResult}
    (h : ∀ w ∈ workers, ∀ nonce ∈ w.hashed, m.nonceRange.Contains nonce) :
    Genuine hashes m (.of (hashes m.challenge) workers best) := by
  intro s hs
  obtain ⟨w, hw, htried⟩ := List.mem_flatMap.mp hs
  obtain ⟨nonce, hnonce, hx, hhx, heq⟩ := Worker.mem_tried.mp htried
  exact ⟨nonce, h w hw nonce hnonce, hx, hhx, heq⟩

theorem sends_subset_of_faithful {hashes : Nat → List Hash} {workers : List Worker}
    {best : MiningResult} (h : ∀ w ∈ workers, w.Faithful hashes) :
    (Outcome.of hashes workers best).sends ⊆ (Outcome.of hashes workers best).tried := by
  intro s hs
  obtain ⟨w, hw, hsent⟩ := List.mem_flatMap.mp hs
  rw [(h w hw).sent] at hsent
  exact List.mem_flatMap.mpr ⟨w, hw, (records_sublist _ _).subset hsent⟩

namespace Played

theorem filtered (h : Played hashes m o) : o.Filtered := by
  obtain ⟨args, turn, -, hok⟩ | ⟨args, cores, -, rfl⟩ := h
  · exact Turbomine.filtered_optimizedMiningRayon hok
  · exact Mine.filtered_outcome hashes args m cores

theorem genuine (h : Played hashes m o) : Genuine hashes m o := by
  obtain ⟨args, turn, hrange, hok⟩ | ⟨args, cores, hstays, rfl⟩ := h
  · obtain ⟨chunkSize, -, hresult⟩ := bind_eq_ok.mp hok
    rw [← pure_eq_ok.mp hresult]
    refine genuine_of_hashed fun w hw => ?_
    obtain ⟨coreId, hid, rfl⟩ := List.mem_map.mp hw
    exact Turbomine.hashed_in_range hashes args m chunkSize turn hrange (List.mem_range.mp hid)
  · refine genuine_of_hashed fun w hw => ?_
    obtain ⟨x, hx, rfl⟩ := List.mem_map.mp hw
    obtain ⟨core, hcore, hthread⟩ := List.mem_filterMap.mp hx
    rw [Mine.thread] at hthread
    split at hthread
    · cases hthread
    · next hid =>
      cases hthread
      exact Mine.hashed_in_range_iff.mpr (hstays core hcore (not_le.mp hid))

theorem sends_subset (h : Played hashes m o) : o.sends ⊆ o.tried := by
  obtain ⟨args, turn, -, hok⟩ | ⟨args, cores, -, rfl⟩ := h
  · obtain ⟨chunkSize, -, hresult⟩ := bind_eq_ok.mp hok
    rw [← pure_eq_ok.mp hresult]
    refine sends_subset_of_faithful fun w hw => ?_
    obtain ⟨coreId, -, rfl⟩ := List.mem_map.mp hw
    exact Turbomine.faithful_mineChunks (Worker.faithful_start _) _
  · refine sends_subset_of_faithful fun w hw => ?_
    obtain ⟨x, hx, rfl⟩ := List.mem_map.mp hw
    exact Mine.faithful_workers x hx

/-- What goes out has been tried and is worth more than the minimum. -/
theorem sent (h : Played hashes m o) {sends : List ThreadSubmission} (hperm : sends.Perm o.sends)
    {s : ThreadSubmission} (hs : s ∈ sentSubmissions 0 (o.channel sends)) :
    s ∈ o.tried ∧ minDiff < s.difficulty := by
  rw [Outcome.sentSubmissions_channel] at hs
  have hsend : s ∈ o.sends := by
    obtain hthread | hlast := List.mem_append.mp ((records_sublist _ _).subset hs)
    · exact hperm.mem_iff.mp hthread
    · rw [List.mem_singleton.mp hlast] at hs ⊢
      exact h.filtered.cutoff.resolve_left (lt_of_mem_records hs).ne'
  exact ⟨h.sends_subset hsend, h.filtered.above s hsend⟩

end Played

/-! ## The entry of a key -/

variable {ctx : ContributionsContext} {e : EpochHashes} {pubkey : Pubkey}

theorem handleContribution_other {m : ClientBestSolution} (h : pubkey ≠ m.pubkey) :
    (ctx.handleContribution e m).1.contributions.lookup pubkey =
      e.contributions.lookup pubkey := by
  rw [ContributionsContext.handleContribution]
  split
  · split
    · rfl
    · split
      · split
        · rfl
        · split
          · split
            · rw [EpochHashes.record_contributions, AList.lookup_insert_ne h]
            · rfl
          · rfl
      · rfl
  · rfl

/-- The entry of the key comes from the submission. -/
def EnteredBy (ctx : ContributionsContext) (e : EpochHashes) (m : ClientBestSolution) : Prop :=
  ∃ conn, ctx.sockets.lookup m.addr = some conn ∧
    e.contributions.lookup m.pubkey = some (.of ctx.drillx conn.minerId m.solution)

/-- The difficulty of a message. -/
def difficultyOf (ctx : ContributionsContext) (m : ClientBestSolution) : Nat :=
  ctx.drillx.difficulty m.solution

/-- The entry of the key is that of the last of its records, if there are any. -/
structure Follows (ctx : ContributionsContext) (pubkey : Pubkey) (e e' : EpochHashes)
    (l : List ClientBestSolution) : Prop where
  kept : l = [] → e'.contributions.lookup pubkey = e.contributions.lookup pubkey
  entered : ∀ m ∈ l.getLast?, m.pubkey = pubkey ∧ EnteredBy ctx e' m

namespace Follows

variable {e₁ e' : EpochHashes} {l : List ClientBestSolution} {m : ClientBestSolution}

theorem cons (hm : EnteredBy ctx e₁ m) (h : Follows ctx m.pubkey e₁ e' l) :
    Follows ctx m.pubkey e e' (m :: l) where
  kept hnil := absurd hnil (List.cons_ne_nil _ _)
  entered last hlast := by
    rw [List.getLast?_cons, Option.mem_some_iff] at hlast
    cases hrest : l.getLast? with
    | none =>
        rw [hrest, Option.getD_none] at hlast
        subst hlast
        obtain ⟨conn, hconn, hentry⟩ := hm
        exact ⟨rfl, conn, hconn, (h.kept (List.getLast?_eq_none_iff.mp hrest)).trans hentry⟩
    | some later =>
        rw [hrest, Option.getD_some] at hlast
        exact h.entered last (hlast ▸ hrest)

theorem congr {pubkey : Pubkey}
    (hlookup : e₁.contributions.lookup pubkey = e.contributions.lookup pubkey)
    (h : Follows ctx pubkey e₁ e' l) : Follows ctx pubkey e e' l where
  kept hnil := (h.kept hnil).trans hlookup
  entered := h.entered

end Follows

/-- Among the messages of everybody else, the entry of a key goes through the records of the
key's own ones. -/
theorem follows_clientContributionsProcessor {ms : List ClientBestSolution}
    (hranged : ∀ m ∈ ms, ctx.Ranged m)
    (hown : ∀ m ∈ ms, m.pubkey = pubkey → ctx.Acceptable m ∧ 0 < difficultyOf ctx m) :
    Follows ctx pubkey e (ctx.clientContributionsProcessor e ms).1
      (records (difficultyOf ctx) (bestSupplied e pubkey) (ms.filter (·.pubkey = pubkey))) := by
  induction ms generalizing e with
  | nil => exact ⟨fun _ => rfl, fun m hm => absurd hm (Option.not_mem_none m)⟩
  | cons m ms ih =>
      obtain ⟨hm, hms⟩ := List.forall_mem_cons.mp hranged
      obtain ⟨hmown, hmsown⟩ := List.forall_mem_cons.mp hown
      have hrest := ih (e := (ctx.handleContribution e m).1) hms hmsown
      rw [ContributionsContext.clientContributionsProcessor_cons_continue hm]
      by_cases hkey : m.pubkey = pubkey
      · subst hkey
        obtain ⟨hacceptable, hpos⟩ := hmown rfl
        obtain ⟨conn, hconn, hhandle⟩ :=
          ContributionsContext.handleContribution_of_acceptable (e := e) hacceptable
        rw [hhandle] at hrest ⊢
        rw [List.filter_cons_of_pos (by simp), records]
        by_cases hadmits : admits e.contributions m.pubkey (ctx.drillx.difficulty m.solution)
        · rw [if_pos hadmits] at hrest ⊢
          rw [if_pos ((admits_iff hpos).mp hadmits)]
          have hentry : (e.record m.pubkey (.of ctx.drillx conn.minerId m.solution)
              m.solution).contributions.lookup m.pubkey =
                some (.of ctx.drillx conn.minerId m.solution) := AList.lookup_insert _
          rw [bestSupplied_record] at hrest
          exact hrest.cons ⟨conn, hconn, hentry⟩
        · rw [if_neg hadmits] at hrest ⊢
          rw [if_neg fun hlt => hadmits ((admits_iff hpos).mpr hlt)]
          exact hrest
      · have hother : (ctx.handleContribution e m).1.contributions.lookup pubkey = _ :=
          handleContribution_other (Ne.symm hkey)
        rw [bestSupplied_congr hother] at hrest
        rw [List.filter_cons_of_neg (by simpa using hkey)]
        exact hrest.congr hother

/-! ## On the wire -/

/-- A message that arrives at the server, from the submission processor of the miner or from
anywhere else. -/
inductive Arrival where
  | own (msg : WsMessage)
  | other (addr : SocketAddr) (msg : WsMessage)

/-- The messages of the submission processor, in their order. -/
def ownMessages (arrivals : List Arrival) : List WsMessage :=
  arrivals.filterMap fun
    | .own msg => some msg
    | .other _ _ => none

/-- `process_message` for a message, with the address of its socket. -/
def Arrival.process (sdk : SignatureScheme) (who : SocketAddr) :
    Arrival → Except Panic (List ClientMessage × ControlFlow)
  | .own msg => Hashpoo.processMessage sdk msg who
  | .other addr msg => Hashpoo.processMessage sdk msg addr

/-- What the receive loops put on `client_channel`, unless one of them panics. -/
def receive (sdk : SignatureScheme) (who : SocketAddr) :
    List Arrival → Except Panic (List ClientMessage)
  | [] => .ok []
  | arrival :: arrivals => do
      let (sent, _) ← arrival.process sdk who
      let rest ← receive sdk who arrivals
      return sent ++ rest

/-- The other messages can be read, carry no solution of the key and none of a key that has
never been given a range. -/
def Unrelated (sdk : SignatureScheme) (ctx : ContributionsContext) (pubkey : Pubkey)
    (arrivals : List Arrival) : Prop :=
  ∀ addr msg, .other addr msg ∈ arrivals →
    ∃ sent flow, Hashpoo.processMessage sdk msg addr = .ok (sent, flow) ∧
      ∀ m ∈ sent.filterMap ClientMessage.toContribution, ctx.Ranged m ∧ m.pubkey ≠ pubkey

/-- The message of the contributions processor for a submission of the miner. -/
def contributionOf (who : SocketAddr) (pubkey : Pubkey) (s : ThreadSubmission) :
    ClientBestSolution := ⟨who, s.solution, pubkey⟩

variable {sdk : SigningScheme} {key : sdk.Keypair} {who : SocketAddr}

/-- The submissions arrive as they were sent. -/
theorem exists_receive (hsdk : sdk.Lawful) (who : SocketAddr) {arrivals : List Arrival}
    {sent : List ThreadSubmission}
    (hown : ownMessages arrivals = sent.map fun s => .binary (binVec sdk key s))
    (hothers : Unrelated sdk.toSignatureScheme ctx (sdk.pubkey key) arrivals) :
    ∃ messages, receive sdk.toSignatureScheme who arrivals = .ok messages ∧
      (messages.filterMap ClientMessage.toContribution).filter (·.pubkey = sdk.pubkey key) =
        sent.map (contributionOf who (sdk.pubkey key)) ∧
      ∀ m ∈ messages.filterMap ClientMessage.toContribution,
        m.pubkey ≠ sdk.pubkey key → ctx.Ranged m := by
  induction arrivals generalizing sent with
  | nil =>
      obtain rfl := List.map_eq_nil_iff.mp hown.symm
      exact ⟨[], rfl, rfl, fun m hm => absurd hm List.not_mem_nil⟩
  | cons arrival arrivals ih =>
      have hrest : Unrelated sdk.toSignatureScheme ctx (sdk.pubkey key) arrivals :=
        fun addr msg hmem => hothers addr msg (List.mem_cons_of_mem _ hmem)
      cases arrival with
      | own msg =>
          cases sent with
          | nil => cases hown
          | cons s sent =>
              obtain ⟨hmsg, htail⟩ := List.cons.inj hown
              obtain ⟨messages, hreceive, hfilter, hranged⟩ := ih htail hrest
              have hcontributions : (ClientMessage.bestSolution who s.solution (sdk.pubkey key) ::
                  messages).filterMap ClientMessage.toContribution =
                    contributionOf who (sdk.pubkey key) s ::
                      messages.filterMap ClientMessage.toContribution := rfl
              refine ⟨.bestSolution who s.solution (sdk.pubkey key) :: messages, ?_, ?_, ?_⟩
              · rw [receive, Arrival.process, hmsg, processMessage_bestSolution hsdk key s who]
                simp only [bind, Except.bind, hreceive]
                rfl
              · rw [hcontributions, List.filter_cons_of_pos (by simp [contributionOf]), hfilter,
                  List.map_cons]
              · intro m hm hkey
                rw [hcontributions] at hm
                obtain rfl | hlater := List.mem_cons.mp hm
                · exact absurd rfl hkey
                · exact hranged m hlater hkey
      | other addr msg =>
          obtain ⟨messages, hreceive, hfilter, hranged⟩ := ih hown hrest
          obtain ⟨more, flow, hprocess, hmore⟩ := hothers addr msg List.mem_cons_self
          refine ⟨more ++ messages, ?_, ?_, ?_⟩
          · rw [receive, Arrival.process, hprocess]
            simp only [bind, Except.bind, hreceive]
            rfl
          · have hnone : (more.filterMap ClientMessage.toContribution).filter
                (·.pubkey = sdk.pubkey key) = [] :=
              List.filter_eq_nil_iff.mpr fun m hm => by simpa using (hmore m hm).2
            rw [List.filterMap_append, List.filter_append, hnone, List.nil_append, hfilter]
          · intro m hm hkey
            rw [List.filterMap_append] at hm
            obtain hnew | hlater := List.mem_append.mp hm
            · exact (hmore m hnew).1
            · exact hranged m hlater hkey

/-! ## From the range to the entry -/

/-- The server still has the miner's socket, its range and the challenge of the mission, and
asks for no more than the miners do. -/
structure Serves (ctx : ContributionsContext) (who : SocketAddr) (pubkey : Pubkey)
    (m : Mission) : Prop where
  range : ctx.clientNonceRanges.lookup pubkey = some m.nonceRange
  connected : ∃ conn, ctx.sockets.lookup who = some conn
  challenge : ctx.proof.challenge = m.challenge
  minDifficulty : ctx.minDifficulty ≤ minDiff + 1

/-- The server measures the hashes as the miner does and takes them to be valid. -/
def Agrees (drillx : Drillx) (hashes : Challenge → Nat → List Hash) (challenge : Challenge) :
    Prop :=
  ∀ nonce, ∀ hx ∈ hashes challenge nonce,
    drillx.difficulty (submissionOf nonce hx).solution = hx.difficulty ∧
      drillx.isValid (submissionOf nonce hx).solution challenge = true

/-- A best hash above the minimum and above the old entry becomes the entry. Otherwise the old
one stays. -/
def Credits (ctx : ContributionsContext) (who : SocketAddr) (pubkey : Pubkey) (o : Outcome)
    (e e' : EpochHashes) : Prop :=
  if minDiff < o.best ∧ bestSupplied e pubkey < o.best then
    ∃ s ∈ o.tried, s.difficulty = o.best ∧ EnteredBy ctx e' (contributionOf who pubkey s)
  else e'.contributions.lookup pubkey = e.contributions.lookup pubkey

theorem acceptable_contributionOf (hserves : Serves ctx who pubkey m)
    (hagrees : Agrees ctx.drillx hashes m.challenge) (hgenuine : Genuine hashes m o)
    {s : ThreadSubmission} (hs : s ∈ o.tried) :
    difficultyOf ctx (contributionOf who pubkey s) = s.difficulty ∧
      (minDiff < s.difficulty → ctx.Acceptable (contributionOf who pubkey s)) := by
  obtain ⟨nonce, hnonce, hx, hhx, rfl⟩ := hgenuine s hs
  obtain ⟨hdifficulty, hvalid⟩ := hagrees nonce hx hhx
  refine ⟨hdifficulty, fun hlt => ⟨?_, ⟨m.nonceRange, hserves.range, ?_⟩, hserves.connected, ?_⟩⟩
  · exact (hserves.minDifficulty.trans hlt).trans hdifficulty.ge
  · have hword : nonce < 2 ^ 64 := hnonce.2.trans m.stop_lt
    show m.nonceRange.Contains (submissionOf nonce hx).solution.nonce
    rw [ThreadSubmission.nonce_solution, submissionOf, UInt64.toNat_ofNat',
      Nat.mod_eq_of_lt hword]
    exact hnonce
  · rw [hserves.challenge]
    exact hvalid

/-- What the server decodes and records of a mission. -/
theorem credits_of_sent (hplayed : Played hashes m o) (hserves : Serves ctx who pubkey m)
    (hagrees : Agrees ctx.drillx hashes m.challenge) {sends : List ThreadSubmission}
    (hperm : sends.Perm o.sends) {ms : List ClientBestSolution}
    (hown : ms.filter (·.pubkey = pubkey) =
      (sentSubmissions 0 (o.channel sends)).map (contributionOf who pubkey))
    (hothers : ∀ m ∈ ms, m.pubkey ≠ pubkey → ctx.Ranged m) :
    (ctx.clientContributionsProcessor e ms).2 = .continue ∧
      Credits ctx who pubkey o e (ctx.clientContributionsProcessor e ms).1 := by
  have hsent : ∀ s ∈ sentSubmissions 0 (o.channel sends), s ∈ o.tried ∧
      minDiff < s.difficulty ∧ difficultyOf ctx (contributionOf who pubkey s) = s.difficulty ∧
      ctx.Acceptable (contributionOf who pubkey s) := by
    intro s hs
    obtain ⟨htried, hlt⟩ := hplayed.sent hperm hs
    obtain ⟨hdifficulty, hacceptable⟩ :=
      acceptable_contributionOf hserves hagrees hplayed.genuine htried
    exact ⟨htried, hlt, hdifficulty, hacceptable hlt⟩
  have hmine : ∀ x ∈ ms, x.pubkey = pubkey →
      ctx.Acceptable x ∧ 0 < difficultyOf ctx x := by
    intro x hx hkey
    have hmem : x ∈ ms.filter (·.pubkey = pubkey) :=
      List.mem_filter.mpr ⟨hx, decide_eq_true hkey⟩
    rw [hown] at hmem
    obtain ⟨s, hs, rfl⟩ := List.mem_map.mp hmem
    obtain ⟨-, hlt, hdifficulty, hacceptable⟩ := hsent s hs
    exact ⟨hacceptable, by omega⟩
  have hranged : ∀ x ∈ ms, ctx.Ranged x := by
    intro x hx
    by_cases hkey : x.pubkey = pubkey
    · exact (hmine x hx hkey).1.ranged
    · exact hothers x hx hkey
  have hfollows := follows_clientContributionsProcessor (e := e) hranged hmine
  rw [hown] at hfollows
  refine ⟨ContributionsContext.clientContributionsProcessor_continue_iff.mpr hranged, ?_⟩
  rw [Credits]
  split
  · next hbest =>
    obtain ⟨hmin, hold⟩ := hbest
    -- The last record of the key is the best hash of the mission.
    have hbest : ∃ s ∈ sentSubmissions 0 (o.channel sends), s.difficulty = o.best := by
      rw [Outcome.sentSubmissions_channel, ← hplayed.filtered.peak_eq_best hperm hmin]
      obtain ⟨-, hzero⟩ | ⟨s, hs, hkey⟩ :=
        @getLast?_records _ _ _ ThreadSubmission.difficulty 0 (sends ++ [o.cutoff])
      · rw [hplayed.filtered.peak_eq_best hperm hmin] at hzero
        omega
      · exact ⟨s, List.mem_of_getLast? hs, hkey⟩
    obtain ⟨s, hs, hdiff⟩ := hbest
    have hle : o.best ≤ peak (difficultyOf ctx) (bestSupplied e pubkey)
        ((sentSubmissions 0 (o.channel sends)).map (contributionOf who pubkey)) := by
      rw [← hdiff, ← (hsent s hs).2.2.1]
      exact key_le_peak (List.mem_map_of_mem hs)
    obtain ⟨-, hnone⟩ | ⟨last, hlast, hpeak⟩ := @getLast?_records _ _ _ (difficultyOf ctx)
      (bestSupplied e pubkey) ((sentSubmissions 0 (o.channel sends)).map (contributionOf who pubkey))
    · omega
    · obtain ⟨s', hs', rfl⟩ := List.mem_map.mp
        ((records_sublist _ _).subset (List.mem_of_getLast? hlast))
      obtain ⟨htried, -, hdifficulty, -⟩ := hsent s' hs'
      refine ⟨s', htried, le_antisymm (key_le_peak htried) ?_, (hfollows.entered _ hlast).2⟩
      rw [← hdifficulty, hpeak]
      exact hle
  · next hworse =>
    apply hfollows.kept
    refine List.eq_nil_iff_forall_not_mem.mpr fun x hx => ?_
    obtain ⟨s, hs, rfl⟩ := List.mem_map.mp ((records_sublist _ _).subset hx)
    obtain ⟨htried, hlt, hdifficulty, -⟩ := hsent s hs
    have hrecord := lt_of_mem_records hx
    rw [hdifficulty] at hrecord
    have hbest : s.difficulty ≤ o.best := key_le_peak htried
    exact hworse ⟨hlt.trans_le hbest, hrecord.trans_le hbest⟩

/-- A miner reads its range from the server's message, and after its mission, whatever else
arrives meanwhile, its entry is the best hash that its threads have met, if this is above the
minimum and better than the entry before. -/
theorem credits_of_mission (hsdk : sdk.Lawful) (key : sdk.Keypair) (who : SocketAddr)
    (sm : ServerMessageStartMining) (hcutoff : 0 ≤ sm.cutoff.toInt)
    (hplayed : Played hashes (missionOf sm) o)
    (hserves : Serves ctx who (sdk.pubkey key) (missionOf sm))
    (hagrees : Agrees ctx.drillx hashes sm.challenge) {sends : List ThreadSubmission}
    (hperm : sends.Perm o.sends) {arrivals : List Arrival}
    (hown : ownMessages arrivals = submissionProcessor sdk key (o.channel sends))
    (hothers : Unrelated sdk.toSignatureScheme ctx (sdk.pubkey key) arrivals) :
    Client.processMessage (.binary sm.toMessageBinary) =
        .ok ([.startMining (missionOf sm).challenge (missionOf sm).nonceRange
          (missionOf sm).cutoff], .continue true) ∧
      ∃ messages, receive sdk.toSignatureScheme who arrivals = .ok messages ∧
        (ctx.clientMessageProcessor e messages).2 = .continue ∧
        Credits ctx who (sdk.pubkey key) o e (ctx.clientMessageProcessor e messages).1 := by
  obtain ⟨messages, hreceive, hfilter, hranged⟩ := exists_receive hsdk who hown hothers
  exact ⟨processMessage_startMining sm hcutoff, messages, hreceive,
    credits_of_sent hplayed hserves hagrees hperm hfilter hranged⟩

/-- The range of one nonce, which has a hash of difficulty 9. -/
def tinyStart : ServerMessageStartMining := ⟨.fill 32 7, 55, 0, 1⟩

/-- A server with two sockets. The miner with the range is at address 0. -/
def tinyContext : ContributionsContext where
  drillx := ⟨fun _ => 9, fun _ _ => true⟩
  minDifficulty := 8
  proof := ⟨.fill 32 7, 0, 0⟩
  clientNonceRanges := AList.singleton (.fill 32 1) ⟨0, 1⟩
  sockets := (AList.singleton 0 ⟨.fill 32 1, 1, 0⟩).insert 1 ⟨.fill 32 2, 2, 1⟩

/-- Between the pongs of two miners the submission of the first one. -/
def tinyArrivals : List Arrival :=
  [.other 1 .pong, .own (.binary (binVec .spelledOut (.fill 32 1) ⟨0, 9, .fill 16 1⟩)),
    .other 0 .pong]

theorem credits_tinyStart : ∃ messages,
    receive SigningScheme.spelledOut.toSignatureScheme 0 tinyArrivals = .ok messages ∧
      bestSupplied (tinyContext.clientMessageProcessor (.fresh (.fill 32 7)) messages).1
        (.fill 32 1) = 9 := by
  have hplayed : Played (fun _ _ => [⟨.fill 16 1, 9⟩]) (missionOf tinyStart) (oneHash 9) :=
    .inl ⟨⟨1, 5⟩, fun _ _ => ⟨⟨true, false, 0⟩, false⟩, Nat.zero_le _, rfl⟩
  have hserves : Serves tinyContext 0 (.fill 32 1) (missionOf tinyStart) :=
    ⟨rfl, ⟨⟨.fill 32 1, 1, 0⟩, rfl⟩, rfl, by decide⟩
  have hagrees : Agrees tinyContext.drillx (fun _ _ => [⟨.fill 16 1, 9⟩]) tinyStart.challenge := by
    intro nonce hx hhx
    rw [List.mem_singleton.mp hhx]
    exact ⟨rfl, rfl⟩
  have hothers : Unrelated SigningScheme.spelledOut.toSignatureScheme tinyContext (.fill 32 1)
      tinyArrivals := by
    intro addr msg hmem
    have hpong : msg = .pong := by
      simp only [tinyArrivals, List.mem_cons, Arrival.other.injEq, reduceCtorEq,
        List.not_mem_nil, or_false, false_or] at hmem
      obtain ⟨-, rfl⟩ | ⟨-, rfl⟩ := hmem <;> rfl
    subst hpong
    exact ⟨[.pong addr], .continue, rfl, fun m hm => absurd hm List.not_mem_nil⟩
  obtain ⟨-, messages, hreceive, -, hcredits⟩ := credits_of_mission (e := .fresh (.fill 32 7))
    SigningScheme.lawful_spelledOut (.fill 32 1) 0 tinyStart (by decide) hplayed hserves hagrees
    (.refl _) (show ownMessages tinyArrivals = _ from rfl) hothers
  refine ⟨messages, hreceive, ?_⟩
  rw [Credits, if_pos (by decide)] at hcredits
  obtain ⟨s, -, hdiff, conn, -, hentry⟩ := hcredits
  have hentry : AList.lookup (.fill 32 1) (tinyContext.clientMessageProcessor
      (.fresh (.fill 32 7)) messages).1.contributions = _ := hentry
  rw [bestSupplied, hentry]
  rfl

end Hashpoo.Protocol
