import Hashpoo.Client.Message
import Hashpoo.Mining.System

/-!
# Missions on the wire

The server writes the cutoff as an `i64` and the clients read a `u64`. The two readings
agree on numbers that are not negative, and `ready_clients_processor` sends no others: it
replaces every cutoff below ten seconds by zero. Ranges and cutoffs of the spawned tasks
fit their wire fields in every run, so each mission arrives as it was spawned.
-/

namespace Hashpoo.Mining

open Foundation

/-! ## Encoding a mission -/

/-- The cutoff that goes into the messages of a batch:
`let cutoff = if cutoff < 10 { ..; 0 } else { cutoff };`. -/
def clampCutoff (cutoff : Int64) : Int64 := if cutoff.toInt < 10 then 0 else cutoff

theorem clampCutoff_nonneg (cutoff : Int64) : 0 ≤ (clampCutoff cutoff).toInt := by
  rw [clampCutoff]
  split
  · exact le_rfl
  · omega

/-- `ServerMessageStartMining::new(challenge, cutoff, nonce_range.start, nonce_range.end)`. -/
def Mission.message (mission : Mission) : ServerMessageStartMining where
  challenge := mission.challenge
  cutoff := Int64.ofInt mission.cutoff
  nonceRangeStart := UInt64.ofNat mission.nonceRange.start
  nonceRangeEnd := UInt64.ofNat mission.nonceRange.stop

/-- The cutoff of a batch is a clamped `i64`. -/
def Clamped (cutoff : Int) : Prop := ∃ seconds : Int64, cutoff = (clampCutoff seconds).toInt

theorem clamped_zero : Clamped 0 := ⟨0, by decide⟩

theorem Clamped.nonneg {cutoff : Int} (h : Clamped cutoff) : 0 ≤ cutoff := by
  obtain ⟨seconds, rfl⟩ := h
  exact clampCutoff_nonneg seconds

/-- `get_cutoff` computes an `i64`. -/
theorem clamped_getCutoff {cfg : Config} {proof : Proof} {now : Int}
    (h : 10 ≤ cfg.getCutoff proof now) : Clamped (cfg.getCutoff proof now) := by
  have hword : (Int64.ofInt (cfg.getCutoff proof now)).toInt = cfg.getCutoff proof now := by
    rw [Int64.toInt_ofInt]
    exact Int.bmod_bmod
  refine ⟨Int64.ofInt (cfg.getCutoff proof now), ?_⟩
  rw [clampCutoff, hword, if_neg (by omega), hword]

/-- The range lies within `u64`. -/
structure NonceRange.Words (range : NonceRange) : Prop where
  start_lt : range.start < 2 ^ 64
  stop_lt : range.stop < 2 ^ 64

theorem Nonces.nextRange_words {n : Nonces} (h : n.appNonce < 2 ^ 64) :
    NonceRange.Words n.nextRange where
  start_lt := h
  stop_lt := by
    show Word.unsigned 64 (nonceRangeSize + n.appNonce : Nat) < 2 ^ 64
    exact Word.unsigned_lt 64 _

/-- What the wire message of the mission can express. -/
structure Mission.Encodable (mission : Mission) : Prop where
  cutoff : Clamped mission.cutoff
  nonceRange : NonceRange.Words mission.nonceRange

/-- The message decodes to the mission. -/
theorem Mission.Encodable.decoded {mission : Mission} (h : mission.Encodable) :
    Client.processMessage (.binary mission.message.toMessageBinary) =
      .ok ([.startMining mission.challenge mission.nonceRange mission.cutoff.toNat],
        .continue true) := by
  obtain ⟨seconds, hseconds⟩ := h.cutoff
  have hcutoff : mission.message.cutoff.toInt = mission.cutoff := by
    change (Int64.ofInt mission.cutoff).toInt = mission.cutoff
    rw [hseconds, Int64.ofInt_toInt]
  have hstart : mission.message.nonceRangeStart.toNat = mission.nonceRange.start :=
    UInt64.toNat_ofNat_of_lt h.nonceRange.start_lt
  have hstop : mission.message.nonceRangeEnd.toNat = mission.nonceRange.stop :=
    UInt64.toNat_ofNat_of_lt h.nonceRange.stop_lt
  rw [Client.processMessage_startMining _ (by rw [hcutoff]; exact h.cutoff.nonneg), hcutoff,
    hstart, hstop]
  rfl

/-! ## The missions of a run -/

/-- The cutoff of the batch under way. -/
def ReadyPc.seconds : ReadyPc → Option Int
  | .readChallenge _ seconds | .readSockets _ seconds _ => some seconds
  | .distribute _ batch | .deliver _ _ batch _ | .removeReady _ _ batch => some batch.cutoff
  | _ => none

/-- Everything on its way to a wire message fits it. -/
structure Announcing (s : State) : Prop where
  appNonce : s.shared.nonces.appNonce < 2 ^ 64
  seconds : ∀ cutoff ∈ s.ready.seconds, Clamped cutoff
  holding : ∀ range ∈ s.ready.holding, NonceRange.Words range
  missions : ∀ mission ∈ s.shared.missions, mission.Encodable

theorem announcing_start (proof : Proof) : Announcing (.start proof) where
  appNonce := Nat.two_pow_pos 64
  seconds cutoff h := by cases h
  holding range h := by cases h
  missions mission h := by cases h

namespace Announcing

variable {cfg : Config} {s t : State} {e : Event}

/-- A step of the ready processor keeps cutoff and range, and spawns what it held. -/
theorem ready (h : Announcing s) {pc' : ReadyPc} {eff : Effect}
    (hmoves : s.ready.Moves cfg s.shared pc' eff) :
    (∀ cutoff ∈ pc'.seconds, Clamped cutoff) ∧
      (∀ range ∈ pc'.holding, NonceRange.Words range) ∧
      ∀ mission, eff = .spawnMission mission → mission.Encodable := by
  obtain ⟨hnonce, hseconds, hholding, -⟩ := h
  cases hmoves with
  | early clients proof now hpc hearly =>
      simp [ReadyPc.seconds, ReadyPc.holding, clamped_getCutoff hearly]
  | noBest => simp [ReadyPc.seconds, ReadyPc.holding, clamped_zero]
  | readChallenge clients seconds hpc =>
      rw [hpc] at hseconds
      exact ⟨hseconds, by simp [ReadyPc.holding], by simp⟩
  | readSockets clients seconds challenge hpc =>
      rw [hpc] at hseconds
      exact ⟨hseconds, by simp [ReadyPc.holding], by simp⟩
  | take client rest batch hpc =>
      rw [hpc] at hseconds
      refine ⟨hseconds, ?_, by simp⟩
      intro range hrange
      cases hrange
      exact Nonces.nextRange_words hnonce
  | spawn client rest batch nonceRange sender hpc =>
      rw [hpc] at hseconds hholding
      refine ⟨hseconds, by simp [ReadyPc.holding], ?_⟩
      intro mission hmission
      cases hmission
      exact ⟨hseconds _ rfl, hholding _ rfl⟩
  | gone client rest batch nonceRange hpc =>
      rw [hpc] at hseconds
      exact ⟨hseconds, by simp [ReadyPc.holding], by simp⟩
  | remove client rest batch hpc =>
      rw [hpc] at hseconds
      exact ⟨hseconds, by simp [ReadyPc.holding], by simp⟩
  | _ => simp [ReadyPc.seconds, ReadyPc.holding]

theorem appNonce_apply {sh : Shared} (h : sh.nonces.appNonce < 2 ^ 64) (eff : Effect) :
    (sh.apply eff).nonces.appNonce < 2 ^ 64 := by
  by_cases hscope : eff.scope = .nonces
  · cases eff with
    | resetNonce => exact Nat.two_pow_pos 64
    | takeNonce owner => exact (Nonces.nextRange_words h).stop_lt
    | _ => cases hscope
  · rw [Shared.apply_nonces hscope]
    exact h

theorem step (h : Announcing s) (hstep : s.step cfg e = some t) : Announcing t := by
  obtain ⟨-, s', eff, hperform, rfl⟩ := State.step_eq_some.mp hstep
  have hready : (∀ cutoff ∈ s'.ready.seconds, Clamped cutoff) ∧
      (∀ range ∈ s'.ready.holding, NonceRange.Words range) ∧
      ∀ mission, eff = .spawnMission mission → mission.Encodable := by
    obtain hsame | ⟨input, rfl, hmoves⟩ := State.perform_ready hperform
    · rw [hsame]
      refine ⟨h.seconds, h.holding, ?_⟩
      rintro mission rfl
      obtain ⟨input, rfl⟩ := State.perform_spawnMission hperform
      obtain ⟨⟨pc, eff'⟩, hstep, heq⟩ := Option.map_eq_some_iff.mp hperform
      cases heq
      exact (h.ready (ReadyPc.step_moves hstep)).2.2 mission rfl
    · exact h.ready hmoves
  obtain ⟨hseconds, hholding, hspawned⟩ := hready
  refine ⟨appNonce_apply h.appNonce eff, hseconds, hholding, ?_⟩
  intro mission hmission
  obtain heff | ⟨m, hm, rfl | rfl⟩ := Shared.mem_missions_apply hmission
  · exact hspawned mission heff
  · exact h.missions _ hm
  · exact ⟨(h.missions m hm).cutoff, (h.missions m hm).nonceRange⟩

end Announcing

/-- Both decoders of the client read what the server writes: every mission of every run,
any challenge and range with any cutoff after the clamping, and any submission result. -/
theorem clients_decode_server :
    (∀ (cfg : Config) (proof : Proof) (events : List Event) (s : State),
      run (State.step cfg) (.start proof) events = some s →
      ∀ mission ∈ s.shared.missions, 0 ≤ mission.cutoff ∧
        ∀ processMessage ∈ [Client.Mine.processMessage, Client.Turbomine.processMessage],
          processMessage (.binary mission.message.toMessageBinary) =
            .ok ([.startMining mission.challenge mission.nonceRange mission.cutoff.toNat],
              .continue true)) ∧
    (∀ (challenge : Challenge) (start stop : UInt64) (cutoff : Int64),
      0 ≤ (clampCutoff cutoff).toInt ∧
        ∀ processMessage ∈ [Client.Mine.processMessage, Client.Turbomine.processMessage],
          processMessage (.binary (ServerMessageStartMining.toMessageBinary
            ⟨challenge, clampCutoff cutoff, start, stop⟩)) =
              .ok ([.startMining challenge ⟨start.toNat, stop.toNat⟩
                (clampCutoff cutoff).toInt.toNat], .continue true)) ∧
    (∀ m : ServerMessagePoolSubmissionResult,
      ∀ newFromBytes ∈ [Client.Mine.newFromBytes, Client.Turbomine.newFromBytes],
        newFromBytes m.toMessageBinary = .ok m) := by
  refine ⟨?_, ?_, ?_⟩
  · intro cfg proof events s hrun mission hmission
    have hencodable := (invariant_of_step (fun _ _ _ h hstep => h.step hstep)
      (announcing_start proof) hrun).missions mission hmission
    refine ⟨hencodable.cutoff.nonneg, ?_⟩
    simp only [List.forall_mem_cons, Client.Mine.processMessage, Client.Turbomine.processMessage]
    exact ⟨hencodable.decoded, hencodable.decoded, by simp⟩
  · intro challenge start stop cutoff
    have hdecoded := Client.processMessage_startMining
      ⟨challenge, clampCutoff cutoff, start, stop⟩ (clampCutoff_nonneg cutoff)
    refine ⟨clampCutoff_nonneg cutoff, ?_⟩
    simp only [List.forall_mem_cons, Client.Mine.processMessage, Client.Turbomine.processMessage]
    exact ⟨hdecoded, hdecoded, by simp⟩
  · intro m
    simp only [List.forall_mem_cons, Client.Mine.newFromBytes, Client.Turbomine.newFromBytes]
    exact ⟨Client.newFromBytes_toMessageBinary m, Client.newFromBytes_toMessageBinary m, by simp⟩

/-- A batch for one client, up to the spawned task. -/
def Scenario.announced : List Event :=
  join 0 (.fill 32 1) 1 ++ [.ready (.collect [0]), .ready .proceed, .ready .proceed,
    .ready (.clock 0)] ++ List.replicate 4 (.ready .proceed)

theorem clients_decode_announced : ∃ s, run (State.step Scenario.config) (.start Scenario.proof)
    Scenario.announced = some s ∧ ∃ mission ∈ s.shared.missions,
      Client.Mine.processMessage (.binary mission.message.toMessageBinary) =
        .ok ([.startMining (.fill 32 7) ⟨0, 40_000_000⟩ 60], .continue true) := by
  obtain ⟨s, hs, hmissions⟩ := exists_run (State.step Scenario.config) (.start Scenario.proof)
    Scenario.announced (fun s => s.shared.missions =
      [⟨.fill 32 1, 0, .fill 32 7, 60, ⟨0, 40_000_000⟩, false⟩]) (by decide)
  refine ⟨s, hs, ⟨.fill 32 1, 0, .fill 32 7, 60, ⟨0, 40_000_000⟩, false⟩, by simp [hmissions], ?_⟩
  exact (clients_decode_server.1 _ _ _ s hs _ (by simp [hmissions])).2 _ List.mem_cons_self

end Hashpoo.Mining
