import Hashpoo.Admission.Startup

/-!
# What restarts do to the tables

A start that is cut short does no harm to the rewards: the receiver of the commissions is
enrolled in one transaction. Only a handshake that is killed while it enrols a miner leaves
the miner without rewards.

The challenge is another matter. A start that misses the row of its challenge inserts a
second one, and from then on no task finds the challenge of the pool.
-/

namespace Hashpoo

open Foundation

namespace Registry

theorem length_rewardsOf_addToRewards (reg : Registry) (minerId delta id : Int) :
    ((reg.addToRewards minerId delta).db.rewardsOf id).length = (reg.db.rewardsOf id).length := by
  rw [Database.length_rewardsOf, Database.length_rewardsOf]
  exact congrArg (List.count id) Database.minerIds_addToRewards

end Registry

namespace Admission.State.Tracked

variable {cfg : Config} {s t : State} {e : Event}

/-- A miner keeps its row of rewards while the server is up. -/
theorem length_rewardsOf (hs : s.Tracked) (hok : s.Undisturbed cfg e) (hsteps : s.Steps cfg e t)
    {id : Int} (hone : (s.registry.db.rewardsOf id).length = 1) :
    (t.registry.db.rewardsOf id).length = 1 := by
  cases hsteps with
  | next k attempt h pc reg hk hcalls =>
      have hh := hs.handshakes k h hk
      obtain ⟨rfl, hnone, rfl⟩ | ⟨miner, pool, hpc, rfl, rfl⟩ | ⟨hsame, -⟩ :=
        hcalls.enrolment (hok h hk)
      · exact hone
      · have henrolling : h.pc.Enrolling := by rw [hpc]; trivial
        obtain ⟨id', hid', hrows⟩ := hh.enrolling henrolling
        cases (hh.known miner (by rw [hpc]; rfl)).symm.trans hid'
        show ((s.registry.insertReward ⟨miner.id, pool.id⟩).db.rewardsOf id).length = 1
        exact Registry.length_insertReward hrows hone
      · show (reg.db.rewardsOf id).length = 1
        rw [hsame.rewardsOf, hone]
  | enrolled k attempt pubkey poolId hnone =>
      exact Registry.length_insertReward (Registry.rewardsOf_nextMiner hs.fresh) hone
  | _ => exact hone

/-- The connections of the old process are gone. -/
theorem restart (hs : s.Tracked) (hidle : ∀ h ∈ HashMap.values s.handshakes, ¬ h.pc.Enrolling) :
    State.Tracked { State.start s.registry with accepted := s.accepted } where
  handshakes _ _ hk := by cases hk
  alone _ _ _ := by
    rintro ⟨_, hk, _⟩
    cases hk
  rows pubkey id hid := by
    refine .inr ((hs.rows pubkey id hid).resolve_left ?_)
    rintro ⟨k, h, hk, henrolling, -⟩
    exact hidle h (HashMap.mem_values.mpr ⟨k, hk⟩) henrolling
  fresh := hs.fresh
  accepted := hs.accepted

/-- Balances do not matter. -/
theorem addToRewards (hs : s.Tracked) (minerId delta : Int) :
    State.Tracked { s with registry := s.registry.addToRewards minerId delta } where
  handshakes k h hk := by
    have hh := hs.handshakes k h hk
    refine ⟨hh.known, fun henrolling => ?_, hh.poolAdded, hh.waits⟩
    obtain ⟨id, hid, hrows⟩ := hh.enrolling henrolling
    refine ⟨id, hid, List.length_eq_zero_iff.mp ?_⟩
    rw [Registry.length_rewardsOf_addToRewards, hrows, List.length_nil]
  alone := hs.alone
  rows pubkey id hid := by
    rw [Registry.length_rewardsOf_addToRewards]
    exact hs.rows pubkey id hid
  fresh row hrow := by
    have hmem : row.minerId ∈ s.registry.db.rewards.map Reward.minerId := by
      rw [← Database.minerIds_addToRewards]
      exact List.mem_map_of_mem hrow
    obtain ⟨old, hold, hid⟩ := List.mem_map.mp hmem
    rw [← hid]
    exact hs.fresh old hold
  accepted id hid := by
    rw [Registry.length_rewardsOf_addToRewards]
    exact hs.accepted id hid

end Admission.State.Tracked

namespace Startup

open Admission (Attempt)

variable {cfg : Config} {s t : State} {e : Event}

/-! ## Rewards -/

/-- No process is killed while one of its handshakes enrols a miner, and no enrolment is
disturbed. -/
def State.Undisturbed (cfg : Config) (s : State) : Event → Prop
  | .start _ => ∀ h ∈ HashMap.values s.server.handshakes, ¬ h.pc.Enrolling
  | .admission e => s.server.Undisturbed cfg.admission e
  | .call _ | .addChallenge _ | .addToRewards _ _ => True

instance (cfg : Config) (s : State) : DecidablePred (s.Undisturbed cfg)
  | .start _ => inferInstanceAs (Decidable (∀ h ∈ HashMap.values s.server.handshakes, ¬ _))
  | .admission e => inferInstanceAs (Decidable (s.server.Undisturbed cfg.admission e))
  | .call _ | .addChallenge _ | .addToRewards _ _ => .isTrue trivial

/-- A call of a start changes no miner, or enrols the receiver of the commissions. -/
theorem Calls.enrolment {proof : Proof} {store store' : Store} {attempt : Attempt} {pc pc' : Pc}
    (h : Calls cfg proof store pc attempt pc' store') :
    store.registry.Same store'.registry ∨
      store.registry.db.miners.lookup cfg.commissionPubkey = none ∧ ∃ poolId,
        store'.registry = (store.registry.insertMiner cfg.commissionPubkey true).insertReward
          ⟨store.registry.nextMiner, poolId⟩ := by
  cases h with
  | poolAdded reg hadd =>
      obtain ⟨hminers, hrewards, hnextMiner⟩ := Registry.addNewPool_db hadd
      exact .inl ⟨hminers, hrewards, hnextMiner⟩
  | enrolled reg henroll =>
      obtain rfl | hnew := Registry.signupEnrollment_cases henroll
      · exact .inl (.refl _)
      · exact .inr hnew
  | _ => exact .inl (.refl _)

/-- What holds of the rewards in every life without a disturbance. -/
structure State.Rewarded (cfg : Config) (s : State) : Prop where
  stable : s.Stable cfg
  tracked : s.server.Tracked
  /-- A server that is not up has no handshakes. -/
  idle : s.pc.serving = none → s.server.handshakes = ∅
  commissions : ∀ mineConfig ∈ s.mineConfigs,
    (s.server.registry.db.rewardsOf mineConfig.commissionsMinerId).length = 1

namespace State.Rewarded

theorem init {registry : Registry} (hregistry : registry.Enrolled) (challenges : ChallengeTable) :
    (State.init registry challenges).Rewarded cfg where
  stable := .init registry challenges
  tracked := .start hregistry
  idle _ := rfl
  commissions := nofun

/-- A call of a start keeps all rows of rewards. -/
theorem of_enrolment (hs : s.Rewarded cfg) {reg : Registry}
    (h : s.server.registry.Same reg ∨
      s.server.registry.db.miners.lookup cfg.commissionPubkey = none ∧ ∃ poolId,
        reg = (s.server.registry.insertMiner cfg.commissionPubkey true).insertReward
          ⟨s.server.registry.nextMiner, poolId⟩) :
    Admission.State.Tracked { s.server with registry := reg } ∧
      ∀ id, (s.server.registry.db.rewardsOf id).length = 1 → (reg.db.rewardsOf id).length = 1 := by
  obtain hsame | ⟨hnone, poolId, rfl⟩ := h
  · refine ⟨hs.tracked.of_same hsame (fun k h hk => (hs.tracked.handshakes k h hk).same hsame)
      (fun _ _ => Iff.rfl) hs.tracked.accepted, fun id hone => ?_⟩
    rw [hsame.rewardsOf, hone]
  · refine ⟨hs.tracked.enrolled poolId hnone s.server.signups, fun id hone => ?_⟩
    exact Registry.length_insertReward (Registry.rewardsOf_nextMiner hs.tracked.fresh) hone

theorem call (hs : s.Rewarded cfg) {attempt : Attempt} {pc : Pc} {store : Store}
    (hready : s.pc.serving = none) (h : Calls cfg s.proof s.store s.pc attempt pc store) :
    (s.goto pc store).Rewarded cfg := by
  have hstable : (s.goto pc store).Stable cfg := hs.stable.call hready h
  have hidle : s.server.handshakes = ∅ := hs.idle hready
  obtain ⟨htracked, hkeeps⟩ := hs.of_enrolment h.enrolment
  refine ⟨hstable, htracked, fun _ => hidle, fun mineConfig hmem => ?_⟩
  obtain hnew | hold := List.mem_append.mp hmem
  · have hcommissions := (hstable.used mineConfig hmem).commissions
    refine (htracked.rows _ _ hcommissions).resolve_left ?_
    rintro ⟨k, h, hk, -⟩
    rw [show s.server.handshakes = ∅ from hidle] at hk
    cases hk
  · exact hkeeps _ (hs.commissions mineConfig hold)

theorem step (hdbms : cfg.admission.poweredByDbms = true) (hs : s.Rewarded cfg)
    (hok : s.Undisturbed cfg e) (h : s.Steps cfg e t) : t.Rewarded cfg := by
  have hstable := hs.stable.step hdbms h
  cases h with
  | start proof =>
      rw [State.restart, if_pos hdbms] at hstable ⊢
      exact ⟨hstable, hs.tracked.restart hok, fun _ => rfl, hs.commissions⟩
  | call attempt pc store hready hcalls => exact hs.call hready hcalls
  | admission e server hserving hsteps =>
      refine ⟨hstable, hs.tracked.step hdbms hok hsteps, fun h => absurd h hserving, ?_⟩
      intro mineConfig hmem
      exact hs.tracked.length_rewardsOf hok hsteps (hs.commissions mineConfig hmem)
  | addChallenge challenge hserving =>
      exact ⟨hstable, hs.tracked, fun h => absurd h hserving, hs.commissions⟩
  | addToRewards minerId delta hserving =>
      refine ⟨hstable, hs.tracked.addToRewards minerId delta, fun h => absurd h hserving, ?_⟩
      intro mineConfig hmem
      rw [Registry.length_rewardsOf_addToRewards]
      exact hs.commissions mineConfig hmem

end State.Rewarded

/-- Over any number of starts, whatever calls of theirs fail and wherever they are cut
short, every miner that has been let in and every receiver of commissions has exactly one
row of rewards, as long as no handshake is disturbed while it enrols a miner. -/
theorem rewarded_of_starts (cfg : Config) (registry : Registry) (challenges : ChallengeTable)
    (events : List Event) (s : State) (hdbms : cfg.admission.poweredByDbms = true)
    (hregistry : registry.Enrolled)
    (hok : Meets (State.step cfg) (State.Undisturbed cfg) (.init registry challenges) events)
    (hrun : run (State.step cfg) (.init registry challenges) events = some s) :
    (∀ minerId ∈ s.server.accepted, (s.server.registry.db.rewardsOf minerId).length = 1) ∧
      ∀ mineConfig ∈ s.mineConfigs,
        (s.server.registry.db.rewardsOf mineConfig.commissionsMinerId).length = 1 := by
  have hs : s.Rewarded cfg :=
    invariant_of_meets (fun _ _ _ hs hok hstep => hs.step hdbms hok (State.step_steps hstep))
      (State.Rewarded.init hregistry challenges) hok hrun
  exact ⟨hs.tracked.accepted, hs.commissions⟩

/-- A miner is let in after the second start. -/
theorem rewarded_twoStarts : ∃ s,
    run (State.step Scenario.config) (.init Scenario.registry Scenario.challenges)
        (Scenario.twoStarts ++ Admission.Scenario.firstHandshake.map .admission) = some s ∧
      s.server.accepted = [1001] ∧
      (∀ minerId ∈ s.server.accepted, (s.server.registry.db.rewardsOf minerId).length = 1) ∧
      ∀ mineConfig ∈ s.mineConfigs,
        (s.server.registry.db.rewardsOf mineConfig.commissionsMinerId).length = 1 := by
  obtain ⟨s, hrun, haccepted⟩ := exists_run (State.step Scenario.config)
    (.init Scenario.registry Scenario.challenges)
    (Scenario.twoStarts ++ Admission.Scenario.firstHandshake.map .admission)
    (fun s : State => s.server.accepted = [1001]) (by decide)
  have hregistry : Scenario.registry.Enrolled := by
    refine ⟨fun _ _ hid => ?_, nofun⟩
    cases hid
  exact ⟨s, hrun, haccepted,
    rewarded_of_starts _ _ _ _ s rfl hregistry (by decide) hrun⟩

/-! ## The row of the challenge -/

/-- The lookup of the challenge is answered. -/
def State.Finds (s : State) (e : Event) : Prop :=
  ∀ mineConfig, s.pc = .getChallenge mineConfig → e = .call .answered

/-- What the calls of a start that gets ready do to the challenges. -/
def State.Prepared (cfg : Config) (s t : State) (events : List Event) : Prop :=
  t.challenges = s.challenges ∧ Meets (State.step cfg) State.Finds s events ∧
      (∃ row, s.challenges.getChallengeByChallenge .postgres s.proof.challenge.val = .ok row) ∨
    ∃ mineConfig, t.challenges = s.challenges.insert (newChallenge mineConfig s.proof) ∧
      (Meets (State.step cfg) State.Finds s events → ∃ err,
        s.challenges.getChallengeByChallenge .postgres s.proof.challenge.val = .error err)

/-- No call follows when the process is down or the server is up. -/
theorem State.eq_of_stopped {attempts : List Attempt}
    (hstopped : s.pc = .down ∨ s.pc.serving ≠ none)
    (hrun : run (State.step cfg) s (attempts.map .call) = some t) : attempts = [] ∧ t = s := by
  cases attempts with
  | nil =>
      cases hrun
      exact ⟨rfl, rfl⟩
  | cons attempt attempts =>
      obtain ⟨u, hstep, -⟩ := run_cons_eq_some.mp hrun
      obtain hdown | hup := hstopped
      · simp [State.step, hdown] at hstep
      · obtain ⟨mineConfig, hserving⟩ := Option.ne_none_iff_exists'.mp hup
        simp [State.step, Pc.serving_eq_some.mp hserving] at hstep

/-- A call before the lookup of the challenge. -/
theorem State.Prepared.cons {u : State} {events : List Event} (h : u.Prepared cfg t events)
    (hstep : s.step cfg e = some u) (hchallenges : u.challenges = s.challenges)
    (hproof : u.proof = s.proof) (hpc : ∀ mineConfig, s.pc ≠ .getChallenge mineConfig) :
    s.Prepared cfg t (e :: events) := by
  have hmeets : Meets (State.step cfg) State.Finds s (e :: events) ↔
      Meets (State.step cfg) State.Finds u events := by
    have hfinds : s.Finds e := fun mineConfig h => absurd h (hpc mineConfig)
    rw [meets_cons hstep, and_iff_right hfinds]
  rw [State.Prepared, hmeets, ← hchallenges, ← hproof]
  exact h

/-- Only the insertion of the challenge is left. -/
theorem State.challenges_of_addChallenge {attempts : List Attempt} {mineConfig : MineConfig}
    (hpc : s.pc = .addChallenge mineConfig)
    (hrun : run (State.step cfg) s (attempts.map .call) = some t) (hready : t.pc.serving ≠ none) :
    t.challenges = s.challenges.insert (newChallenge mineConfig s.proof) := by
  cases attempts with
  | nil =>
      cases hrun
      rw [hpc] at hready
      exact absurd rfl hready
  | cons attempt attempts =>
      obtain ⟨u, hstep, hrest⟩ := run_cons_eq_some.mp hrun
      cases State.step_steps hstep with
      | call _ pc store _ hcalls =>
          rw [hpc] at hcalls
          cases hcalls with
          | commissions _ miner hreads => cases hreads <;> contradiction
          | challengeAdded =>
              obtain ⟨-, rfl⟩ := State.eq_of_stopped (.inr fun h => by cases h) hrest
              rfl
          | panicked =>
              obtain ⟨-, rfl⟩ := State.eq_of_stopped (.inl rfl) hrest
              exact absurd rfl hready

theorem State.prepared_of_calls {attempts : List Attempt}
    (hrun : run (State.step cfg) s (attempts.map .call) = some t) (hready : t.pc.serving ≠ none)
    (hs : s.pc.serving = none) (hpc : ∀ mineConfig, s.pc ≠ .addChallenge mineConfig) :
    s.Prepared cfg t (attempts.map .call) := by
  induction attempts generalizing s with
  | nil =>
      cases hrun
      exact absurd hs hready
  | cons attempt attempts ih =>
      obtain ⟨u, hstep, hrest⟩ := run_cons_eq_some.mp hrun
      cases State.step_steps hstep with
      | call _ pc store _ hcalls =>
          generalize hpc₀ : s.pc = pc₀ at hcalls
          cases hcalls with
          | poolFound | poolMissing | poolAdded | commissionsMissing | enrolled | miningPool =>
              exact (ih hrest rfl nofun).cons hstep rfl rfl (by simp [hpc₀])
          | commissions _ miner hreads =>
              refine (ih hrest rfl nofun).cons hstep rfl rfl ?_
              obtain rfl | rfl := hreads <;> simp [hpc₀]
          | challengeFound mineConfig row hrow =>
              obtain ⟨rfl, rfl⟩ := State.eq_of_stopped (.inr fun h => by cases h) hrest
              exact .inl ⟨rfl, ⟨fun _ _ => rfl, fun _ _ => trivial⟩, row, hrow⟩
          | challengeMissing mineConfig _ hmissing =>
              have hmeets (h : Meets (State.step cfg) State.Finds s
                  ((attempt :: attempts).map .call)) : ∃ err,
                  s.challenges.getChallengeByChallenge .postgres s.proof.challenge.val =
                    .error err :=
                hmissing (Event.call.inj (h.head mineConfig hpc₀))
              refine .inr ⟨mineConfig, ?_, hmeets⟩
              exact State.challenges_of_addChallenge (s := s.goto (.addChallenge mineConfig) s.store)
                rfl hrest hready
          | challengeAdded mineConfig => exact absurd hpc₀ (hpc mineConfig)
          | ready mineConfig =>
              rw [hpc₀] at hs
              cases hs
          | panicked =>
              obtain ⟨-, rfl⟩ := State.eq_of_stopped (.inl rfl) hrest
              exact absurd rfl hready

/-- The task that lands the first solution after a start looks for the row of the loaded
challenge. With every call answered it finds one exactly when the challenge was not in the
database before the start, or was there once and the start did not miss it. -/
theorem ends_of_start_iff (cfg : Config) (s t : State) (proof : Proof) (attempts : List Attempt)
    (mineConfig : MineConfig) (hdbms : cfg.admission.poweredByDbms = true)
    (hrun : run (State.step cfg) s (.start proof :: attempts.map .call) = some t)
    (hready : t.pc = .ready mineConfig) :
    (∃ n, DbChallenge.Ended proof t.challenges
      (DbChallenge.dbChallenge .postgres mineConfig proof t.challenges (fun _ => .answered) n)) ↔
      (s.challenges.withChallenge proof.challenge.val).length = 0 ∨
      (s.challenges.withChallenge proof.challenge.val).length = 1 ∧
        Meets (State.step cfg) State.Finds (s.restart cfg proof) (attempts.map .call) := by
  have hcalls : run (State.step cfg) (s.restart cfg proof) (attempts.map .call) = some t := hrun
  have hpc : (s.restart cfg proof).pc = .getPool := by rw [State.restart, if_pos hdbms]; rfl
  have hprepared : (s.restart cfg proof).Prepared cfg t (attempts.map .call) :=
    State.prepared_of_calls hcalls (by simp [hready, Pc.serving]) (by rw [hpc]; rfl)
      (by simp [hpc])
  obtain ⟨hchallenges, hmeets, row, hrow⟩ | ⟨mineConfig', hchallenges, hmissing⟩ := hprepared
  · have hsingle : s.challenges.withChallenge proof.challenge.val = [row] := queryOne_eq_ok.mp hrow
    refine iff_of_true ⟨1, DbChallenge.ends_of_found (c := row) ?_⟩ (.inr ⟨?_, hmeets⟩)
    · rw [hchallenges]
      exact hrow
    · rw [hsingle, List.length_singleton]
  · have hinserted : t.challenges.withChallenge proof.challenge.val =
        s.challenges.withChallenge proof.challenge.val ++
          [s.challenges.newRow (newChallenge mineConfig' proof)] := by
      rw [hchallenges]
      exact ChallengeTable.withChallenge_insert (newChallenge mineConfig' proof)
    cases hrows : s.challenges.withChallenge proof.challenge.val with
    | nil =>
        rw [hrows, List.nil_append] at hinserted
        have hfound : t.challenges.getChallengeByChallenge .postgres proof.challenge.val =
            .ok (s.challenges.newRow (newChallenge mineConfig' proof)) :=
          ChallengeTable.getChallengeByChallenge_single hinserted
        exact iff_of_true ⟨1, DbChallenge.ends_of_found hfound⟩ (.inl rfl)
    | cons row rows =>
        have hseveral : 2 ≤ (t.challenges.withChallenge proof.challenge.val).length := by
          rw [hinserted, hrows, List.length_append, List.length_cons, List.length_singleton]
          omega
        refine iff_of_false (DbChallenge.not_ends_of_several mineConfig hseveral) ?_
        rintro (hnone | ⟨hone, hmeets⟩)
        · cases hnone
        · obtain ⟨err, herr⟩ := hmissing hmeets
          have hsingle : s.challenges.withChallenge proof.challenge.val = [row] := by
            rw [hrows, List.length_eq_zero_iff.mp (Nat.succ.inj hone)]
          have hfound : s.challenges.getChallengeByChallenge .postgres proof.challenge.val =
              .ok row := ChallengeTable.getChallengeByChallenge_single hsingle
          cases hfound.symm.trans herr

/-- The first start inserts the challenge, and the first task finds it. -/
theorem ends_firstStart : ∃ t,
    run (State.step Scenario.config) (.init Scenario.registry Scenario.challenges)
        (.start Scenario.proof :: (List.replicate 8 Attempt.answered).map .call) = some t ∧
      ∃ n, DbChallenge.Ended Scenario.proof t.challenges
        (DbChallenge.dbChallenge .postgres ⟨1001, 1000⟩ Scenario.proof t.challenges
          (fun _ => .answered) n) := by
  obtain ⟨t, hrun, hready⟩ := exists_run (State.step Scenario.config)
    (.init Scenario.registry Scenario.challenges)
    (.start Scenario.proof :: (List.replicate 8 Attempt.answered).map .call)
    (fun t : State => t.pc = .ready ⟨1001, 1000⟩) (by decide)
  exact ⟨t, hrun, (ends_of_start_iff _ _ t _ _ _ rfl hrun hready).mpr (.inl rfl)⟩

end Startup

end Hashpoo
