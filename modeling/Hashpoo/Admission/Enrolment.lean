import Hashpoo.Admission.Authentication

/-!
# Miners without rewards

A handshake inserts the miner, the pool and the rewards one call after the other, where
`signup_enrollment` uses one transaction. A handshake that ends in between leaves a miner
without rewards, and the next handshake of the key finds the miner and lets it in.

Nothing else goes wrong: as long as no enrolment is abandoned, and no second handshake of
the key is let in while one is under way, every miner that is let in has one row of rewards.
-/

namespace Hashpoo

open Foundation

namespace Registry

/-- Every miner has one row of rewards, and no row is waiting for a later miner. -/
structure Enrolled (reg : Registry) : Prop where
  rows : ∀ pubkey id, reg.db.miners.lookup pubkey = some id → (reg.db.rewardsOf id).length = 1
  fresh : ∀ row ∈ reg.db.rewards, row.minerId < reg.nextMiner

/-- The tables of the enrolment are the same: at most pools and flags differ. -/
structure Same (reg reg' : Registry) : Prop where
  miners : reg'.db.miners = reg.db.miners
  rewards : reg'.db.rewards = reg.db.rewards
  nextMiner : reg'.nextMiner = reg.nextMiner

variable {reg reg' : Registry} {pubkey : Pubkey} {id : Int}

theorem Same.refl (reg : Registry) : Same reg reg := ⟨rfl, rfl, rfl⟩

theorem Same.rewardsOf (h : Same reg reg') (id : Int) :
    reg'.db.rewardsOf id = reg.db.rewardsOf id := by
  simp only [Database.rewardsOf, h.rewards]

/-- The id of the next miner has no rewards yet. -/
theorem rewardsOf_nextMiner (hfresh : ∀ row ∈ reg.db.rewards, row.minerId < reg.nextMiner) :
    reg.db.rewardsOf reg.nextMiner = [] := by
  simp only [Database.rewardsOf, List.filter_eq_nil_iff, decide_eq_true_eq]
  intro row hrow heq
  exact absurd (hfresh row hrow) (by omega)

/-- The other miners stay. -/
theorem lookup_insertMiner (hnone : reg.db.miners.lookup pubkey = none) (isEnabled : Bool)
    {k : Pubkey} (h : reg.db.miners.lookup k = some id) :
    (reg.insertMiner pubkey isEnabled).db.miners.lookup k = some id := by
  rw [insertMiner_miners, HashMap.lookup_insert_eq_some]
  refine .inr ⟨?_, h⟩
  rintro rfl
  rw [hnone] at h
  cases h

theorem mem_insertReward {reward : InsertReward} {row : Reward} :
    row ∈ (reg.insertReward reward).db.rewards ↔
      row ∈ reg.db.rewards ∨ row = ⟨reward.minerId, 0⟩ := by
  simp [insertReward]

theorem length_insertReward_self {reward : InsertReward}
    (hempty : reg.db.rewardsOf reward.minerId = []) :
    ((reg.insertReward reward).db.rewardsOf reward.minerId).length = 1 := by
  simp [hempty]

/-- The first rewards of a miner are not those of another one. -/
theorem length_insertReward {reward : InsertReward} (hempty : reg.db.rewardsOf reward.minerId = [])
    (h : (reg.db.rewardsOf id).length = 1) :
    ((reg.insertReward reward).db.rewardsOf id).length = 1 := by
  have hne : id ≠ reward.minerId := by
    rintro rfl
    simp [hempty] at h
  rwa [insertReward_rewardsOf_ne hne]

end Registry

namespace Admission

variable {cfg : Config} {s t : State} {e : Event} {k : Nat} {h : Handshake} {reg reg' : Registry}

/-! ## Runs without a disturbance -/

/-- A handshake of the key has inserted its miner and not yet the rewards. -/
def State.Enrols (s : State) (pubkey : Pubkey) : Prop :=
  ∃ h ∈ HashMap.values s.handshakes, h.pc.Enrolling ∧ h.userPubkey = pubkey

instance (pubkey : Pubkey) : Decidable (s.Enrols pubkey) :=
  inferInstanceAs (Decidable (∃ h ∈ HashMap.values s.handshakes, _ ∧ _))

/-- The event does not abandon an enrolment, and does not let a client in whose miner is
still being enrolled. -/
def State.Undisturbed (cfg : Config) (s : State) : Event → Prop
  | .call k attempt => ∀ h ∈ s.handshakes.lookup k, ¬ Abandoned cfg s.registry attempt h.pc
  | .authorize k => ∀ h ∈ s.handshakes.lookup k, ∀ miner ∈ h.pc.miner,
      (authorize cfg h (some miner)).isOk = true → ¬ s.Enrols h.userPubkey
  | .arrive _ _ _ | .openSocket _ _ | .closeSocket _ | .signup _ _ | .signupCall _ _
  | .setEnabled _ _ => True

instance (cfg : Config) (s : State) : DecidablePred (s.Undisturbed cfg)
  | .call k attempt =>
      inferInstanceAs
        (Decidable (∀ h ∈ s.handshakes.lookup k, ¬ Abandoned cfg s.registry attempt h.pc))
  | .authorize k =>
      inferInstanceAs (Decidable (∀ h ∈ s.handshakes.lookup k, ∀ miner ∈ h.pc.miner, _ → ¬ _))
  | .arrive _ _ _ | .openSocket _ _ | .closeSocket _ | .signup _ _ | .signupCall _ _
  | .setEnabled _ _ => .isTrue trivial

/-- The handshake `k` is the one that enrols the key. -/
def EnrolsAt (handshakes : HashMap Nat Handshake) (k : Nat) (pubkey : Pubkey) : Prop :=
  ∃ h, handshakes.lookup k = some h ∧ h.pc.Enrolling ∧ h.userPubkey = pubkey

theorem State.enrols_iff {pubkey : Pubkey} :
    s.Enrols pubkey ↔ ∃ k, EnrolsAt s.handshakes k pubkey := by
  simp only [State.Enrols, HashMap.mem_values, EnrolsAt]
  constructor
  · rintro ⟨h, ⟨k, hk⟩, henrols⟩
    exact ⟨k, h, hk, henrols⟩
  · rintro ⟨k, h, hk, henrols⟩
    exact ⟨h, ⟨k, hk⟩, henrols⟩

section EnrolsAt

variable {handshakes : HashMap Nat Handshake} {k' : Nat} {pubkey : Pubkey}

theorem enrolsAt_insert : EnrolsAt (handshakes.insert k h) k' pubkey ↔
    k' = k ∧ h.pc.Enrolling ∧ h.userPubkey = pubkey ∨ k' ≠ k ∧ EnrolsAt handshakes k' pubkey := by
  simp only [EnrolsAt, HashMap.lookup_insert_eq_some]
  constructor
  · rintro ⟨h', ⟨rfl, rfl⟩ | ⟨hne, hold⟩, henrols⟩
    · exact .inl ⟨rfl, henrols⟩
    · exact .inr ⟨hne, h', hold, henrols⟩
  · rintro (⟨rfl, henrols⟩ | ⟨hne, h', hold, henrols⟩)
    · exact ⟨h, .inl ⟨rfl, rfl⟩, henrols⟩
    · exact ⟨h', .inr ⟨hne, hold⟩, henrols⟩

theorem enrolsAt_insert_of_not (hpc : ¬ h.pc.Enrolling) :
    EnrolsAt (handshakes.insert k h) k' pubkey ↔ k' ≠ k ∧ EnrolsAt handshakes k' pubkey := by
  simp [enrolsAt_insert, hpc]

theorem enrolsAt_erase :
    EnrolsAt (handshakes.erase k) k' pubkey ↔ k' ≠ k ∧ EnrolsAt handshakes k' pubkey := by
  simp only [EnrolsAt]
  constructor
  · rintro ⟨h', hk', henrols⟩
    refine ⟨?_, h', HashMap.lookup_of_erase hk', henrols⟩
    rintro rfl
    simp at hk'
  · rintro ⟨hne, h', hk', henrols⟩
    exact ⟨h', by rwa [AList.lookup_erase_ne hne], henrols⟩

theorem EnrolsAt.of_lookup (henrols : EnrolsAt handshakes k pubkey)
    (hk : handshakes.lookup k = some h) : h.pc.Enrolling ∧ h.userPubkey = pubkey := by
  obtain ⟨h', hk', henrolling⟩ := henrols
  cases hk.symm.trans hk'
  exact henrolling

/-- A handshake that enrols as before leaves all enrolments as they are. -/
theorem enrolsAt_insert_iff {hold : Handshake} (hk : handshakes.lookup k = some hold)
    (hkey : h.userPubkey = hold.userPubkey) (hiff : h.pc.Enrolling ↔ hold.pc.Enrolling) :
    EnrolsAt (handshakes.insert k h) k' pubkey ↔ EnrolsAt handshakes k' pubkey := by
  rw [enrolsAt_insert]
  by_cases heq : k' = k
  · subst heq
    simp [EnrolsAt, hk, hkey, hiff]
  · simp [heq]

end EnrolsAt

/-! ## Handshakes and their rows -/

/-- What a handshake knows of the tables, with a database. -/
structure Handshake.Tracked (reg : Registry) (h : Handshake) : Prop where
  known : ∀ miner, h.pc.miner = some miner → reg.db.miners.lookup h.userPubkey = some miner.id
  /-- The miner under enrolment is in the table and has no rewards. -/
  enrolling : h.pc.Enrolling →
    ∃ id, reg.db.miners.lookup h.userPubkey = some id ∧ reg.db.rewardsOf id = []
  poolAdded : ∀ miner, h.pc ≠ .getNewPool true false miner
  waits : h.pc ≠ .verify none

namespace Handshake.Tracked

theorem same (htracked : h.Tracked reg) (hsame : reg.Same reg') : h.Tracked reg' where
  known := by
    rw [hsame.miners]
    exact htracked.known
  enrolling henrolling := by
    obtain ⟨id, hid, hrows⟩ := htracked.enrolling henrolling
    exact ⟨id, by rwa [hsame.miners], by rwa [hsame.rewardsOf]⟩
  poolAdded := htracked.poolAdded
  waits := htracked.waits

theorem arrive {r : Request} {now : UInt64} (hdbms : cfg.poweredByDbms = true)
    (harrive : arrive cfg now r = .ok h) : ¬ h.pc.Enrolling ∧ h.Tracked reg := by
  rw [Admission.arrive] at harrive
  split at harrive
  · cases harrive
  · split at harrive
    · cases harrive
      refine ⟨id, ?_, ?_, ?_, ?_⟩
      · intro miner hminer
        cases hminer
      · intro henrolling
        cases henrolling
      · intro miner hpc
        cases hpc
      · intro hpc
        cases hpc
    · cases harrive

/-- Another miner is inserted. -/
theorem insertMiner (htracked : h.Tracked reg) {pubkey : Pubkey}
    (hnone : reg.db.miners.lookup pubkey = none) : h.Tracked (reg.insertMiner pubkey true) where
  known miner hminer := Registry.lookup_insertMiner hnone true (htracked.known miner hminer)
  enrolling henrolling := by
    obtain ⟨id, hid, hrows⟩ := htracked.enrolling henrolling
    exact ⟨id, Registry.lookup_insertMiner hnone true hid, hrows⟩
  poolAdded := htracked.poolAdded
  waits := htracked.waits

/-- Another miner is given its rewards. -/
theorem insertReward (htracked : h.Tracked reg) {reward : InsertReward}
    (hother : h.pc.Enrolling → reg.db.miners.lookup h.userPubkey ≠ some reward.minerId) :
    h.Tracked (reg.insertReward reward) where
  known := htracked.known
  enrolling henrolling := by
    obtain ⟨id, hid, hrows⟩ := htracked.enrolling henrolling
    have hne : id ≠ reward.minerId := by
      rintro rfl
      exact hother henrolling hid
    exact ⟨id, hid, by rwa [Registry.insertReward_rewardsOf_ne hne]⟩
  poolAdded := htracked.poolAdded
  waits := htracked.waits

end Handshake.Tracked

/-! ## Calls -/

theorem Calls.of_reject {userPubkey : Pubkey} {attempt : Attempt} {pc : HandshakePc}
    {rejection : Rejection} (h : Calls cfg reg userPubkey pc attempt (.reject rejection) reg')
    (henrolling : pc.Enrolling) :
    Abandoned cfg reg attempt pc ∨ ∃ miner, pc = .getNewPool true false miner := by
  cases h with
  | reject _ _ _ hends => exact hends henrolling

/-- A call begins an enrolment, ends it, or leaves it as it is. -/
theorem Calls.enrolment {userPubkey : Pubkey} {attempt : Attempt} {pc pc' : HandshakePc}
    (h : Calls cfg reg userPubkey pc attempt (.next pc') reg')
    (hok : ¬ Abandoned cfg reg attempt pc) :
    pc' = .getNewMiner true ∧ reg.db.miners.lookup userPubkey = none ∧
        reg' = reg.insertMiner userPubkey true ∨
      (∃ miner pool, pc = .addReward miner pool ∧ pc' = .verify (some miner) ∧
        reg' = reg.insertReward ⟨miner.id, pool.id⟩) ∨
      reg.Same reg' ∧ (pc'.Enrolling ↔ pc.Enrolling) ∧
        ((∀ miner, pc ≠ .getNewPool true false miner) →
          ∀ miner, pc' ≠ .getNewPool true false miner) := by
  cases h with
  | inserted hnone => exact .inl ⟨rfl, hnone, rfl⟩
  | rewarded miner pool => exact .inr (.inl ⟨miner, pool, rfl, rfl, rfl⟩)
  | poolInserted added miner reg' hadd =>
      obtain ⟨hminers, hrewards, hnextMiner⟩ := Registry.addNewPool_db hadd
      exact .inr (.inr ⟨⟨hminers, hrewards, hnextMiner⟩, Iff.rfl, fun _ => nofun⟩)
  | poolNotInserted attempt added miner habandoned =>
      refine .inr (.inr ⟨.refl reg, Iff.rfl, fun _ miner' heq => hok (habandoned ?_)⟩)
      cases heq
      rfl
  | idle => exact .inr (.inr ⟨.refl reg, Iff.rfl, id⟩)
  | found | missing | notInserted | newMiner | pool | noPool | newPool =>
      exact .inr (.inr ⟨.refl reg, by simp [HandshakePc.Enrolling], fun _ => nofun⟩)

/-- The id of the upgrade is that of the miner. -/
theorem authorize_some {miner : Miner} {minerId : Int}
    (hauthorize : authorize cfg h (some miner) = .ok minerId) : miner.id = minerId := by
  rw [authorize] at hauthorize
  split at hauthorize
  · cases hauthorize
  · split at hauthorize
    · split at hauthorize
      · exact Except.ok.inj hauthorize
      · cases hauthorize
    · cases hauthorize

/-! ## States -/

/-- The invariant of the runs with a database. -/
structure State.Tracked (s : State) : Prop where
  handshakes : ∀ k h, s.handshakes.lookup k = some h → h.Tracked s.registry
  alone : ∀ k k' pubkey, EnrolsAt s.handshakes k pubkey → EnrolsAt s.handshakes k' pubkey → k = k'
  /-- A miner has one row of rewards unless a handshake is going to insert it. -/
  rows : ∀ pubkey id, s.registry.db.miners.lookup pubkey = some id →
    (∃ k, EnrolsAt s.handshakes k pubkey) ∨ (s.registry.db.rewardsOf id).length = 1
  fresh : ∀ row ∈ s.registry.db.rewards, row.minerId < s.registry.nextMiner
  accepted : ∀ minerId ∈ s.accepted, (s.registry.db.rewardsOf minerId).length = 1

namespace State.Tracked

theorem start (hreg : reg.Enrolled) : (State.start reg).Tracked where
  handshakes _ _ hk := by cases hk
  alone _ _ _ := by
    rintro ⟨_, hk, _⟩
    cases hk
  rows pubkey id hid := .inr (hreg.rows pubkey id hid)
  fresh := hreg.fresh
  accepted := nofun

/-- The step leaves tables and enrolments as they are. -/
theorem of_same (hs : s.Tracked) (hsame : s.registry.Same t.registry)
    (hhandshakes : ∀ k h, t.handshakes.lookup k = some h → h.Tracked t.registry)
    (henrols : ∀ k pubkey, EnrolsAt t.handshakes k pubkey ↔ EnrolsAt s.handshakes k pubkey)
    (haccepted : ∀ minerId ∈ t.accepted, (s.registry.db.rewardsOf minerId).length = 1) :
    t.Tracked where
  handshakes := hhandshakes
  alone k k' pubkey hk hk' :=
    hs.alone k k' pubkey ((henrols k pubkey).mp hk) ((henrols k' pubkey).mp hk')
  rows pubkey id hid := by
    simp only [henrols, hsame.rewardsOf]
    exact hs.rows pubkey id (by rwa [← hsame.miners])
  fresh := by
    rw [hsame.rewards, hsame.nextMiner]
    exact hs.fresh
  accepted minerId hmem := by
    rw [hsame.rewardsOf]
    exact haccepted minerId hmem

/-- A handshake goes on without a change of its enrolment. -/
theorem goto (hs : s.Tracked) (hk : s.handshakes.lookup k = some h) {pc : HandshakePc}
    (hsame : s.registry.Same reg) (htracked : ({ h with pc := pc } : Handshake).Tracked reg)
    (hiff : pc.Enrolling ↔ h.pc.Enrolling) :
    State.Tracked { s.goto k h pc with registry := reg } := by
  refine hs.of_same hsame (fun k' h' hk' => ?_) (fun k' pubkey => enrolsAt_insert_iff hk rfl hiff)
    hs.accepted
  obtain ⟨-, rfl⟩ | ⟨-, hold⟩ := HashMap.lookup_insert_eq_some.mp hk'
  · exact htracked
  · exact (hs.handshakes k' h' hold).same hsame

/-- A handshake ends that does not enrol. -/
theorem reject (hs : s.Tracked) (hk : s.handshakes.lookup k = some h) (hpc : ¬ h.pc.Enrolling) :
    (s.reject k).Tracked := by
  refine hs.of_same (.refl _) (fun k' h' hk' => ?_) (fun k' pubkey => ?_) hs.accepted
  · exact hs.handshakes k' h' (HashMap.lookup_of_erase hk')
  · rw [show (s.reject k).handshakes = s.handshakes.erase k from rfl, enrolsAt_erase,
      and_iff_right_iff_imp]
    rintro henrols rfl
    exact hpc (henrols.of_lookup hk).1

/-- A key without a miner is not being enrolled. -/
theorem not_enrolsAt (hs : s.Tracked) {pubkey : Pubkey}
    (hnone : s.registry.db.miners.lookup pubkey = none) : ¬ EnrolsAt s.handshakes k pubkey := by
  rintro ⟨h, hk, henrolling, rfl⟩
  obtain ⟨id, hid, -⟩ := (hs.handshakes k h hk).enrolling henrolling
  rw [hnone] at hid
  cases hid

/-- A handshake begins its enrolment. -/
theorem inserted (hs : s.Tracked) (hk : s.handshakes.lookup k = some h)
    (hnone : s.registry.db.miners.lookup h.userPubkey = none) :
    State.Tracked { s.goto k h (.getNewMiner true) with
      registry := s.registry.insertMiner h.userPubkey true } where
  handshakes k' h' hk' := by
    obtain ⟨-, rfl⟩ | ⟨-, hold⟩ := HashMap.lookup_insert_eq_some.mp hk'
    · refine ⟨nofun, fun _ => ⟨s.registry.nextMiner, ?_, ?_⟩, nofun, nofun⟩
      · simp
      · exact Registry.rewardsOf_nextMiner hs.fresh
    · exact (hs.handshakes k' h' hold).insertMiner hnone
  alone k₁ k₂ pubkey h₁ h₂ := by
    obtain ⟨rfl, -, rfl⟩ | ⟨-, hold₁⟩ := enrolsAt_insert.mp h₁ <;>
      obtain ⟨rfl, -, hkey⟩ | ⟨-, hold₂⟩ := enrolsAt_insert.mp h₂
    · rfl
    · exact absurd hold₂ (hs.not_enrolsAt hnone)
    · exact absurd hold₁ (hkey ▸ hs.not_enrolsAt hnone)
    · exact hs.alone k₁ k₂ pubkey hold₁ hold₂
  rows pubkey id hid := by
    obtain ⟨rfl, -⟩ | ⟨-, hold⟩ := HashMap.lookup_insert_eq_some.mp hid
    · exact .inl ⟨k, enrolsAt_insert.mpr (.inl ⟨rfl, rfl, rfl⟩)⟩
    · refine (hs.rows pubkey id hold).imp_left fun ⟨k', henrols⟩ => ?_
      refine ⟨k', enrolsAt_insert.mpr (.inr ⟨?_, henrols⟩)⟩
      rintro rfl
      obtain ⟨-, rfl⟩ := henrols.of_lookup hk
      rw [hnone] at hold
      cases hold
  fresh row hrow := by
    have hlt := hs.fresh row hrow
    show row.minerId < s.registry.nextMiner + 1
    omega
  accepted := hs.accepted

/-- A handshake comes to the end of its enrolment. -/
theorem rewarded (hs : s.Tracked) (hk : s.handshakes.lookup k = some h) {miner : Miner}
    {pool : Pool} (hpc : h.pc = .addReward miner pool) :
    State.Tracked { s.goto k h (.verify (some miner)) with
      registry := s.registry.insertReward ⟨miner.id, pool.id⟩ } := by
  have hknown : s.registry.db.miners.lookup h.userPubkey = some miner.id :=
    (hs.handshakes k h hk).known miner (by rw [hpc]; rfl)
  have hat : EnrolsAt s.handshakes k h.userPubkey := ⟨h, hk, by rw [hpc]; trivial, rfl⟩
  have hempty : s.registry.db.rewardsOf miner.id = [] := by
    obtain ⟨id, hid, hrows⟩ := (hs.handshakes k h hk).enrolling (by rw [hpc]; trivial)
    cases hknown.symm.trans hid
    exact hrows
  have hdone : ¬ HandshakePc.Enrolling (.verify (some miner)) := id
  constructor
  case handshakes =>
    intro k' h' hk'
    obtain ⟨-, rfl⟩ | ⟨hne, hold⟩ := HashMap.lookup_insert_eq_some.mp hk'
    · refine ⟨fun miner' hminer => ?_, nofun, nofun, nofun⟩
      cases hminer
      exact hknown
    · refine (hs.handshakes k' h' hold).insertReward fun henrolling hid => hne ?_
      have hkey := s.registry.db.minerIds _ _ _ hid hknown
      exact hs.alone k' k h.userPubkey ⟨h', hold, henrolling, hkey⟩ hat
  case alone =>
    intro k₁ k₂ pubkey h₁ h₂
    obtain ⟨-, hold₁⟩ := (enrolsAt_insert_of_not hdone).mp h₁
    obtain ⟨-, hold₂⟩ := (enrolsAt_insert_of_not hdone).mp h₂
    exact hs.alone k₁ k₂ pubkey hold₁ hold₂
  case rows =>
    intro pubkey id hid
    by_cases heq : id = miner.id
    · subst heq
      exact .inr (Registry.length_insertReward_self hempty)
    · rw [Registry.insertReward_rewardsOf_ne heq]
      refine (hs.rows pubkey id hid).imp_left fun ⟨k', henrols⟩ => ?_
      refine ⟨k', (enrolsAt_insert_of_not hdone).mpr ⟨?_, henrols⟩⟩
      rintro rfl
      obtain ⟨-, rfl⟩ := henrols.of_lookup hk
      exact heq (Option.some.inj (hid.symm.trans hknown))
  case fresh =>
    intro row hrow
    obtain hold | rfl := Registry.mem_insertReward.mp hrow
    · exact hs.fresh row hold
    · exact s.registry.minerIds_lt h.userPubkey miner.id hknown
  case accepted =>
    intro minerId hmem
    exact Registry.length_insertReward hempty (hs.accepted minerId hmem)

/-- A signup enrols a miner at once. -/
theorem enrolled (hs : s.Tracked) {pubkey : Pubkey} (poolId : Int)
    (hnone : s.registry.db.miners.lookup pubkey = none) (signups : HashMap Nat Signup) :
    State.Tracked { s with
      registry := (s.registry.insertMiner pubkey true).insertReward ⟨s.registry.nextMiner, poolId⟩
      signups := signups } := by
  have hempty := Registry.rewardsOf_nextMiner hs.fresh
  constructor
  case handshakes =>
    intro k h hk
    refine ((hs.handshakes k h hk).insertMiner hnone).insertReward fun henrolling hid => ?_
    obtain ⟨id, hold, -⟩ := (hs.handshakes k h hk).enrolling henrolling
    have hlt := s.registry.minerIds_lt _ _ hold
    cases hid.symm.trans (Registry.lookup_insertMiner hnone true hold)
    exact absurd hlt (Int.lt_irrefl _)
  case alone => exact hs.alone
  case rows =>
    intro pubkey' id hid
    obtain ⟨-, rfl⟩ | ⟨-, hold⟩ := HashMap.lookup_insert_eq_some.mp hid
    · exact .inr (Registry.length_insertReward_self hempty)
    · have hne : id ≠ s.registry.nextMiner := Int.ne_of_lt (s.registry.minerIds_lt _ _ hold)
      rw [Registry.insertReward_rewardsOf_ne hne]
      exact hs.rows pubkey' id hold
  case fresh =>
    intro row hrow
    show row.minerId < s.registry.nextMiner + 1
    obtain hold | rfl := Registry.mem_insertReward.mp hrow
    · have hlt := hs.fresh row hold
      omega
    · exact Int.lt_succ _
  case accepted =>
    intro minerId hmem
    exact Registry.length_insertReward hempty (hs.accepted minerId hmem)

/-- A client is let in whose miner is not being enrolled. -/
theorem accept (hs : s.Tracked) (hk : s.handshakes.lookup k = some h) {miner : Option Miner}
    {minerId : Int} (hpc : h.pc = .verify miner) (hauthorize : authorize cfg h miner = .ok minerId)
    (hok : s.Undisturbed cfg (.authorize k)) : (s.accept k h minerId).Tracked := by
  have hgoto : State.Tracked { s.goto k h (.upgrade minerId) with registry := s.registry } :=
    hs.goto hk (.refl _) ⟨nofun, nofun, nofun, nofun⟩ (by rw [hpc]; exact Iff.rfl)
  have hreward : (s.registry.db.rewardsOf minerId).length = 1 := by
    cases miner with
    | none => exact absurd hpc (hs.handshakes k h hk).waits
    | some miner =>
        have hminer : h.pc.miner = some miner := by rw [hpc]; rfl
        obtain henrols | hone := hs.rows _ _ ((hs.handshakes k h hk).known miner hminer)
        · have hpasses : (authorize cfg h (some miner)).isOk = true := by rw [hauthorize]; rfl
          exact absurd (State.enrols_iff.mpr henrols) (hok h hk miner hminer hpasses)
        · rwa [← authorize_some hauthorize]
  refine ⟨hgoto.handshakes, hgoto.alone, hgoto.rows, hgoto.fresh, fun id hid => ?_⟩
  obtain rfl | hold := List.mem_cons.mp hid
  · exact hreward
  · exact hs.accepted id hold

/-- A database call that does not end its handshake. -/
theorem next (hs : s.Tracked) {attempt : Attempt} {pc : HandshakePc}
    (hk : s.handshakes.lookup k = some h)
    (hcalls : Calls cfg s.registry h.userPubkey h.pc attempt (.next pc) reg)
    (hok : ¬ Abandoned cfg s.registry attempt h.pc) :
    State.Tracked { s.goto k h pc with registry := reg } := by
  have hh := hs.handshakes k h hk
  obtain ⟨rfl, hnone, rfl⟩ | ⟨miner, pool, hpc, rfl, rfl⟩ | ⟨hsame, hiff, hpool⟩ :=
    hcalls.enrolment hok
  · exact hs.inserted hk hnone
  · exact hs.rewarded hk hpc
  · refine hs.goto hk hsame (.same ⟨fun miner hminer => ?_, ?_, hpool hh.poolAdded, ?_⟩ hsame) hiff
    · obtain hold | ⟨-, -, hread⟩ := hcalls.miner hminer
      · exact hh.known miner hold
      · exact (Registry.getMinerByPubkeyStr_eq.mp hread).1
    · intro henrolling
      exact hh.enrolling (hiff.mp henrolling)
    · intro hverify
      exact hh.waits (hcalls.of_verify_none hverify)

theorem step (hdbms : cfg.poweredByDbms = true) (hs : s.Tracked) (hok : s.Undisturbed cfg e)
    (hsteps : s.Steps cfg e t) : t.Tracked := by
  cases hsteps with
  | arrive k r now h hk harrive =>
      obtain ⟨hpc, htracked⟩ := Handshake.Tracked.arrive hdbms harrive
      refine hs.of_same (.refl _) (fun k' h' hk' => ?_) (fun k' pubkey => ?_) hs.accepted
      · obtain ⟨-, rfl⟩ | ⟨-, hold⟩ := HashMap.lookup_insert_eq_some.mp hk'
        · exact htracked
        · exact hs.handshakes k' h' hold
      · rw [enrolsAt_insert_of_not hpc, and_iff_right_iff_imp]
        rintro ⟨h', hk', -⟩ rfl
        exact hk (AList.lookup_isSome.mp (by simp [hk']))
  | unchanged => exact hs
  | next k attempt h pc reg hk hcalls => exact hs.next hk hcalls (hok h hk)
  | rejected k attempt h rejection hk hcalls =>
      refine hs.reject hk fun henrolling => ?_
      obtain habandoned | ⟨miner, hpc⟩ := hcalls.of_reject henrolling
      · exact hok h hk habandoned
      · exact (hs.handshakes k h hk).poolAdded miner hpc
  | accepted k h miner minerId hk hpc hauthorize => exact hs.accept hk hpc hauthorize hok
  | dropped e k h hk hpc => exact hs.reject hk hpc
  | opened k pinged h minerId hk hpc _ =>
      have hreject := hs.reject hk (by rw [hpc]; exact id)
      exact ⟨hreject.handshakes, hreject.alone, hreject.rows, hreject.fresh, hreject.accepted⟩
  | enrolled k attempt pubkey poolId hnone => exact hs.enrolled poolId hnone _
  | setEnabled pubkey enabled =>
      exact hs.of_same ⟨rfl, rfl, rfl⟩
        (fun k h hk => (hs.handshakes k h hk).same ⟨rfl, rfl, rfl⟩) (fun _ _ => Iff.rfl) hs.accepted
  | panic | closed | signup =>
      exact ⟨hs.handshakes, hs.alone, hs.rows, hs.fresh, hs.accepted⟩

end State.Tracked

/-! ## Runs -/

/-- As long as no enrolment is disturbed, every miner that has been let in has exactly one
row of rewards. -/
theorem rewarded_of_run (cfg : Config) (registry : Registry) (events : List Event) (s : State)
    (hdbms : cfg.poweredByDbms = true) (hstart : registry.Enrolled)
    (hok : Meets (State.step cfg) (State.Undisturbed cfg) (.start registry) events)
    (hrun : run (State.step cfg) (.start registry) events = some s) :
    ∀ minerId ∈ s.accepted, (s.registry.db.rewardsOf minerId).length = 1 := by
  have hs : s.Tracked :=
    invariant_of_meets (fun _ _ _ hs hok hstep => hs.step hdbms hok (State.step_steps hstep))
      (State.Tracked.start hstart) hok hrun
  exact hs.accepted

theorem Scenario.registry_enrolled : Scenario.registry.Enrolled where
  rows _ _ hid := by cases hid
  fresh := nofun

/-- The first miner of the server is let in with its row of rewards. -/
theorem rewarded_firstHandshake : ∃ s,
    run (State.step Scenario.config) (.start Scenario.registry) Scenario.firstHandshake = some s ∧
      1000 ∈ s.accepted ∧ (s.registry.db.rewardsOf 1000).length = 1 := by
  obtain ⟨s, hrun, hmem⟩ := exists_run (State.step Scenario.config) (.start Scenario.registry)
    Scenario.firstHandshake (fun s : State => (1000 : Int) ∈ s.accepted) (by decide)
  exact ⟨s, hrun, hmem, rewarded_of_run Scenario.config _ _ s rfl Scenario.registry_enrolled
    (by decide) hrun 1000 hmem⟩

/-- The first handshake gets no connection for the rewards, and the second one finds the
miner. -/
def Scenario.secondHandshake : List Event :=
  [.arrive 0 (Scenario.request 7 1000) 1010, .call 0 .answered, .call 0 .answered,
    .call 0 .answered, .call 0 .answered, .call 0 (.failed .failedToGetConnectionFromPool),
    .arrive 1 (Scenario.request 8 1020) 1025, .call 1 .answered, .authorize 1]

/-- A miner is let in without rewards after an enrolment that was abandoned. -/
theorem not_rewarded : ¬ ∀ (cfg : Config) (registry : Registry) (events : List Event) (s : State),
    cfg.poweredByDbms = true → registry.Enrolled →
    run (State.step cfg) (.start registry) events = some s →
    ∀ minerId ∈ s.accepted, (s.registry.db.rewardsOf minerId).length = 1 := by
  intro hclaim
  obtain ⟨s, hrun, hmem, hnone⟩ := exists_run (State.step Scenario.config)
    (.start Scenario.registry) Scenario.secondHandshake
    (fun s : State => (1000 : Int) ∈ s.accepted ∧ (s.registry.db.rewardsOf 1000).length = 0)
    (by decide)
  have hone := hclaim _ _ _ s rfl Scenario.registry_enrolled hrun 1000 hmem
  omega

end Admission

end Hashpoo
