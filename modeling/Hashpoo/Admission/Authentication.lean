import Hashpoo.Admission.System
import Hashpoo.Foundation.History

/-!
# Authenticated sockets

Whoever has a socket has proved to own its key: the request carried a signature of its
timestamp under the key, and the timestamp was at most 30 seconds old. The subtraction
of the check wraps, so a timestamp of the future looks very old, unless the clock itself
shows less than 30. With a database, the miner id is that of an enabled miner of the key.
-/

namespace Hashpoo.Admission

open Foundation

variable {cfg : Config} {g g' : List (State × Event)} {s t : State} {e : Event}

/-! ## What a connection rests on -/

/-- The timestamp is of the last 30 seconds, on integers. -/
def Request.Fresh (r : Request) (now : UInt64) : Prop :=
  (0 : Int) ≤ now.toNat - r.timestamp.toNat ∧ (now.toNat : Int) - r.timestamp.toNat < 30

/-- The password is a signature of the timestamp under the key. -/
def Request.Signed (cfg : Config) (r : Request) (pubkey : Pubkey) : Prop :=
  ∃ signature, cfg.sdk.fromStr r.password = some signature ∧
    cfg.sdk.verify signature pubkey (Word.toLeBytes 8 r.timestamp.toNat) = true

/-- The next call is a query of the miner. -/
def HandshakePc.Reads (pc : HandshakePc) : Prop := pc = .getMiner ∨ ∃ added, pc = .getNewMiner added

/-- The handshake of the request has read the row of the miner. -/
def Read (g : List (State × Event)) (r : Request) (pubkey : Pubkey) (miner : Miner) : Prop :=
  ∃ u k h, (u, Event.call k .answered) ∈ g ∧ u.handshakes.lookup k = some h ∧
    h.request = r ∧ h.userPubkey = pubkey ∧ h.pc.Reads ∧
    u.registry.getMinerByPubkeyStr pubkey = .ok miner

/-- The request behind a connection of `pubkey` as `minerId`, in a run with the trace `g`. -/
structure Authentic (cfg : Config) (g : List (State × Event)) (r : Request) (pubkey : Pubkey)
    (minerId : Int) : Prop where
  key : cfg.pubkeyFromStr r.username = some pubkey
  signed : r.Signed cfg pubkey
  fresh : ∃ u k now, (u, Event.arrive k r now) ∈ g ∧ r.Fresh now
  /-- The miner was enabled when the handshake read its row. -/
  enabled : cfg.poweredByDbms = true → Read g r pubkey ⟨minerId, true⟩

/-- A difference of words below 30 is the difference of the numbers, once the clock has
passed 30. -/
theorem Request.fresh_of_sub_lt {r : Request} {now : UInt64} (hclock : 30 ≤ now)
    (h : now - r.timestamp < 30) : r.Fresh now := by
  have hnow : 30 ≤ now.toNat := UInt64.le_iff_toNat_le.mp hclock
  have hlt : (now - r.timestamp).toNat < 30 := UInt64.lt_iff_toNat_lt.mp h
  have hts := r.timestamp.toNat_lt
  have hsize := now.toNat_lt
  rw [UInt64.toNat_sub] at hlt
  rw [Request.Fresh]
  omega

/-! ## Handshakes -/

/-- What is known of a handshake under way. -/
structure Handshake.Sound (cfg : Config) (g : List (State × Event)) (h : Handshake) : Prop where
  key : cfg.pubkeyFromStr h.request.username = some h.userPubkey
  arrived : ∃ u k now, (u, Event.arrive k h.request now) ∈ g ∧ now - h.request.timestamp < 30
  /-- With a database, the checks wait for a miner. -/
  waits : cfg.poweredByDbms = true → h.pc ≠ .verify none
  read : ∀ miner, h.pc.miner = some miner → Read g h.request h.userPubkey miner
  upgraded : ∀ minerId, h.pc = .upgrade minerId → h.request.Signed cfg h.userPubkey ∧
    (cfg.poweredByDbms = true → Read g h.request h.userPubkey ⟨minerId, true⟩)

theorem Read.mono {r : Request} {pubkey : Pubkey} {miner : Miner} (h : Read g r pubkey miner)
    (hsub : g ⊆ g') : Read g' r pubkey miner := by
  obtain ⟨u, k, hs, hmem, hrest⟩ := h
  exact ⟨u, k, hs, hsub hmem, hrest⟩

namespace Calls

variable {reg reg' : Registry} {userPubkey : Pubkey} {attempt : Attempt} {pc pc' : HandshakePc}

/-- A miner that the handshake goes on with was known before or has just been read. -/
theorem miner (h : Calls cfg reg userPubkey pc attempt (.next pc') reg') {miner : Miner}
    (hminer : pc'.miner = some miner) : pc.miner = some miner ∨
      attempt = .answered ∧ pc.Reads ∧ reg.getMinerByPubkeyStr userPubkey = .ok miner := by
  cases h with
  | found miner hread =>
      cases hminer
      exact .inr ⟨rfl, .inl rfl, hread⟩
  | newMiner added miner hread =>
      cases hminer
      exact .inr ⟨rfl, .inr ⟨added, rfl⟩, hread⟩
  | _ => exact .inl hminer

theorem of_verify_none (h : Calls cfg reg userPubkey pc attempt (.next pc') reg')
    (hpc : pc' = .verify none) : pc = .verify none := by
  cases h with
  | idle => exact hpc
  | _ => cases hpc

theorem of_upgrade (h : Calls cfg reg userPubkey pc attempt (.next pc') reg') {minerId : Int}
    (hpc : pc' = .upgrade minerId) : pc = .upgrade minerId := by
  cases h with
  | idle => exact hpc
  | _ => cases hpc

end Calls

namespace Handshake.Sound

variable {h : Handshake}

theorem mono (hsound : h.Sound cfg g) (hsub : g ⊆ g') : h.Sound cfg g' where
  key := hsound.key
  arrived := by
    obtain ⟨u, k, now, hmem, hnow⟩ := hsound.arrived
    exact ⟨u, k, now, hsub hmem, hnow⟩
  waits := hsound.waits
  read miner hminer := (hsound.read miner hminer).mono hsub
  upgraded minerId hpc := by
    obtain ⟨hsigned, hread⟩ := hsound.upgraded minerId hpc
    exact ⟨hsigned, fun hdbms => (hread hdbms).mono hsub⟩

theorem arrive {r : Request} {now : UInt64} {k : Nat} (harrive : arrive cfg now r = .ok h) :
    h.Sound cfg (g ++ [(s, .arrive k r now)]) := by
  rw [Admission.arrive] at harrive
  split at harrive
  · cases harrive
  · next hfresh =>
    split at harrive
    · next userPubkey hkey =>
      cases harrive
      refine ⟨hkey, ⟨s, k, now, by simp, UInt64.not_le.mp hfresh⟩, ?_, ?_, ?_⟩
      · intro hdbms
        simp [hdbms]
      · intro miner hminer
        split at hminer <;> cases hminer
      · intro minerId hpc
        split at hpc <;> cases hpc
    · cases harrive

/-- The handshake goes on after a database call. -/
theorem next (hsound : h.Sound cfg g) {k : Nat} {attempt : Attempt} {pc : HandshakePc}
    {reg : Registry} (hk : s.handshakes.lookup k = some h)
    (hcalls : Calls cfg s.registry h.userPubkey h.pc attempt (.next pc) reg) :
    ({ h with pc := pc } : Handshake).Sound cfg (g ++ [(s, .call k attempt)]) where
  key := hsound.key
  arrived := (hsound.mono (List.subset_append_left g _)).arrived
  waits hdbms hpc := hsound.waits hdbms (hcalls.of_verify_none hpc)
  read miner hminer := by
    obtain hold | ⟨rfl, hreads, hread⟩ := hcalls.miner hminer
    · exact (hsound.read miner hold).mono (List.subset_append_left g _)
    · exact ⟨s, k, h, by simp, hk, rfl, rfl, hreads, hread⟩
  upgraded minerId hpc :=
    (hsound.mono (List.subset_append_left g _)).upgraded minerId (hcalls.of_upgrade hpc)

/-- The upgrade is answered: signature and miner have been checked. -/
theorem accept (hsound : h.Sound cfg g) {miner : Option Miner} {minerId : Int}
    (hpc : h.pc = .verify miner) (hauthorize : authorize cfg h miner = .ok minerId) :
    ({ h with pc := .upgrade minerId } : Handshake).Sound cfg g where
  key := hsound.key
  arrived := hsound.arrived
  waits _ := nofun
  read _ := nofun
  upgraded id hid := by
    obtain rfl : minerId = id := HandshakePc.upgrade.inj hid
    rw [authorize] at hauthorize
    split at hauthorize
    · cases hauthorize
    · next hdisabled =>
      split at hauthorize
      · next signature hsignature =>
        split at hauthorize
        · next hverify =>
          cases hauthorize
          refine ⟨⟨signature, hsignature, hverify⟩, fun hdbms => ?_⟩
          cases miner with
          | none => exact absurd hpc (hsound.waits hdbms)
          | some miner =>
              have henabled : miner.enabled = true := by simpa using hdisabled
              have hread := hsound.read miner (by rw [hpc]; rfl)
              rwa [← henabled]
        · cases hauthorize
      · cases hauthorize

end Handshake.Sound

/-! ## Runs -/

/-- Every handshake under way is sound, and every socket is authentic. -/
structure Authenticated (cfg : Config) (g : List (State × Event)) (s : State) : Prop where
  handshakes : ∀ k h, s.handshakes.lookup k = some h → h.Sound cfg g
  sockets : ∀ addr conn, s.sockets.lookup addr = some conn → ∃ h : Handshake,
    h.request.addr = addr ∧ h.userPubkey = conn.pubkey ∧
      ({ h with pc := .upgrade conn.minerId } : Handshake).Sound cfg g

namespace Authenticated

theorem start (registry : Registry) : Authenticated cfg [] (.start registry) where
  handshakes _ _ hk := by cases hk
  sockets _ _ hconn := by cases hconn

theorem mono (h : Authenticated cfg g s) (hsub : g ⊆ g') : Authenticated cfg g' s where
  handshakes k hs hk := (h.handshakes k hs hk).mono hsub
  sockets addr conn hconn := by
    obtain ⟨hs, haddr, hpubkey, hsound⟩ := h.sockets addr conn hconn
    exact ⟨hs, haddr, hpubkey, hsound.mono hsub⟩

theorem insert (h : Authenticated cfg g s) {k : Nat} {hs : Handshake} (hsound : hs.Sound cfg g) :
    Authenticated cfg g { s with handshakes := s.handshakes.insert k hs } where
  handshakes k' h' hk' := by
    obtain ⟨-, rfl⟩ | ⟨-, hold⟩ := HashMap.lookup_insert_eq_some.mp hk'
    · exact hsound
    · exact h.handshakes k' h' hold
  sockets := h.sockets

theorem reject (h : Authenticated cfg g s) (k : Nat) : Authenticated cfg g (s.reject k) where
  handshakes k' h' hk' := h.handshakes k' h' (HashMap.lookup_of_erase hk')
  sockets := h.sockets

theorem step (h : Authenticated cfg g s) (hsteps : s.Steps cfg e t) :
    Authenticated cfg (g ++ [(s, e)]) t := by
  have hmono := h.mono (List.subset_append_left g [(s, e)])
  cases hsteps with
  | arrive k r now hs _ harrive => exact hmono.insert (.arrive harrive)
  | unchanged => exact hmono
  | next k attempt hs pc reg hk hcalls =>
      have hnext := hmono.insert (k := k) ((h.handshakes k hs hk).next hk hcalls)
      exact ⟨hnext.handshakes, hnext.sockets⟩
  | rejected k => exact hmono.reject k
  | panic => exact ⟨hmono.handshakes, hmono.sockets⟩
  | accepted k hs miner minerId hk hpc hauthorize =>
      have haccept := hmono.insert (k := k) ((hmono.handshakes k hs hk).accept hpc hauthorize)
      exact ⟨haccept.handshakes, haccept.sockets⟩
  | dropped e k => exact hmono.reject k
  | opened k pinged hs minerId hk hpc _ =>
      refine ⟨(hmono.reject k).handshakes, fun addr conn hconn => ?_⟩
      obtain ⟨rfl, rfl⟩ | ⟨-, hold⟩ := HashMap.lookup_insert_eq_some.mp hconn
      · have hsound := hmono.handshakes k hs hk
        exact ⟨hs, rfl, rfl, by rwa [← hpc]⟩
      · exact hmono.sockets addr conn hold
  | closed addr =>
      exact ⟨hmono.handshakes, fun addr' conn hconn =>
        hmono.sockets addr' conn (HashMap.lookup_of_erase hconn)⟩
  | signup | enrolled | setEnabled => exact ⟨hmono.handshakes, hmono.sockets⟩

end Authenticated

/-- However handshakes and database answers interleave and fail, every socket belongs to
a request of its address whose key, signature and timestamp have been checked, with the
clock past 30. With a database the miner id is that of a miner of the key who was enabled
when the handshake read its row. -/
theorem authentic_of_run (cfg : Config) (registry : Registry) (events : List Event) (s : State)
    (hclock : ∀ k r now, Event.arrive k r now ∈ events → 30 ≤ now)
    (hrun : run (State.step cfg) (.start registry) events = some s) (addr : SocketAddr)
    (conn : ClientConnection) (hconn : s.sockets.lookup addr = some conn) :
    ∃ r : Request, r.addr = addr ∧
      Authentic cfg (trace (State.step cfg) (.start registry) events) r conn.pubkey
        conn.minerId := by
  have hinv : Authenticated cfg (trace (State.step cfg) (.start registry) events) s :=
    invariant_of_trace (fun _ _ _ _ h hstep => h.step (State.step_steps hstep))
      (Authenticated.start registry) hrun
  obtain ⟨h, haddr, hpubkey, hsound⟩ := hinv.sockets addr conn hconn
  obtain ⟨u, k, now, hmem, hnow⟩ := hsound.arrived
  obtain ⟨hsigned, hread⟩ := hsound.upgraded conn.minerId rfl
  have hpast := hclock k h.request now (mem_of_mem_trace hmem)
  exact ⟨h.request, haddr, hpubkey ▸ hsound.key, hpubkey ▸ hsigned,
    ⟨u, k, now, hmem, Request.fresh_of_sub_lt hpast hnow⟩, fun hdbms => hpubkey ▸ hread hdbms⟩

/-- A miner comes for the first time and is enrolled on the way to its socket. -/
def Scenario.firstHandshake : List Event :=
  [.arrive 0 (Scenario.request 7 1000) 1010, .call 0 .answered, .call 0 .answered,
    .call 0 .answered, .call 0 .answered, .call 0 .answered, .authorize 0, .openSocket 0 true]

theorem authentic_firstHandshake : ∃ s conn,
    run (State.step Scenario.config) (.start Scenario.registry) Scenario.firstHandshake = some s ∧
      s.sockets.lookup 7 = some conn ∧ ∃ r : Request, r.addr = 7 ∧
        Authentic Scenario.config (trace (State.step Scenario.config) (.start Scenario.registry)
          Scenario.firstHandshake) r conn.pubkey conn.minerId := by
  obtain ⟨s, hrun, hsome⟩ := exists_run (State.step Scenario.config) (.start Scenario.registry)
    Scenario.firstHandshake (fun s : State => (s.sockets.lookup 7).isSome = true) (by decide)
  obtain ⟨conn, hconn⟩ := Option.isSome_iff_exists.mp hsome
  have hclock : ∀ k r now, Event.arrive k r now ∈ Scenario.firstHandshake → 30 ≤ now := by
    intro k r now hmem
    simp only [Scenario.firstHandshake, List.mem_cons, Event.arrive.injEq, reduceCtorEq,
      List.not_mem_nil, or_false] at hmem
    rw [hmem.2.2]
    decide
  exact ⟨s, conn, hrun, hconn, authentic_of_run _ _ _ _ hclock hrun 7 conn hconn⟩

end Hashpoo.Admission
