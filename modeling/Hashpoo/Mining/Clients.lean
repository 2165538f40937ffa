import Hashpoo.Mining.Shared
import Hashpoo.Server.Message

/-!
# Connections and the processors of client messages

`handle_socket` feeds the messages of one connection to `process_message`,
`client_message_processor` sorts them, and `client_contributions_processor` checks the
solutions. Here each lock it takes is a step of its own, so ranges, sockets, proof and
contributions may change between them. `handleContribution_eq` connects these steps with
the undisturbed loop body.
-/

namespace Hashpoo.Mining

/-! ## `handle_socket` -/

/-- A task that serves an accepted connection. It receives until a break or the end of
the stream, then removes the entry of its address. -/
structure Connection where
  addr : SocketAddr
  pubkey : Pubkey
  receiving : Bool
  deriving DecidableEq

/-! ## `client_message_processor` -/

inductive MessagePc where
  | idle
  | handle (message : ClientMessage)
  deriving DecidableEq

def MessagePc.step (sh : Shared) : MessagePc → Option (MessagePc × Effect)
  | .idle =>
      match sh.clientChannel with
      | message :: _ => some (.handle message, .receiveClient)
      | [] => none
  | .handle (.pong addr) => some (.idle, .insertPong addr)
  | .handle (.ready addr) => some (.idle, .insertReady addr)
  | .handle (.mining _) => some (.idle, .silent)
  | .handle (.bestSolution addr solution pubkey) =>
      some (.idle, .sendContribution ⟨addr, solution, pubkey⟩)

theorem MessagePc.step_scope {sh : Shared} {pc pc' : MessagePc} {eff : Effect}
    (h : pc.step sh = some (pc', eff)) :
    eff.scope ∈ [.nothing, .pongs, .ready, .clientChannel, .contributionsChannel] := by
  simp only [step] at h
  split at h <;> (try split at h) <;> cases h <;> simp [Effect.scope]

/-- The set of ready clients only grows, by the address of a ready message. -/
theorem MessagePc.step_ready {sh : Shared} {pc pc' : MessagePc} {eff : Effect}
    (h : pc.step sh = some (pc', eff)) (hscope : eff.scope = .ready) :
    ∃ addr, pc = .handle (.ready addr) ∧ eff = .insertReady addr := by
  simp only [step] at h
  split at h
  case h_3 addr =>
    cases h
    exact ⟨addr, rfl, rfl⟩
  all_goals (try split at h) <;> cases h <;> cases hscope

/-! ## `client_contributions_processor` -/

inductive ContributionsPc where
  | idle
  | readRange (m : ClientBestSolution)
  | readSocket (m : ClientBestSolution) (nonceRange : NonceRange)
  | readProof (m : ClientBestSolution) (nonceRange : NonceRange) (minerId : Int)
  | readContributions (m : ClientBestSolution) (nonceRange : NonceRange) (minerId : Int)
  | write (m : ClientBestSolution) (nonceRange : NonceRange) (minerId : Int)
  /-- After the `return` of the range check. -/
  | stopped
  deriving DecidableEq

namespace ContributionsPc

/-- The solution of the message is worth the checks. -/
def received (cfg : Config) (m : ClientBestSolution) : ContributionsPc :=
  if cfg.drillx.difficulty m.solution ≥ cfg.minDifficulty then .readRange m else .idle

def step (cfg : Config) (sh : Shared) : ContributionsPc → Option (ContributionsPc × Effect)
  | .idle =>
      match sh.contributionsChannel with
      | some (m :: _) => some (received cfg m, .receiveContribution)
      | some [] | none => none
  | .readRange m =>
      match sh.clientNonceRanges.lookup m.pubkey with
      | some nonceRange =>
          some (if nonceRange.Contains m.solution.nonce then .readSocket m nonceRange else .idle,
            .silent)
      | none => some (.stopped, .closeContributions)
  | .readSocket m nonceRange =>
      match sh.sockets.lookup m.addr with
      | some conn => some (.readProof m nonceRange conn.minerId, .silent)
      | none => some (.idle, .silent)
  | .readProof m nonceRange minerId =>
      some (if cfg.drillx.isValid m.solution sh.appProof.challenge then
        .readContributions m nonceRange minerId else .idle, .silent)
  | .readContributions m nonceRange minerId =>
      some (if admits sh.epochHashes.contributions m.pubkey (cfg.drillx.difficulty m.solution) then
        .write m nonceRange minerId else .idle, .silent)
  | .write m _ minerId =>
      some (.idle, .record m.pubkey (.of cfg.drillx minerId m.solution) m.solution)
  | .stopped => none

theorem step_scope {cfg : Config} {sh : Shared} {pc pc' : ContributionsPc} {eff : Effect}
    (h : pc.step cfg sh = some (pc', eff)) :
    eff.scope ∈ [.nothing, .hashes, .contributionsChannel] := by
  simp only [step] at h
  split at h <;> (try split at h) <;> cases h <;> simp [Effect.scope]

/-- The only step that changes the epoch is the write section. -/
theorem step_hashes {cfg : Config} {sh : Shared} {pc pc' : ContributionsPc} {eff : Effect}
    (h : pc.step cfg sh = some (pc', eff)) (hscope : eff.scope = .hashes) :
    ∃ m nonceRange minerId, pc = .write m nonceRange minerId ∧ pc' = .idle ∧
      eff = .record m.pubkey (.of cfg.drillx minerId m.solution) m.solution := by
  simp only [step] at h
  split at h
  case h_6 m nonceRange minerId =>
    cases h
    exact ⟨m, nonceRange, minerId, rfl, rfl, rfl⟩
  all_goals (try split at h) <;> cases h <;> simp [Effect.scope] at hscope

/-- The submission under way behind the check of its difficulty. -/
def handling : ContributionsPc → Option ClientBestSolution
  | .readRange m | .readSocket m _ | .readProof m _ _ => some m
  | .readContributions m _ _ | .write m _ _ => some m
  | .idle | .stopped => none

/-- The submission under way behind the range check, with the range it was checked
against. -/
def ranged : ContributionsPc → Option (ClientBestSolution × NonceRange)
  | .readSocket m nonceRange | .readProof m nonceRange _ => some (m, nonceRange)
  | .readContributions m nonceRange _ | .write m nonceRange _ => some (m, nonceRange)
  | .idle | .readRange _ | .stopped => none

/-- The submission that the next step records. -/
def writing : ContributionsPc → Option (ClientBestSolution × NonceRange)
  | .write m nonceRange _ => some (m, nonceRange)
  | _ => none

/-- The submission whose connection is looked up next. -/
def locating : ContributionsPc → Option ClientBestSolution
  | .readSocket m _ => some m
  | _ => none

/-- The submission under way behind the lookup of its socket, with the miner id found. -/
def identified : ContributionsPc → Option (ClientBestSolution × Int)
  | .readProof m _ minerId | .readContributions m _ minerId => some (m, minerId)
  | .write m _ minerId => some (m, minerId)
  | .idle | .readRange _ | .readSocket _ _ | .stopped => none

/-- A submission is handled further, or its difficulty has just been checked. -/
theorem step_handling {cfg : Config} {sh : Shared} {pc pc' : ContributionsPc} {eff : Effect}
    (h : pc.step cfg sh = some (pc', eff)) :
    ∀ m ∈ pc'.handling, pc.handling = some m ∨
      cfg.minDifficulty ≤ cfg.drillx.difficulty m.solution := by
  simp only [step, received] at h
  split at h
  case h_1 =>
    split at h
    · next m _ _ =>
      cases h
      split
      · next hdiff => simp [handling, hdiff]
      · simp [handling]
    · cases h
    · cases h
  all_goals (try split at h) <;> cases h <;> (try split) <;> simp [handling]

/-- The write section is only entered for an entry that the contributions admit. -/
theorem step_writing {cfg : Config} {sh : Shared} {pc pc' : ContributionsPc} {eff : Effect}
    (h : pc.step cfg sh = some (pc', eff)) :
    ∀ x ∈ pc'.writing, eff = .silent ∧ admits sh.epochHashes.contributions x.1.pubkey
      (cfg.drillx.difficulty x.1.solution) := by
  simp only [step, received] at h
  split at h
  case h_5 m nonceRange minerId =>
    cases h
    split
    · next hadmits => simp [writing, hadmits]
    · simp [writing]
  all_goals (try split at h) <;> cases h <;> (try split) <;> simp [writing]

/-- A range is kept from its check on, or has just passed it. -/
theorem step_ranged {cfg : Config} {sh : Shared} {pc pc' : ContributionsPc} {eff : Effect}
    (h : pc.step cfg sh = some (pc', eff)) :
    ∀ x ∈ pc'.ranged, pc.ranged = some x ∨ x.2.Contains x.1.solution.nonce := by
  simp only [step, received] at h
  split at h
  case h_2 m =>
    split at h
    · next nonceRange _ =>
      cases h
      by_cases hnonce : nonceRange.Contains m.solution.nonce
      · simp [hnonce, ranged]
      · simp [hnonce, ranged]
    · cases h
      simp [ranged]
  all_goals (try split at h) <;> cases h <;> (try split) <;> simp [ranged]

/-- A miner id is kept from the lookup on, or has just been found at the address. -/
theorem step_identified {cfg : Config} {sh : Shared} {pc pc' : ContributionsPc} {eff : Effect}
    (h : pc.step cfg sh = some (pc', eff)) :
    ∀ x ∈ pc'.identified, pc.identified = some x ∨
      ∃ nonceRange conn, pc = .readSocket x.1 nonceRange ∧
        sh.sockets.lookup x.1.addr = some conn ∧ x.2 = conn.minerId := by
  simp only [step, received] at h
  split at h
  case h_3 m nonceRange =>
    split at h
    · next conn hconn =>
      cases h
      simp [identified, hconn]
    · cases h
      simp [identified]
  all_goals (try split at h) <;> cases h <;> (try split) <;> simp [identified]

end ContributionsPc

/-! ### Undisturbed steps -/

/-- The steps of the processor alone, until it waits for a message again or stops. -/
def ContributionsPc.runAlone (cfg : Config) : Nat → Shared → ContributionsPc →
    Shared × ContributionsPc
  | 0, sh, pc => (sh, pc)
  | _, sh, .idle => (sh, .idle)
  | fuel + 1, sh, pc =>
      match pc.step cfg sh with
      | some (pc', eff) => ContributionsPc.runAlone cfg fuel (sh.apply eff) pc'
      | none => (sh, pc)

/-- What the undisturbed loop body reads. -/
def Shared.contributionsContext (cfg : Config) (sh : Shared) : ContributionsContext where
  drillx := cfg.drillx
  minDifficulty := cfg.minDifficulty
  proof := sh.appProof
  clientNonceRanges := sh.clientNonceRanges
  sockets := sh.sockets

/-- The loop body of the sequential model is what the separate steps do when no other
task comes in between. -/
theorem handleContribution_eq (cfg : Config) (sh : Shared) (m : ClientBestSolution) :
    let (sh', pc) := (ContributionsPc.received cfg m).runAlone cfg 5 sh
    (sh.contributionsContext cfg).handleContribution sh.epochHashes m =
      (sh'.epochHashes, if pc = .stopped then .break else .continue) := by
  rw [ContributionsPc.received, ContributionsContext.handleContribution]
  by_cases hdiff : cfg.drillx.difficulty m.solution ≥ cfg.minDifficulty
  · cases hrange : sh.clientNonceRanges.lookup m.pubkey with
    | none => simp [Shared.contributionsContext, ContributionsPc.runAlone, ContributionsPc.step,
        Shared.apply, hdiff, hrange]
    | some nonceRange =>
        by_cases hnonce : nonceRange.Contains m.solution.nonce
        · cases hconn : sh.sockets.lookup m.addr with
          | none => simp [Shared.contributionsContext, ContributionsPc.runAlone,
              ContributionsPc.step, Shared.apply, hdiff, hrange, hnonce, hconn]
          | some conn =>
              by_cases hvalid : cfg.drillx.isValid m.solution sh.appProof.challenge = true
              · by_cases hadmits : admits sh.hashes.epoch.contributions m.pubkey
                    (cfg.drillx.difficulty m.solution) = true
                · simp [Shared.contributionsContext, ContributionsPc.runAlone,
                    ContributionsPc.step, Shared.apply, hdiff, hrange, hnonce, hconn, hvalid,
                    hadmits]
                · simp [Shared.contributionsContext, ContributionsPc.runAlone,
                    ContributionsPc.step, Shared.apply, hdiff, hrange, hnonce, hconn, hvalid,
                    hadmits]
              · simp [Shared.contributionsContext, ContributionsPc.runAlone,
                  ContributionsPc.step, Shared.apply, hdiff, hrange, hnonce, hconn, hvalid]
        · simp [Shared.contributionsContext, ContributionsPc.runAlone, ContributionsPc.step,
            Shared.apply, hdiff, hrange, hnonce]
  · simp [Shared.contributionsContext, ContributionsPc.runAlone, hdiff]

end Hashpoo.Mining
