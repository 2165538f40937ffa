import Hashpoo.Client.Message
import Hashpoo.Foundation.Results

/-!
# The lengths of received messages

`process_message` reads the first byte and the fields of two kinds of messages at fixed
offsets. It tests the length of one kind only, and for the first two of its fields.
-/

namespace Hashpoo.Client

open Foundation

/-! ## Reading a field -/

section Fields

variable {d : List UInt8} {bIndex n : Nat}

theorem exists_copyLoop (h : bIndex + n ≤ d.length) : ∃ out, copyLoop d bIndex n = .ok out :=
  ⟨_, copyLoop_eq h⟩

theorem le_of_copyLoop {out : Bytes n} (hn : 0 < n) (h : copyLoop d bIndex n = .ok out) :
    bIndex + n ≤ d.length := by
  by_contra hshort
  rw [copyLoop_error hn (not_le.mp hshort)] at h
  cases h

end Fields

/-! ## The two kinds of messages -/

variable {b : List UInt8}

theorem newFromBytes_ok_iff : (∃ data, newFromBytes b = .ok data) ↔ 101 ≤ b.length := by
  constructor
  · rintro ⟨data, h⟩
    simp only [newFromBytes, bind_eq_ok] at h
    obtain ⟨_, -, _, -, _, -, _, -, _, -, _, -, _, -, _, -, _, -, _, -, _, hlast, -⟩ := h
    exact le_of_copyLoop (by decide) hlast
  · intro h
    obtain ⟨difficulty, h0⟩ := @exists_copyLoop b 1 4 (by omega)
    obtain ⟨totalBalance, h1⟩ := @exists_copyLoop b (1 + 4) 8 (by omega)
    obtain ⟨totalRewards, h2⟩ := @exists_copyLoop b (1 + 4 + 8) 8 (by omega)
    obtain ⟨topStake, h3⟩ := @exists_copyLoop b (1 + 4 + 8 + 8) 8 (by omega)
    obtain ⟨multiplier, h4⟩ := @exists_copyLoop b (1 + 4 + 8 + 8 + 8) 8 (by omega)
    obtain ⟨activeMiners, h5⟩ := @exists_copyLoop b (1 + 4 + 8 + 8 + 8 + 8) 4 (by omega)
    obtain ⟨challenge, h6⟩ := @exists_copyLoop b (1 + 4 + 8 + 8 + 8 + 8 + 4) 32 (by omega)
    obtain ⟨bestNonce, h7⟩ := @exists_copyLoop b (1 + 4 + 8 + 8 + 8 + 8 + 4 + 32) 8 (by omega)
    obtain ⟨suppliedDifficulty, h8⟩ :=
      @exists_copyLoop b (1 + 4 + 8 + 8 + 8 + 8 + 4 + 32 + 8) 4 (by omega)
    obtain ⟨earnedRewards, h9⟩ :=
      @exists_copyLoop b (1 + 4 + 8 + 8 + 8 + 8 + 4 + 32 + 8 + 4) 8 (by omega)
    obtain ⟨percentage, h10⟩ :=
      @exists_copyLoop b (1 + 4 + 8 + 8 + 8 + 8 + 4 + 32 + 8 + 4 + 8) 8 (by omega)
    simp only [newFromBytes, h0, h1, h2, h3, h4, h5, h6, h7, h8, h9, h10, bind, Except.bind]
    exact ⟨_, rfl⟩

/-- The test lets messages of 49 to 56 bytes pass. -/
theorem processStartMining_cases (b : List UInt8) :
    (b.length < 49 ∧ processStartMining b = .ok ([], .continue false)) ∨
      (49 ≤ b.length ∧ b.length < 57 ∧ ∀ r, processStartMining b ≠ .ok r) ∨
      (57 ≤ b.length ∧ ∃ challenge nonceRange cutoff, processStartMining b =
        .ok ([.startMining challenge nonceRange cutoff], .continue true)) := by
  rw [processStartMining]
  by_cases hlength : b.length < 49
  · exact .inl ⟨hlength, if_pos hlength⟩
  · rw [if_neg hlength]
    by_cases hshort : b.length < 57
    · refine .inr (.inl ⟨not_lt.mp hlength, hshort, fun r h => ?_⟩)
      simp only [bind_eq_ok] at h
      obtain ⟨_, -, _, -, _, -, _, hlast, -⟩ := h
      have hle := le_of_copyLoop (by decide) hlast
      omega
    · obtain ⟨hashBytes, h0⟩ := @exists_copyLoop b 1 32 (by omega)
      obtain ⟨cutoff, h1⟩ := @exists_copyLoop b (1 + 32) 8 (by omega)
      obtain ⟨nonceStart, h2⟩ := @exists_copyLoop b (1 + 32 + 8) 8 (by omega)
      obtain ⟨nonceEnd, h3⟩ := @exists_copyLoop b (1 + 32 + 8 + 8) 8 (by omega)
      simp only [h0, h1, h2, h3, bind, Except.bind]
      exact .inr (.inr ⟨not_lt.mp hshort, _, _, _, rfl⟩)

/-! ## Received messages -/

/-- Nothing is read beyond the end and the connection is kept. Only a complete message is
forwarded. -/
def ReceivesSafely (process : WsMessage → Except Panic (List ServerMessage × ReceiveFlow))
    (b : List UInt8) : Prop :=
  ∃ sent got, process (.binary b) = .ok (sent, .continue got) ∧
    (sent = [] ∨
      (b.head? = some 0 ∧ 57 ≤ b.length ∧
        ∃ challenge nonceRange cutoff, sent = [.startMining challenge nonceRange cutoff]) ∨
      (b.head? = some 1 ∧ 101 ≤ b.length ∧ ∃ data, sent = [.poolSubmissionResult data]))

section Types

variable {rest : List UInt8}

theorem receivesSafely_startMining : ReceivesSafely processMessage (0 :: rest) ↔
    (0 :: rest).length < 49 ∨ 57 ≤ (0 :: rest).length := by
  have hmessage : processMessage (.binary (0 :: rest)) = processStartMining (0 :: rest) := rfl
  obtain ⟨hlength, heq⟩ | ⟨hge, hlt, herror⟩ | ⟨hlength, challenge, nonceRange, cutoff, heq⟩ :=
    processStartMining_cases (0 :: rest)
  · exact ⟨fun _ => .inl hlength, fun _ => ⟨_, _, hmessage.trans heq, .inl rfl⟩⟩
  · constructor
    · rintro ⟨sent, got, hok, -⟩
      exact absurd (hmessage ▸ hok) (herror _)
    · omega
  · exact ⟨fun _ => .inr hlength, fun _ => ⟨_, _, hmessage.trans heq,
      .inr (.inl ⟨rfl, hlength, _, _, _, rfl⟩)⟩⟩

theorem receivesSafely_poolSubmissionResult : ReceivesSafely processMessage (1 :: rest) ↔
    101 ≤ (1 :: rest).length := by
  have hmessage : processMessage (.binary (1 :: rest)) = newFromBytes (1 :: rest) >>= fun data =>
      .ok ([.poolSubmissionResult data], .continue false) := rfl
  rw [← newFromBytes_ok_iff]
  constructor
  · rintro ⟨sent, got, hok, -⟩
    obtain ⟨data, hdata, -⟩ := bind_eq_ok.mp (hmessage ▸ hok)
    exact ⟨data, hdata⟩
  · rintro ⟨data, hdata⟩
    exact ⟨_, _, hmessage.trans (bind_eq_ok.mpr ⟨data, hdata, rfl⟩),
      .inr (.inr ⟨rfl, newFromBytes_ok_iff.mp ⟨data, hdata⟩, data, rfl⟩)⟩

theorem receivesSafely_of_other_type {messageType : UInt8} (hzero : messageType ≠ 0)
    (hone : messageType ≠ 1) : ReceivesSafely processMessage (messageType :: rest) := by
  have hmessage : processMessage (.binary (messageType :: rest)) = .ok ([], .continue false) := by
    show (if messageType = 0 then _ else _) = _
    rw [if_neg hzero, if_neg hone]
    rfl
  exact ⟨_, _, hmessage, .inl rfl⟩

end Types

theorem not_receivesSafely_empty : ¬ ReceivesSafely processMessage [] := by
  rintro ⟨sent, got, h, -⟩
  cases h

theorem receivesSafely_processMessage_iff (b : List UInt8) : ReceivesSafely processMessage b ↔
    b ≠ [] ∧ (b.head? = some 0 → b.length < 49 ∨ 57 ≤ b.length) ∧
      (b.head? = some 1 → 101 ≤ b.length) := by
  cases b with
  | nil => simp [not_receivesSafely_empty]
  | cons messageType rest =>
      by_cases hzero : messageType = 0
      · subst hzero
        simp [receivesSafely_startMining]
      · by_cases hone : messageType = 1
        · subst hone
          simp [receivesSafely_poolSubmissionResult]
        · simp [receivesSafely_of_other_type hzero hone, hzero, hone]

/-- In both clients the type has to be there, and with it either all of the fields or, in a
`StartMining`, so few of them that the test turns the message away. -/
theorem receivesSafely_iff (b : List UInt8) :
    (ReceivesSafely Mine.processMessage b ↔
      b ≠ [] ∧ (b.head? = some 0 → b.length < 49 ∨ 57 ≤ b.length) ∧
        (b.head? = some 1 → 101 ≤ b.length)) ∧
    (ReceivesSafely Turbomine.processMessage b ↔
      b ≠ [] ∧ (b.head? = some 0 → b.length < 49 ∨ 57 ≤ b.length) ∧
        (b.head? = some 1 → 101 ≤ b.length)) :=
  ⟨receivesSafely_processMessage_iff b, receivesSafely_processMessage_iff b⟩

/-- A `StartMining` without the end of its range passes the test of the length. -/
theorem not_receivesSafely : ¬ ∀ b, ReceivesSafely Mine.processMessage b ∧
    ReceivesSafely Turbomine.processMessage b := by
  intro h
  obtain ⟨sent, got, hok, -⟩ := (h (List.replicate 49 0)).1
  have herror : processMessage (.binary (List.replicate 49 0)) = .error .indexOutOfBounds := by
    decide
  rw [Mine.processMessage, herror] at hok
  cases hok

end Hashpoo.Client
