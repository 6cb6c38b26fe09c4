import Prgsem.Round

/-!
# What `send_message` reports

The result of `fill_message_buf` and that of `write` are lost: `send_message`
returns true whatever happened. It is right exactly when the message can be
encoded, its frame fits into the buffer and `write` takes all of it.
-/

namespace Prgsem

open CMemory
set_option autoImplicit false

/-- The bytes of a transmission that reached the port; a negative result is an error. -/
def Transmission.bytes (sent : Transmission) : List UInt8 := sent.offered.take sent.written.toNat

/-- The frame that `fill_message_buf` writes for a message, `none` when it rejects it. -/
def frameOf (abi : Abi) (msg : Message) : Option (List UInt8) :=
  match fillMessageBuf abi msg (List.replicate abi.sizeofMessage 0) abi.sizeofMessage 0 with
  | .ok (true, buf, len) => some (buf.take len.toNat)
  | _ => none

theorem frameOf_eq (abi : Abi) (msg : Message) :
    frameOf abi msg = (msg.payload abi).map Payload.frame := by
  cases hp : msg.payload abi with
  | none =>
    rw [frameOf, fillMessageBuf_unknown abi msg _ _ 0 hp (Int.le_refl _)]
    rfl
  | some p =>
    have hle := frame_le_sizeofMessage abi p
    rw [frameOf, fillMessageBuf_eq abi msg p _ _ 0 hp (Int.le_refl _) (by simpa using hle)]
    simp only [Int.toNat_natCast, List.take_left, Option.map_some]

/-- The result is true if and only if the complete frame of the message reached
the port, and for a message without a frame nothing is written and it is false. -/
def ReportsTruth (abi : Abi) (msg : Message) (msgBuf : List UInt8) (len written : Int) : Prop :=
  ∃ ret sent, sendMessage abi msg msgBuf len written = .ok (ret, sent) ∧
    (ret = true ↔ frameOf abi msg = some sent.bytes) ∧
    (frameOf abi msg = none → sent.bytes = [] ∧ ret = false)

theorem sendMessage_unknown (abi : Abi) {msg : Message} (h : msg.payload abi = none)
    (msgBuf : List UInt8) (len written : Int) :
    sendMessage abi msg msgBuf len written = .ok (true, ⟨[], written⟩) := by
  have hfill := fillMessageBuf_unknown abi msg msgBuf abi.sizeofMessage len h (Int.le_refl _)
  have hsize : toSizeT 0 = 0 := rfl
  simp only [sendMessage, hfill, ok_bind, write, hsize, if_pos (Nat.zero_le _), List.take_zero]
  rfl

/-- The type is known, and the buffer and `write` take a frame of its size. -/
def Deliverable (msg : Message) (msgBuf : List UInt8) (written : Int) : Prop :=
  ∃ size, getMessageSize msg.type 0 = (true, size) ∧ size ≤ msgBuf.length ∧ size ≤ written

theorem deliverable_iff (abi : Abi) {msg : Message} {msgBuf : List UInt8} {written : Int} :
    Deliverable msg msgBuf written ↔ ∃ p, msg.payload abi = some p ∧
      p.frame.length ≤ msgBuf.length ∧ (p.frame.length : Int) ≤ written := by
  cases hp : msg.payload abi with
  | none =>
    have hunknown := getMessageSize_unknown (payload_eq_none_iff.mp hp) 0
    simp [Deliverable, hunknown]
  | some p =>
    simp only [Deliverable, type_of_payload hp, p.getMessageSize_type, Prod.mk.injEq, true_and,
      Option.some.injEq, exists_eq_left']
    omega

/-- `send_message` reports the truth exactly about messages that are delivered. -/
theorem reportsTruth_iff (abi : Abi) (msg : Message) (msgBuf : List UInt8) (len written : Int) :
    ReportsTruth abi msg msgBuf len written ↔ Deliverable msg msgBuf written := by
  rw [deliverable_iff abi]
  cases hp : msg.payload abi with
  | none =>
    have hnone : frameOf abi msg = none := by rw [frameOf_eq, hp, Option.map_none]
    simp only [reduceCtorEq, false_and, exists_false, iff_false]
    rintro ⟨ret, sent, hsend, -, hfalse⟩
    rw [sendMessage_unknown abi hp] at hsend
    cases hsend
    exact absurd (hfalse hnone).2 (by decide)
  | some p =>
    have hframe : frameOf abi msg = some p.frame := by rw [frameOf_eq, hp, Option.map_some]
    simp only [Option.some.injEq, exists_eq_left']
    by_cases hroom : p.frame.length ≤ msgBuf.length
    · have hsend := sendMessage_ok abi len written hp hroom
      constructor
      · rintro ⟨ret, sent, hsend', htrue, -⟩
        rw [hsend] at hsend'
        cases hsend'
        have hall := htrue.mp rfl
        rw [hframe, Option.some.injEq] at hall
        refine ⟨hroom, ?_⟩
        have hcount := congrArg List.length hall
        simp only [Transmission.bytes, List.length_take] at hcount
        have hpos := p.length_frame
        omega
      · rintro ⟨-, hwritten⟩
        have hbytes : (⟨p.frame, written⟩ : Transmission).bytes = p.frame :=
          List.take_of_length_le (by simp only; omega)
        refine ⟨_, _, hsend, ?_, ?_⟩
        · rw [hframe, hbytes]
          exact ⟨fun _ => rfl, fun _ => rfl⟩
        · rw [hframe]
          exact fun hnone => absurd hnone (by simp)
    · have hsend := sendMessage_overrun abi len written hp (Nat.lt_of_not_le hroom)
      constructor
      · rintro ⟨ret, sent, hsend', -⟩
        rw [hsend] at hsend'
        cases hsend'
      · exact fun h => absurd h.1 hroom

/-- `MSG_GET_VERSION` while `write` fails: nothing reaches the port, and the result is true. -/
theorem reports_failed_write :
    ¬ ReportsTruth .sysV ⟨4, fun _ => 0, 251⟩ (List.replicate 56 0) 56 (-1) := by
  rintro ⟨ret, sent, hsend, htrue, -⟩
  have hrun : sendMessage .sysV ⟨4, fun _ => 0, 251⟩ (List.replicate 56 0) 56 (-1) =
      .ok (true, ⟨[4, 251], -1⟩) := rfl
  have hframe : frameOf .sysV ⟨4, fun _ => 0, 251⟩ = some [4, 251] := rfl
  rw [hrun] at hsend
  cases hsend
  have hall := htrue.mp rfl
  rw [hframe] at hall
  cases hall

end Prgsem
