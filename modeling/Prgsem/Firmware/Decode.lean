import Prgsem.Firmware.Receive

/-!
# The decoder of the firmware

`parse_message_buf` of the microcontroller accepts exactly the frames. A byte string
that `receive_message` has cut out of the stream has the length of its type already,
so that there the sum of its bytes alone decides.
-/

namespace Prgsem.Firmware

open CMemory Receive
set_option autoImplicit false

/-- The number of payload bytes of a type. -/
def MessageType.bodyLength : MessageType → Nat
  | .ok | .error | .abort | .done | .getVersion => 0
  | .version => 3
  | .startup => 9
  | .compute => 4
  | .computeData => 5

theorem MessageType.getMessageSize_toByte (t : MessageType) (len : Int) :
    getMessageSize t.toByte len = (true, ((t.bodyLength + 2 : Nat) : Int)) := by
  cases t <;> rfl

theorem getMessageSize_eq_true_iff {b : UInt8} {len : Int} :
    (getMessageSize b len).1 = true ↔ ∃ t : MessageType, b = t.toByte := by
  constructor
  · intro h
    cases ht : MessageType.ofByte b with
    | none => simp [getMessageSize, ht] at h
    | some t => exact ⟨t, MessageType.ofByte_eq_some_iff.mp ht⟩
  · rintro ⟨t, rfl⟩
    rw [MessageType.getMessageSize_toByte]

namespace Payload

@[simp] theorem length_body (p : Payload) : p.body.length = p.type.bodyLength := by
  cases p with
  | startup message => exact List.length_ofFn
  | _ => rfl

theorem exists_body (t : MessageType) (l : List UInt8) (h : l.length = t.bodyLength) :
    ∃ p : Payload, p.type = t ∧ p.body = l := by
  cases t with
  | ok => exact ⟨.ok, rfl, (List.length_eq_zero_iff.mp h).symm⟩
  | error => exact ⟨.error, rfl, (List.length_eq_zero_iff.mp h).symm⟩
  | abort => exact ⟨.abort, rfl, (List.length_eq_zero_iff.mp h).symm⟩
  | done => exact ⟨.done, rfl, (List.length_eq_zero_iff.mp h).symm⟩
  | getVersion => exact ⟨.getVersion, rfl, (List.length_eq_zero_iff.mp h).symm⟩
  | version =>
    obtain ⟨a, b, c, rfl⟩ := List.length_eq_three.mp h
    exact ⟨.version a b c, rfl, rfl⟩
  | startup =>
    obtain ⟨d, r, hr, rfl⟩ := Prgsem.Payload.exists_ofFn_append (n := startupMsgLen) (k := 0) l h
    rw [List.length_eq_zero_iff.mp hr, List.append_nil]
    exact ⟨.startup d, rfl, rfl⟩
  | compute =>
    obtain ⟨chunkHi, l, rfl⟩ := List.exists_of_length_succ l h
    obtain ⟨chunkLo, nbrHi, nbrLo, rfl⟩ := List.length_eq_three.mp (Nat.succ.inj h)
    refine ⟨.compute (joinBytes chunkHi chunkLo) (joinBytes nbrHi nbrLo), rfl, ?_⟩
    simp only [body, hiByte_joinBytes, loByte_joinBytes]
  | computeData =>
    obtain ⟨chunkHi, l, rfl⟩ := List.exists_of_length_succ l h
    obtain ⟨chunkLo, l, rfl⟩ := List.exists_of_length_succ l (Nat.succ.inj h)
    obtain ⟨taskHi, taskLo, result, rfl⟩ := List.length_eq_three.mp (Nat.succ.inj (Nat.succ.inj h))
    refine ⟨.computeData (joinBytes chunkHi chunkLo) (joinBytes taskHi taskLo) result, rfl, ?_⟩
    simp only [body, hiByte_joinBytes, loByte_joinBytes]

theorem wellSized (p : Payload) : WellSized p.frame :=
  ⟨p.type.toByte, rfl, p.getMessageSize_type 0⟩

/-- The frames are the byte strings of the right length whose sum is 255. -/
theorem exists_frame_iff {b : List UInt8} :
    (∃ p : Payload, p.frame = b) ↔ WellSized b ∧ b.sum = 255 := by
  constructor
  · rintro ⟨p, rfl⟩
    exact ⟨p.wellSized, p.sum_frame⟩
  · rintro ⟨⟨c, hhead, hsize⟩, hsum⟩
    obtain ⟨l, rfl⟩ := List.head?_eq_some_iff.mp hhead
    obtain ⟨t, rfl⟩ := getMessageSize_eq_true_iff.mp (congrArg Prod.fst hsize)
    rw [MessageType.getMessageSize_toByte, Prod.mk.injEq, Int.ofNat_inj, List.length_cons] at hsize
    have hne : l ≠ [] := by
      rintro rfl
      simp at hsize
    have hsplit : l = l.dropLast ++ [l.getLast hne] := (List.dropLast_concat_getLast hne).symm
    obtain ⟨p, hp, hbody⟩ := exists_body t l.dropLast (by rw [List.length_dropLast]; omega)
    refine ⟨p, ?_⟩
    rw [hsplit] at hsum
    simp only [List.sum_cons, List.sum_append, List.sum_nil] at hsum
    have hlast : 255 - p.content.sum = l.getLast hne := by
      simp only [content, hp, hbody, List.sum_cons]
      grind
    rw [frame_eq_cons, hlast, hbody, hp, ← hsplit]

end Payload

/-! ## What is accepted -/

/-- Everything but a frame is rejected. The type byte reaches the message when the
checksum is right. -/
theorem parseMessageBuf_reject (b rest : List UInt8) (msg : Message)
    (h : ∀ p : Payload, p.frame ≠ b) :
    parseMessageBuf (b ++ rest) b.length msg =
      .ok (false, if b.sum = 255 then { msg with type := b.headD 0 } else msg) := by
  have hfits : b.length ≤ (b ++ rest).length := by simp
  simp only [parseMessageBuf, Int.toNat_natCast, forLoop_sum hfits, List.take_left, ok_bind]
  by_cases hsum : b.sum = 255
  · cases b with
    | nil => exact absurd hsum (by decide)
    | cons x l =>
      have hpos : (0 : Int) < (x :: l).length ∧ (x :: l).sum = 0xff :=
        ⟨by rw [List.length_cons]; omega, hsum⟩
      have hread : readAt (x :: l ++ rest) 0 = .ok x := rfl
      have hunknown : ¬ (x < msgNbr ∧ (getMessageSize x 0).1 = true ∧
          ((x :: l).length : Int) = (getMessageSize x 0).2) := by
        rintro ⟨-, hknown, hlen⟩
        have hsized : WellSized (x :: l) := ⟨x, rfl, Prod.ext hknown hlen.symm⟩
        obtain ⟨p, hp⟩ := Payload.exists_frame_iff.mpr ⟨hsized, hsum⟩
        exact h p hp
      simp only [if_pos hpos, hread, ok_bind, if_neg hunknown, if_pos hsum, List.headD_cons]
      rfl
  · have hsum' : ¬ ((0 : Int) < b.length ∧ b.sum = 0xff) := fun hb => hsum hb.2
    simp only [if_neg hsum', if_neg hsum]
    rfl

theorem parseMessageBuf_accepts_iff (b rest : List UInt8) (msg m : Message) :
    parseMessageBuf (b ++ rest) b.length msg = .ok (true, m) ↔
      ∃ p : Payload, p.frame = b ∧
        m = { msg with type := p.type.toByte, data := p.store msg.data } := by
  constructor
  · intro h
    by_cases hframe : ∃ p : Payload, p.frame = b
    · obtain ⟨p, rfl⟩ := hframe
      rw [parseMessageBuf_frame, Except.ok.injEq, Prod.mk.injEq] at h
      exact ⟨p, rfl, h.2.symm⟩
    · rw [parseMessageBuf_reject b rest msg fun p hp => hframe ⟨p, hp⟩] at h
      simp at h
  · rintro ⟨p, rfl, rfl⟩
    exact parseMessageBuf_frame p rest msg

/-- What becomes of a byte string that `receive_message` has returned. -/
theorem parseMessageBuf_wellSized {b : List UInt8} (hb : WellSized b) (rest : List UInt8)
    (msg : Message) :
    (∃ p : Payload, p.frame = b ∧ b.sum = 255 ∧ parseMessageBuf (b ++ rest) b.length msg =
        .ok (true, { msg with type := p.type.toByte, data := p.store msg.data })) ∨
      (b.sum ≠ 255 ∧ parseMessageBuf (b ++ rest) b.length msg = .ok (false, msg)) := by
  by_cases hsum : b.sum = 255
  · obtain ⟨p, rfl⟩ := Payload.exists_frame_iff.mpr ⟨hb, hsum⟩
    exact .inl ⟨p, rfl, hsum, parseMessageBuf_frame p rest msg⟩
  · have hframe : ∀ p : Payload, p.frame ≠ b := by
      rintro p rfl
      exact hsum p.sum_frame
    have hreject := parseMessageBuf_reject b rest msg hframe
    rw [if_neg hsum] at hreject
    exact .inr ⟨hsum, hreject⟩

end Prgsem.Firmware
