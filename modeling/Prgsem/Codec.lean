import Prgsem.Wire

/-!
# The encoder and the decoder against the wire format

`fill_message_buf` writes the frame of a message and nothing else, and
`parse_message_buf` accepts exactly the frames. Encoding and decoding are then
inverse to each other in both directions.
-/

namespace Prgsem

open CMemory
set_option autoImplicit false

/-! ## The encoder -/

theorem fillData_eq (abi : Abi) (msg : Message) (p : Payload) (buf : List UInt8)
    (h : msg.payload abi = some p) :
    fillData abi msg buf = (do
      let buf ← writeAll buf 1 p.body
      return (true, buf, 1 + p.body.length)) := by
  cases ht : MessageType.ofByte msg.type with
  | none => simp [Message.payload, ht] at h
  | some t =>
    cases t <;> simp only [Message.payload, ht, Option.some.injEq] at h <;> subst h <;>
      simp only [fillData, ht]
    case ok | error | abort | done | getVersion => rfl
    case startup =>
      rw [forLoop_writeAt]
      simp only [Payload.body, List.length_ofFn, Nat.zero_add]
      rfl
    all_goals
      simp only [Payload.body, memcpyTo, writeAll, writeAll_append, bind_assoc, ok_bind,
        List.length_append, List.length_ofFn]
      rfl

theorem fillCksum_eq (w rest : List UInt8) (x : UInt8) :
    fillCksum (w ++ x :: rest) w.length = .ok (w ++ (255 - w.sum) :: rest) := by
  -- after `j` rounds the checksum byte holds the sum of the first `j` bytes
  obtain ⟨buf, hloop, hinv⟩ := forLoop_ok (fun i buf => do
      let sum ← readAt buf w.length
      let v ← readAt buf i
      writeAt buf w.length (sum + v))
    (fun j buf => buf = w ++ (w.take j).sum :: rest) (i := 0) (n := w.length)
    (s := w ++ 0 :: rest) (by simp) (by
      rintro j _ - hj rfl
      have hlt : j < w.length := by omega
      have hread : readAt (w ++ (w.take j).sum :: rest) j = .ok w[j] := by
        rw [readAt_ok_iff, List.getElem?_append_left hlt, List.getElem?_eq_getElem hlt]
      refine ⟨w ++ ((w.take j).sum + w[j]) :: rest, ?_, ?_⟩
      · simp only [readAt_append, hread, ok_bind, writeAt_append]
      · rw [List.take_succ_eq_append_getElem hlt, List.sum_append]
        simp)
  simp only [Nat.zero_add, List.take_length] at hinv
  simp only [fillCksum, writeAt_append, ok_bind, hloop, hinv, readAt_append]

theorem fillCksum_overrun {buf : List UInt8} {len : Nat} (h : buf.length ≤ len) :
    fillCksum buf len = .error .outOfBounds := by
  have hout : ¬ len < buf.length := by omega
  simp only [fillCksum, writeAt, if_neg hout, error_bind]

theorem type_of_payload {abi : Abi} {msg : Message} {p : Payload}
    (h : msg.payload abi = some p) : msg.type = p.type.toByte := by
  cases ht : MessageType.ofByte msg.type with
  | none => simp [Message.payload, ht] at h
  | some t =>
    rw [MessageType.ofByte_eq_some_iff.mp ht]
    cases t <;> simp only [Message.payload, ht, Option.some.injEq] at h <;> subst h <;> rfl

theorem payload_eq_none_iff {abi : Abi} {msg : Message} :
    msg.payload abi = none ↔ ∀ t : MessageType, msg.type ≠ t.toByte := by
  constructor
  · intro h t ht
    cases t <;> simp [Message.payload, ht] at h
  · intro h
    cases ht : MessageType.ofByte msg.type with
    | none => simp [Message.payload, ht]
    | some t => exact absurd (MessageType.ofByte_eq_some_iff.mp ht) (h t)

theorem not_size_lt {abi : Abi} {size : Int} (h : abi.sizeofMessage ≤ size) :
    ¬ toSizeT size < abi.sizeofMessage := by
  unfold toSizeT
  split <;> omega

/-- The type byte and the checksum around the payload bytes `body`. -/
theorem fill_steps (type : UInt8) (body buf : List UInt8) (h : body.length + 2 ≤ buf.length) :
    ∃ buf₁ buf₂, writeAll buf 1 body = .ok buf₁ ∧ writeAt buf₁ 0 type = .ok buf₂ ∧
      fillCksum buf₂ (1 + body.length) =
        .ok (type :: body ++ [255 - (type :: body).sum] ++ buf.drop (body.length + 2)) := by
  obtain ⟨b, mid, x, rest, hmid, rfl⟩ : ∃ b mid x rest, body.length = mid.length ∧
      buf = b :: (mid ++ x :: rest) := by
    match buf, h with
    | b :: buf, h =>
      simp only [List.length_cons] at h
      refine ⟨b, buf.take body.length, buf.get ⟨body.length, by omega⟩,
        buf.drop (body.length + 1), by simp; omega, ?_⟩
      simp
  have hdata : writeAll (b :: (mid ++ x :: rest)) 1 body = .ok (b :: (body ++ x :: rest)) :=
    writeAll_replace [b] mid (x :: rest) hmid
  have hdrop : (b :: (mid ++ x :: rest)).drop (body.length + 2) = rest := by
    have hlen : body.length + 2 = (b :: (mid ++ [x])).length := by simp [← hmid]
    rw [hlen]
    simp
  have hcksum := fillCksum_eq (type :: body) rest x
  rw [List.length_cons, Nat.add_comm] at hcksum
  refine ⟨_, type :: body ++ x :: rest, hdata, rfl, ?_⟩
  rw [hdrop, hcksum, List.append_assoc, List.singleton_append]

theorem fillMessageBuf_eq (abi : Abi) (msg : Message) (p : Payload) (buf : List UInt8)
    (size len : Int) (h : msg.payload abi = some p) (hsize : abi.sizeofMessage ≤ size)
    (hbuf : p.frame.length ≤ buf.length) :
    fillMessageBuf abi msg buf size len =
      .ok (true, p.frame ++ buf.drop p.frame.length, (p.frame.length : Int)) := by
  have hlen : p.frame.length = p.body.length + 2 := by simp
  obtain ⟨buf₁, buf₂, hdata, htype, hcksum⟩ := fill_steps p.type.toByte p.body buf (by omega)
  simp only [fillMessageBuf, if_neg (not_size_lt hsize), fillData_eq abi msg p _ h, hdata,
    ok_bind, pure_bind, if_true, type_of_payload h, htype, hcksum, hlen]
  simp [Payload.frame, Payload.content, pure, Except.pure]
  omega

/-- A buffer shorter than the frame is overrun: the size check of the encoder
looks at the size it is told, not at the buffer. -/
theorem fillMessageBuf_overrun (abi : Abi) (msg : Message) (p : Payload) (buf : List UInt8)
    (size len : Int) (h : msg.payload abi = some p) (hsize : abi.sizeofMessage ≤ size)
    (hbuf : buf.length < p.frame.length) :
    fillMessageBuf abi msg buf size len = .error .outOfBounds := by
  have hframe : p.frame.length = p.body.length + 2 := by simp
  simp only [fillMessageBuf, if_neg (not_size_lt hsize), fillData_eq abi msg p _ h]
  by_cases hbody : p.body ≠ [] ∧ buf.length < 1 + p.body.length
  · rw [writeAll_error _ _ hbody.1 hbody.2]
    rfl
  · -- the payload fits, the checksum byte does not
    have hdata : ∃ buf' : List UInt8, writeAll buf 1 p.body = .ok buf' ∧
        buf'.length = buf.length := by
      by_cases hnil : p.body = []
      · exact ⟨buf, by rw [hnil]; rfl, rfl⟩
      · have hfit : 1 + p.body.length ≤ buf.length := by
          by_contra hlt
          exact hbody ⟨hnil, by omega⟩
        refine ⟨_, writeAll_ok _ _ hfit, ?_⟩
        simp only [List.length_append, List.length_take, List.length_drop]
        omega
    obtain ⟨buf', hdata, hlen⟩ := hdata
    simp only [hdata, ok_bind, pure_bind, if_true]
    by_cases hpos : 0 < buf'.length
    · rw [writeAt_ok hpos, ok_bind, fillCksum_overrun]
      · rfl
      · rw [List.length_set]
        omega
    · simp [writeAt, hpos]

theorem fillMessageBuf_unknown (abi : Abi) (msg : Message) (buf : List UInt8) (size len : Int)
    (h : msg.payload abi = none) (hsize : abi.sizeofMessage ≤ size) :
    fillMessageBuf abi msg buf size len = .ok (false, buf, 0) := by
  have hnone : MessageType.ofByte msg.type = none := by
    cases ht : MessageType.ofByte msg.type with
    | none => rfl
    | some t =>
      exact absurd (MessageType.ofByte_eq_some_iff.mp ht) (payload_eq_none_iff.mp h t)
  simp [fillMessageBuf, if_neg (not_size_lt hsize), fillData, hnone]
  rfl

/-! ## The decoder -/

theorem parseData_eq (abi : Abi) (p : Payload) (x : UInt8) (post : List UInt8) (msg : Message)
    (h : msg.type = p.type.toByte) :
    parseData abi (x :: (p.body ++ post)) msg =
      .ok (true, { msg with data := p.store abi msg.data }) := by
  obtain ⟨type, data, cksum⟩ := msg
  simp only at h
  subst h
  cases p <;> simp only [parseData, Payload.type, MessageType.ofByte_toByte]
  case ok | error | abort | done | getVersion | version | computeData => rfl
  case startup message =>
    have hloop := forLoop_set [x] post message Offset.message data
    simp only [List.length_singleton, List.singleton_append] at hloop
    simp only [Payload.body, hloop, ok_bind]
    rfl
  case setCompute c_re c_im d_re d_im n =>
    rw [memcpyFrom_eq [x] (List.ofFn c_im ++ List.ofFn d_re ++ List.ofFn d_im ++ n :: post) c_re
        (by simp [Payload.body]) (by simp),
      memcpyFrom_eq (x :: List.ofFn c_re) (List.ofFn d_re ++ List.ofFn d_im ++ n :: post) c_im
        (by simp [Payload.body]) (by simp; omega),
      memcpyFrom_eq (x :: (List.ofFn c_re ++ List.ofFn c_im)) (List.ofFn d_im ++ n :: post) d_re
        (by simp [Payload.body]) (by simp; omega),
      memcpyFrom_eq (x :: (List.ofFn c_re ++ List.ofFn c_im ++ List.ofFn d_re)) (n :: post) d_im
        (by simp [Payload.body]) (by simp; omega),
      readAt_eq (x :: (List.ofFn c_re ++ List.ofFn c_im ++ List.ofFn d_re ++ List.ofFn d_im)) post n
        (by simp [Payload.body]) (by simp; omega)]
    rfl
  case compute cid re im n_re n_im =>
    rw [readAt_eq [x] (List.ofFn re ++ List.ofFn im ++ n_re :: n_im :: post) cid
        (by simp [Payload.body]) (by simp),
      memcpyFrom_eq [x, cid] (List.ofFn im ++ n_re :: n_im :: post) re
        (by simp [Payload.body]) (by simp),
      memcpyFrom_eq (x :: cid :: List.ofFn re) (n_re :: n_im :: post) im
        (by simp [Payload.body]) (by simp; omega),
      readAt_eq (x :: cid :: (List.ofFn re ++ List.ofFn im)) (n_im :: post) n_re
        (by simp [Payload.body]) (by simp; omega),
      readAt_eq (x :: cid :: (List.ofFn re ++ List.ofFn im ++ [n_re])) post n_im
        (by simp [Payload.body]) (by simp; omega)]
    rfl

/-- A frame at the start of the buffer is accepted whatever the message held before. -/
theorem parseMessageBuf_frame (abi : Abi) (p : Payload) (rest : List UInt8) (msg : Message) :
    parseMessageBuf abi (p.frame ++ rest) p.frame.length msg =
      .ok (true, { msg with type := p.type.toByte, data := p.store abi msg.data }) := by
  have hfits : p.frame.length ≤ (p.frame ++ rest).length := by simp
  have hread : readAt (p.frame ++ rest) 0 = .ok p.type.toByte := rfl
  have hpos : (0 : Int) < p.frame.length := by
    rw [Payload.length_frame]
    omega
  have hdata := parseData_eq abi p p.type.toByte ([255 - p.content.sum] ++ rest)
    { msg with type := p.type.toByte } rfl
  rw [← List.append_assoc, ← List.cons_append, ← Payload.frame_eq_cons] at hdata
  simp only [parseMessageBuf, Int.toNat_natCast, forLoop_sum hfits, List.take_left,
    Payload.sum_frame, ok_bind, hpos, hread, p.getMessageSize_type, p.type.toByte_lt_msgNbr,
    and_self, if_true, hdata]

/-- Everything else is rejected. The type byte still reaches the message when
the checksum is right. -/
theorem parseMessageBuf_reject (abi : Abi) (b rest : List UInt8) (msg : Message)
    (h : ∀ p : Payload, p.frame ≠ b) :
    parseMessageBuf abi (b ++ rest) b.length msg =
      .ok (false, if b.sum = 255 then { msg with type := b.headD 0 } else msg) := by
  have hfits : b.length ≤ (b ++ rest).length := by simp
  simp only [parseMessageBuf, Int.toNat_natCast, forLoop_sum hfits, List.take_left, ok_bind]
  by_cases hsum : b.sum = 255
  · cases b with
    | nil => exact absurd hsum (by decide)
    | cons x l =>
      have hpos : (0 : Int) < (x :: l).length ∧ (x :: l).sum = 0xff :=
        ⟨by rw [List.length_cons]; omega, hsum⟩
      have hread : readAt (x :: l ++ rest) 0 = .ok x := rfl
      have hunknown : ¬ (x < msgNbr ∧ (getMessageSize x 0).1 = true ∧
          ((x :: l).length : Int) = (getMessageSize x 0).2) := by
        rintro ⟨-, hknown, hlen⟩
        obtain ⟨t, rfl⟩ := getMessageSize_eq_true_iff.mp hknown
        rw [MessageType.getMessageSize_toByte] at hlen
        obtain ⟨p, -, hp⟩ := Payload.exists_frame t (t.toByte :: l) rfl (Int.ofNat.inj hlen) hsum
        exact h p hp
      simp only [if_pos hpos, hread, ok_bind, if_neg hunknown, if_pos hsum, List.headD_cons]
      rfl
  · have hsum' : ¬ ((0 : Int) < b.length ∧ b.sum = 0xff) := fun hb => hsum hb.2
    simp only [if_neg hsum', if_neg hsum]
    rfl

theorem parseMessageBuf_accepts_iff (abi : Abi) (b rest : List UInt8) (msg m : Message) :
    parseMessageBuf abi (b ++ rest) b.length msg = .ok (true, m) ↔
      ∃ p : Payload, p.frame = b ∧
        m = { msg with type := p.type.toByte, data := p.store abi msg.data } := by
  constructor
  · intro h
    by_cases hframe : ∃ p : Payload, p.frame = b
    · obtain ⟨p, rfl⟩ := hframe
      rw [parseMessageBuf_frame, Except.ok.injEq, Prod.mk.injEq] at h
      exact ⟨p, rfl, h.2.symm⟩
    · rw [parseMessageBuf_reject abi b rest msg fun p hp => hframe ⟨p, hp⟩] at h
      simp at h
  · rintro ⟨p, rfl, rfl⟩
    exact parseMessageBuf_frame abi p rest msg

theorem parseMessageBuf_total (abi : Abi) (b : List UInt8) (msg : Message) :
    ∃ accepted m, parseMessageBuf abi b b.length msg = .ok (accepted, m) := by
  by_cases hframe : ∃ p : Payload, p.frame = b
  · obtain ⟨p, rfl⟩ := hframe
    have hparse := parseMessageBuf_frame abi p [] msg
    rw [List.append_nil] at hparse
    exact ⟨_, _, hparse⟩
  · have hparse := parseMessageBuf_reject abi b [] msg fun p hp => hframe ⟨p, hp⟩
    rw [List.append_nil] at hparse
    exact ⟨_, _, hparse⟩

/-! ## Both directions -/

theorem exists_payload (abi : Abi) {msg : Message} {t : MessageType} (h : msg.type = t.toByte) :
    ∃ p, msg.payload abi = some p := by
  cases hp : msg.payload abi with
  | none => exact absurd h (payload_eq_none_iff.mp hp t)
  | some p => exact ⟨p, rfl⟩

theorem frame_le_sizeofMessage (abi : Abi) (p : Payload) :
    p.frame.length ≤ abi.sizeofMessage := by
  have hfits := abi.message_fits
  have hre := abi.cid_before_re
  rw [Payload.length_frame]
  unfold sizeofDouble at hfits
  cases p.type <;> simp only [MessageType.bodyLength] <;> omega

/-- Decoding undoes encoding, whatever the buffer and the target message held before. -/
theorem parse_fill_roundtrip (abi : Abi) (t : MessageType) (msg : Message) (h : msg.type = t.toByte)
    (buf : List UInt8) (size len : Int) (hsize : abi.sizeofMessage ≤ size)
    (hbuf : size ≤ buf.length) (target : Message) :
    ∃ (buf' : List UInt8) (len' : Int) (m : Message),
      fillMessageBuf abi msg buf size len = .ok (true, buf', len') ∧
      (∀ l, getMessageSize msg.type l = (true, len')) ∧
      parseMessageBuf abi buf' len' target = .ok (true, m) ∧
      m.type = msg.type ∧ m.payload abi = msg.payload abi ∧ (m.payload abi).isSome := by
  obtain ⟨p, hp⟩ := exists_payload abi h
  have htype := type_of_payload hp
  have hroom : p.frame.length ≤ buf.length := by
    have hle := frame_le_sizeofMessage abi p
    omega
  refine ⟨_, _, _, fillMessageBuf_eq abi msg p buf size len hp hsize hroom, ?_,
    parseMessageBuf_frame abi p _ target, htype.symm, ?_, ?_⟩
  · intro l
    rw [htype, p.getMessageSize_type]
  · rw [hp, Payload.payload_store]
  · rw [Payload.payload_store]
    rfl

theorem parse_fill_roundtrip_version :
    ∃ (buf' : List UInt8) (len' : Int) (m : Message),
      fillMessageBuf .sysV ⟨5, fun a => a.toUInt8, 0⟩ (List.replicate 56 170) 56 0 =
        .ok (true, buf', len') ∧
      (∀ l, getMessageSize 5 l = (true, len')) ∧
      parseMessageBuf .sysV buf' len' ⟨9, fun _ => 1, 2⟩ = .ok (true, m) ∧
      m.type = 5 ∧ m.payload .sysV = some (.version 0 1 2) ∧ (m.payload .sysV).isSome :=
  parse_fill_roundtrip .sysV .version ⟨5, fun a => a.toUInt8, 0⟩ rfl (List.replicate 56 170) 56 0
    (by decide) (by decide) ⟨9, fun _ => 1, 2⟩

/-- Encoding undoes decoding on everything that is accepted, so that exactly the
encodings are accepted. -/
theorem fill_parse_canonical (abi : Abi) :
    (∀ (b : List UInt8) (target m : Message),
      parseMessageBuf abi b b.length target = .ok (true, m) →
      ∀ (buf : List UInt8) (size len : Int), abi.sizeofMessage ≤ size → b.length ≤ buf.length →
        ∃ buf' : List UInt8, fillMessageBuf abi m buf size len = .ok (true, buf', (b.length : Int)) ∧
          buf'.take b.length = b) ∧
    (∀ (b : List UInt8) (target : Message),
      (∃ m, parseMessageBuf abi b b.length target = .ok (true, m)) ↔
        ∃ (msg : Message) (buf : List UInt8) (size len : Int) (buf' : List UInt8),
          abi.sizeofMessage ≤ size ∧ size ≤ buf.length ∧
          fillMessageBuf abi msg buf size len = .ok (true, buf', (b.length : Int)) ∧
          buf'.take b.length = b) := by
  have accepts (b : List UInt8) (target m : Message) := by
    have h := parseMessageBuf_accepts_iff abi b [] target m
    rwa [List.append_nil] at h
  have canonical (p : Payload) (target : Message) (buf : List UInt8) (size len : Int)
      (hsize : abi.sizeofMessage ≤ size) (hbuf : p.frame.length ≤ buf.length) :
      ∃ buf' : List UInt8, fillMessageBuf abi ⟨p.type.toByte, p.store abi target.data, target.cksum⟩
        buf size len = .ok (true, buf', (p.frame.length : Int)) ∧
        buf'.take p.frame.length = p.frame :=
    ⟨_, fillMessageBuf_eq abi _ p buf size len (p.payload_store abi _ _) hsize hbuf, by simp⟩
  constructor
  · intro b target m h buf size len hsize hbuf
    obtain ⟨p, rfl, rfl⟩ := (accepts b target m).mp h
    exact canonical p target buf size len hsize hbuf
  · intro b target
    constructor
    · rintro ⟨m, h⟩
      obtain ⟨p, rfl, rfl⟩ := (accepts b target m).mp h
      have hle := frame_le_sizeofMessage abi p
      obtain ⟨buf', hfill, htake⟩ := canonical p target (List.replicate abi.sizeofMessage 0)
        abi.sizeofMessage 0 (Int.le_refl _) (by simpa using hle)
      exact ⟨_, _, _, _, buf', Int.le_refl _, by simp, hfill, htake⟩
    · rintro ⟨msg, buf, size, len, buf', hsize, hbuf, hfill, htake⟩
      cases hp : msg.payload abi with
      | none => simp [fillMessageBuf_unknown abi msg buf size len hp hsize] at hfill
      | some p =>
        have hle := frame_le_sizeofMessage abi p
        rw [fillMessageBuf_eq abi msg p buf size len hp hsize (by omega)] at hfill
        simp only [Except.ok.injEq, Prod.mk.injEq, true_and] at hfill
        obtain ⟨rfl, hlen⟩ := hfill
        have hframe : p.frame = b := by
          rw [← htake, ← Int.ofNat.inj hlen, List.take_left]
        exact ⟨_, (accepts b target _).mpr ⟨p, hframe, rfl⟩⟩

end Prgsem
