import Prgsem.Codec

/-!
# The messages of the lab firmware

`messages.h` and `messages.cpp` of the microcontroller: nine types, and 16-bit
fields that go over the line with the high byte first. The checksum loop is the
one of the application, and so is the layout of a message: type, union, checksum.
-/

namespace Prgsem.Firmware

open CMemory
set_option autoImplicit false

inductive MessageType where
  | ok
  | error
  | abort
  | done
  | getVersion
  | version
  | startup
  | compute
  | computeData
  deriving DecidableEq, Repr

namespace MessageType

def toByte : MessageType → UInt8
  | ok => 0
  | error => 1
  | abort => 2
  | done => 3
  | getVersion => 4
  | version => 5
  | startup => 6
  | compute => 7
  | computeData => 8

/-- The `case` label that a `switch` over a type byte selects, `none` for `default`. -/
def ofByte (b : UInt8) : Option MessageType :=
  match b.toNat with
  | 0 => some ok
  | 1 => some error
  | 2 => some abort
  | 3 => some done
  | 4 => some getVersion
  | 5 => some version
  | 6 => some startup
  | 7 => some compute
  | 8 => some computeData
  | _ => none

@[simp] theorem ofByte_toByte (t : MessageType) : ofByte t.toByte = some t := by
  cases t <;> rfl

theorem ofByte_eq_some_iff {b : UInt8} {t : MessageType} : ofByte b = some t ↔ b = t.toByte := by
  constructor
  · intro h
    apply UInt8.toNat_inj.mp
    unfold ofByte at h
    split at h <;> cases h <;> assumption
  · rintro rfl
    exact ofByte_toByte t

theorem toByte_inj {t t' : MessageType} (h : t.toByte = t'.toByte) : t = t' := by
  have hsome := ofByte_toByte t
  rw [h, ofByte_toByte, Option.some.injEq] at hsome
  exact hsome.symm

end MessageType

def msgNbr : UInt8 := 9

/-- `sizeof(message)`: the 16-bit members align the union to two bytes, so that
it starts at offset 2 and takes ten bytes, and the whole is padded to even size. -/
def sizeofMessage : Nat := 14

namespace Offset

abbrev chunk_id : Nat := 0
abbrev nbr_tasks : Nat := 2
abbrev task_id : Nat := 2
abbrev result : Nat := 4

attribute [simp] chunk_id nbr_tasks task_id result

end Offset

/-- `len` is what `*size` holds before the call. -/
def getMessageSize (msgType : UInt8) (len : Int) : Bool × Int :=
  match MessageType.ofByte msgType with
  | some .ok | some .error | some .abort | some .done | some .getVersion => (true, 2)
  | some .startup => (true, 2 + startupMsgLen)
  | some .version => (true, 2 + 3 * 1)
  | some .compute => (true, 2 + 2 * 2)
  | some .computeData => (true, 2 + 2 * 2 + 1)
  | none => (false, len)

/-- Conversion of an `int` to the 32-bit `size_t`, as in `size < sizeof(message)`. -/
def toSizeT (i : Int) : Nat := if 0 ≤ i then i.toNat else (i + 2 ^ 32).toNat

/-- The `switch` of `fill_message_buf`: whether the type is known, the buffer
with the payload in it and the new `*len`. -/
def fillData (msg : Message) (buf : List UInt8) : Except Fault (Bool × List UInt8 × Nat) :=
  match MessageType.ofByte msg.type with
  | some .ok | some .error | some .abort | some .done | some .getVersion => .ok (true, buf, 1)
  | some .startup => do
    let buf ← forLoop (fun i buf => writeAt buf (1 + i) (msg.data (Offset.message + i)))
      0 startupMsgLen buf
    return (true, buf, 1 + startupMsgLen)
  | some .version => do
    let buf ← writeAt buf 1 (msg.data Offset.major)
    let buf ← writeAt buf 2 (msg.data Offset.minor)
    let buf ← writeAt buf 3 (msg.data Offset.patch)
    return (true, buf, 4)
  | some .compute => do
    let buf ← writeAt buf 1 (hiByte (msg.data.load16 Offset.chunk_id))
    let buf ← writeAt buf 2 (loByte (msg.data.load16 Offset.chunk_id))
    let buf ← writeAt buf 3 (hiByte (msg.data.load16 Offset.nbr_tasks))
    let buf ← writeAt buf 4 (loByte (msg.data.load16 Offset.nbr_tasks))
    return (true, buf, 5)
  | some .computeData => do
    let buf ← writeAt buf 1 (hiByte (msg.data.load16 Offset.chunk_id))
    let buf ← writeAt buf 2 (loByte (msg.data.load16 Offset.chunk_id))
    let buf ← writeAt buf 3 (hiByte (msg.data.load16 Offset.task_id))
    let buf ← writeAt buf 4 (loByte (msg.data.load16 Offset.task_id))
    let buf ← writeAt buf 5 (msg.data Offset.result)
    return (true, buf, 6)
  | none => .ok (false, buf, 0)

/-- Returns the result, the buffer and the value of `*len` after the call. -/
def fillMessageBuf (msg : Message) (buf : List UInt8) (size len : Int) :
    Except Fault (Bool × List UInt8 × Int) :=
  if toSizeT size < sizeofMessage then .ok (false, buf, len)
  else do
    let (ret, buf, len) ← fillData msg buf
    if ret then
      let buf ← writeAt buf 0 msg.type
      let buf ← fillCksum buf len
      return (true, buf, len + 1)
    else
      return (false, buf, len)

def parseData (buf : List UInt8) (msg : Message) : Except Fault (Bool × Message) :=
  match MessageType.ofByte msg.type with
  | some .ok | some .error | some .abort | some .done | some .getVersion => .ok (true, msg)
  | some .startup => do
    let data ← forLoop (fun i (data : Mem) => do
      let v ← readAt buf (i + 1)
      return data.set (Offset.message + i) v) 0 startupMsgLen msg.data
    return (true, { msg with data := data })
  | some .version => do
    let major ← readAt buf 1
    let minor ← readAt buf 2
    let patch ← readAt buf 3
    let data := ((msg.data.set Offset.major major).set Offset.minor minor).set Offset.patch patch
    return (true, { msg with data := data })
  | some .compute => do
    let chunkHi ← readAt buf 1
    let chunkLo ← readAt buf 2
    let nbrHi ← readAt buf 3
    let nbrLo ← readAt buf 4
    let data := msg.data.store16 Offset.chunk_id (joinBytes chunkHi chunkLo)
    return (true, { msg with data := data.store16 Offset.nbr_tasks (joinBytes nbrHi nbrLo) })
  | some .computeData => do
    let chunkHi ← readAt buf 1
    let chunkLo ← readAt buf 2
    let taskHi ← readAt buf 3
    let taskLo ← readAt buf 4
    let result ← readAt buf 5
    let data := msg.data.store16 Offset.chunk_id (joinBytes chunkHi chunkLo)
    let data := data.store16 Offset.task_id (joinBytes taskHi taskLo)
    return (true, { msg with data := data.set Offset.result result })
  | none => .ok (false, msg)

/-- Returns the result and `*msg` after the call. -/
def parseMessageBuf (buf : List UInt8) (size : Int) (msg : Message) :
    Except Fault (Bool × Message) := do
  let cksum ← forLoop (fun i (cksum : UInt8) => do
    let v ← readAt buf i
    return cksum + v) 0 size.toNat 0
  if 0 < size ∧ cksum = 0xff then
    let type ← readAt buf 0
    let msg := { msg with type := type }
    -- `message_size` is read only when the call has set it
    let (known, messageSize) := getMessageSize msg.type 0
    if msg.type < msgNbr ∧ known ∧ size = messageSize then
      parseData buf msg
    else
      return (false, msg)
  else
    return (false, msg)

/-! ## The wire format -/

/-- A message as a value. -/
inductive Payload where
  | ok
  | error
  | abort
  | done
  | getVersion
  | version (major minor patch : UInt8)
  | startup (message : Bytes startupMsgLen)
  | compute (chunk_id nbr_tasks : UInt16)
  | computeData (chunk_id task_id : UInt16) (result : UInt8)

namespace Payload

def type : Payload → MessageType
  | ok => .ok
  | error => .error
  | abort => .abort
  | done => .done
  | getVersion => .getVersion
  | version .. => .version
  | startup .. => .startup
  | compute .. => .compute
  | computeData .. => .computeData

def body : Payload → List UInt8
  | ok | error | abort | done | getVersion => []
  | version major minor patch => [major, minor, patch]
  | startup message => List.ofFn message
  | compute chunk_id nbr_tasks =>
    [hiByte chunk_id, loByte chunk_id, hiByte nbr_tasks, loByte nbr_tasks]
  | computeData chunk_id task_id result =>
    [hiByte chunk_id, loByte chunk_id, hiByte task_id, loByte task_id, result]

def content (p : Payload) : List UInt8 := p.type.toByte :: p.body

def frame (p : Payload) : List UInt8 := p.content ++ [255 - p.content.sum]

/-- The payload fields written to the union, one assignment a field. -/
def store (p : Payload) (data : Mem) : Mem :=
  match p with
  | ok | error | abort | done | getVersion => data
  | version major minor patch =>
    ((data.set Offset.major major).set Offset.minor minor).set Offset.patch patch
  | startup message => data.store Offset.message message
  | compute chunk_id nbr_tasks =>
    (data.store16 Offset.chunk_id chunk_id).store16 Offset.nbr_tasks nbr_tasks
  | computeData chunk_id task_id result =>
    ((data.store16 Offset.chunk_id chunk_id).store16 Offset.task_id task_id).set
      Offset.result result

end Payload

/-- The message as a value: the members of the union that its type selects. -/
def payload (msg : Message) : Option Payload :=
  match MessageType.ofByte msg.type with
  | some .ok => some .ok
  | some .error => some .error
  | some .abort => some .abort
  | some .done => some .done
  | some .getVersion => some .getVersion
  | some .version =>
    some (.version (msg.data Offset.major) (msg.data Offset.minor) (msg.data Offset.patch))
  | some .startup => some (.startup (msg.data.load Offset.message startupMsgLen))
  | some .compute =>
    some (.compute (msg.data.load16 Offset.chunk_id) (msg.data.load16 Offset.nbr_tasks))
  | some .computeData =>
    some (.computeData (msg.data.load16 Offset.chunk_id) (msg.data.load16 Offset.task_id)
      (msg.data Offset.result))
  | none => none

theorem payload_eq_none_iff {msg : Message} :
    payload msg = none ↔ MessageType.ofByte msg.type = none := by
  cases ht : MessageType.ofByte msg.type with
  | none => simp [payload, ht]
  | some t => cases t <;> simp [payload, ht]

theorem type_of_payload {msg : Message} {p : Payload} (h : payload msg = some p) :
    msg.type = p.type.toByte := by
  cases ht : MessageType.ofByte msg.type with
  | none => simp [payload, ht] at h
  | some t =>
    rw [MessageType.ofByte_eq_some_iff.mp ht]
    cases t <;> simp only [payload, ht, Option.some.injEq] at h <;> subst h <;> rfl

namespace Payload

@[simp] theorem length_frame (p : Payload) : p.frame.length = p.body.length + 2 := by
  simp [frame, content]

theorem frame_eq_cons (p : Payload) :
    p.frame = p.type.toByte :: (p.body ++ [255 - p.content.sum]) := rfl

@[simp] theorem sum_frame (p : Payload) : p.frame.sum = 255 := sum_append_complement p.content

/-- The longest frame is the one of `MSG_STARTUP`. -/
theorem length_frame_le (p : Payload) : p.frame.length ≤ 11 := by
  rw [length_frame]
  cases p <;> simp only [body, List.length_ofFn, List.length_cons, List.length_nil] <;> decide

theorem getMessageSize_type (p : Payload) (len : Int) :
    getMessageSize p.type.toByte len = (true, (p.frame.length : Int)) := by
  cases p with
  | startup message => simp [getMessageSize, type, body, Int.add_comm]
  | _ => rfl

theorem toByte_lt_msgNbr (t : MessageType) : t.toByte < msgNbr := by
  cases t <;> decide

theorem payload_store (p : Payload) (data : Mem) (cksum : UInt8) :
    payload ⟨p.type.toByte, p.store data, cksum⟩ = some p := by
  cases p with
  | ok => rfl
  | error => rfl
  | abort => rfl
  | done => rfl
  | getVersion => rfl
  | version a b c => simp (disch := omega) [payload, type, store, Mem.set_ne]
  | startup m => simp [payload, type, store]
  | compute c n => simp (disch := omega) [payload, type, store, Mem.load16_store16_disjoint]
  | computeData c t r =>
    simp (disch := omega) [payload, type, store, Mem.load16_store16_disjoint,
      Mem.load16_set_disjoint]

end Payload

/-! ## The encoder and the decoder -/

theorem fillData_eq (msg : Message) (p : Payload) (buf : List UInt8) (h : payload msg = some p) :
    fillData msg buf = (do
      let buf ← writeAll buf 1 p.body
      return (true, buf, 1 + p.body.length)) := by
  cases ht : MessageType.ofByte msg.type with
  | none => simp [payload, ht] at h
  | some t =>
    cases t <;> simp only [payload, ht, Option.some.injEq] at h <;> subst h <;>
      simp only [fillData, ht]
    case ok | error | abort | done | getVersion => rfl
    case startup =>
      rw [forLoop_writeAt]
      simp only [Payload.body, List.length_ofFn, Nat.zero_add]
      rfl
    all_goals
      simp only [Payload.body, writeAll, bind_assoc, ok_bind]
      rfl

theorem fillMessageBuf_eq (msg : Message) (p : Payload) (buf : List UInt8) (len : Int)
    (h : payload msg = some p) (hbuf : p.frame.length ≤ buf.length) :
    fillMessageBuf msg buf sizeofMessage len =
      .ok (true, p.frame ++ buf.drop p.frame.length, (p.frame.length : Int)) := by
  have hsize : ¬ toSizeT sizeofMessage < sizeofMessage := by decide
  have hlen := p.length_frame
  obtain ⟨buf₁, buf₂, hdata, htype, hcksum⟩ := fill_steps p.type.toByte p.body buf (by omega)
  simp only [fillMessageBuf, if_neg hsize, fillData_eq msg p _ h, hdata, ok_bind, pure_bind,
    if_true, type_of_payload h, htype, hcksum, hlen]
  simp [Payload.frame, Payload.content, pure, Except.pure]
  omega

theorem fillMessageBuf_unknown (msg : Message) (buf : List UInt8) (len : Int)
    (h : payload msg = none) : fillMessageBuf msg buf sizeofMessage len = .ok (false, buf, 0) := by
  have hsize : ¬ toSizeT sizeofMessage < sizeofMessage := by decide
  simp [fillMessageBuf, if_neg hsize, fillData, payload_eq_none_iff.mp h]
  rfl

theorem parseData_eq (p : Payload) (x : UInt8) (post : List UInt8) (msg : Message)
    (h : msg.type = p.type.toByte) :
    parseData (x :: (p.body ++ post)) msg =
      .ok (true, { msg with data := p.store msg.data }) := by
  obtain ⟨type, data, cksum⟩ := msg
  simp only at h
  subst h
  cases p <;> simp only [parseData, Payload.type, MessageType.ofByte_toByte]
  case ok | error | abort | done | getVersion | version => rfl
  case startup message =>
    have hloop := forLoop_set [x] post message Offset.message data
    simp only [List.length_singleton, List.singleton_append] at hloop
    simp only [Payload.body, hloop, ok_bind]
    rfl
  case compute c n =>
    show Except.ok (true, _) = _
    simp only [Payload.store, joinBytes_hiByte_loByte]
  case computeData c t r =>
    show Except.ok (true, _) = _
    simp only [Payload.store, joinBytes_hiByte_loByte]

/-- A frame at the start of the buffer is accepted whatever the message held before. -/
theorem parseMessageBuf_frame (p : Payload) (rest : List UInt8) (msg : Message) :
    parseMessageBuf (p.frame ++ rest) p.frame.length msg =
      .ok (true, { msg with type := p.type.toByte, data := p.store msg.data }) := by
  have hfits : p.frame.length ≤ (p.frame ++ rest).length := by simp
  have hread : readAt (p.frame ++ rest) 0 = .ok p.type.toByte := rfl
  have hpos : (0 : Int) < p.frame.length := by
    rw [Payload.length_frame]
    omega
  have hdata := parseData_eq p p.type.toByte ([255 - p.content.sum] ++ rest)
    { msg with type := p.type.toByte } rfl
  rw [← List.append_assoc, ← List.cons_append, ← Payload.frame_eq_cons] at hdata
  simp only [parseMessageBuf, Int.toNat_natCast, forLoop_sum hfits, List.take_left,
    Payload.sum_frame, ok_bind, hpos, hread, p.getMessageSize_type,
    Payload.toByte_lt_msgNbr p.type, and_self, if_true, hdata]

end Prgsem.Firmware
