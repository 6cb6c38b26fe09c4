import Prgsem.Shared.CMemory

/-!
# The messages of the serial line

`messages.h` and `messages.c`: the message types, the length table, the encoder
and the decoder. A `double` is an opaque pattern of eight bytes. The union
`data` is the memory that starts at its first byte, so that members overlap as
they do in C. Pointer arguments are never null in the callers and are passed as
values; the output parameters are returned.
-/

namespace Prgsem

open CMemory
set_option autoImplicit false

inductive MessageType where
  | ok
  | error
  | abort
  | done
  | getVersion
  | version
  | startup
  | setCompute
  | compute
  | computeData
  deriving DecidableEq, Repr

namespace MessageType

def toByte : MessageType → UInt8
  | ok => 0
  | error => 1
  | abort => 2
  | done => 3
  | getVersion => 4
  | version => 5
  | startup => 6
  | setCompute => 7
  | compute => 8
  | computeData => 9

/-- The `case` label that a `switch` over a type byte selects, `none` for `default`. -/
def ofByte (b : UInt8) : Option MessageType :=
  match b.toNat with
  | 0 => some ok
  | 1 => some error
  | 2 => some abort
  | 3 => some done
  | 4 => some getVersion
  | 5 => some version
  | 6 => some startup
  | 7 => some setCompute
  | 8 => some compute
  | 9 => some computeData
  | _ => none

@[simp] theorem ofByte_toByte (t : MessageType) : ofByte t.toByte = some t := by
  cases t <;> rfl

theorem ofByte_eq_some_iff {b : UInt8} {t : MessageType} : ofByte b = some t ↔ b = t.toByte := by
  constructor
  · intro h
    apply UInt8.toNat_inj.mp
    unfold ofByte at h
    split at h <;> cases h <;> assumption
  · rintro rfl
    exact ofByte_toByte t

end MessageType

def msgNbr : UInt8 := 10

def startupMsgLen : Nat := 9

def sizeofDouble : Nat := 8

/-- What the application binary interface fixes: the size of `message` and the
offset of `re` in `msg_compute`, the only member that alignment may move. -/
structure Abi where
  sizeofMessage : Nat
  re : Nat
  cid_before_re : 1 ≤ re
  message_fits : 1 + max (4 * sizeofDouble + 1) (re + 2 * sizeofDouble + 2) + 1 ≤ sizeofMessage

/-- The 64-bit System V interface: doubles are aligned to eight bytes. -/
def Abi.sysV : Abi where
  sizeofMessage := 56
  re := 8
  cid_before_re := by decide
  message_fits := by decide

/-! Offsets of the members in the union `data`. -/

namespace Offset

abbrev major : Nat := 0
abbrev minor : Nat := 1
abbrev patch : Nat := 2
abbrev message : Nat := 0
abbrev c_re : Nat := 0
abbrev c_im : Nat := 8
abbrev d_re : Nat := 16
abbrev d_im : Nat := 24
abbrev n : Nat := 32
abbrev cid : Nat := 0
abbrev i_re : Nat := 1
abbrev i_im : Nat := 2
abbrev iter : Nat := 3

attribute [simp] major minor patch message c_re c_im d_re d_im n cid i_re i_im iter

end Offset

namespace Abi

abbrev im (abi : Abi) : Nat := abi.re + 8
abbrev n_re (abi : Abi) : Nat := abi.re + 16
abbrev n_im (abi : Abi) : Nat := abi.re + 17

attribute [simp] im n_re n_im

end Abi

structure Message where
  type : UInt8
  data : Mem
  cksum : UInt8

/-- `len` is what `*len` holds before the call. -/
def getMessageSize (msgType : UInt8) (len : Int) : Bool × Int :=
  match MessageType.ofByte msgType with
  | some .ok | some .error | some .abort | some .done | some .getVersion => (true, 2)
  | some .startup => (true, 2 + startupMsgLen)
  | some .version => (true, 2 + 3 * 1)
  | some .setCompute => (true, 2 + 4 * sizeofDouble + 1)
  | some .compute => (true, 2 + 1 + 2 * sizeofDouble + 2)
  | some .computeData => (true, 2 + 4)
  | none => (false, len)

/-- Conversion of an `int` to `size_t`, as in `size < sizeof(message)`. -/
def toSizeT (i : Int) : Nat := if 0 ≤ i then i.toNat else (i + 2 ^ 64).toNat

/-- The `switch` of `fill_message_buf`: whether the type is known, the buffer
with the payload in it and the new `*len`. -/
def fillData (abi : Abi) (msg : Message) (buf : List UInt8) :
    Except Fault (Bool × List UInt8 × Nat) :=
  match MessageType.ofByte msg.type with
  | some .ok | some .error | some .abort | some .done | some .getVersion => .ok (true, buf, 1)
  | some .startup => do
    let buf ← forLoop (fun i buf => writeAt buf (1 + i) (msg.data (Offset.message + i)))
      0 startupMsgLen buf
    return (true, buf, 1 + startupMsgLen)
  | some .version => do
    let buf ← writeAt buf 1 (msg.data Offset.major)
    let buf ← writeAt buf 2 (msg.data Offset.minor)
    let buf ← writeAt buf 3 (msg.data Offset.patch)
    return (true, buf, 4)
  | some .setCompute => do
    let buf ← memcpyTo buf (1 + 0 * sizeofDouble) (msg.data.load Offset.c_re sizeofDouble)
    let buf ← memcpyTo buf (1 + 1 * sizeofDouble) (msg.data.load Offset.c_im sizeofDouble)
    let buf ← memcpyTo buf (1 + 2 * sizeofDouble) (msg.data.load Offset.d_re sizeofDouble)
    let buf ← memcpyTo buf (1 + 3 * sizeofDouble) (msg.data.load Offset.d_im sizeofDouble)
    let buf ← writeAt buf (1 + 4 * sizeofDouble) (msg.data Offset.n)
    return (true, buf, 1 + 4 * sizeofDouble + 1)
  | some .compute => do
    let buf ← writeAt buf 1 (msg.data Offset.cid)
    let buf ← memcpyTo buf (2 + 0 * sizeofDouble) (msg.data.load abi.re sizeofDouble)
    let buf ← memcpyTo buf (2 + 1 * sizeofDouble) (msg.data.load abi.im sizeofDouble)
    let buf ← writeAt buf (2 + 2 * sizeofDouble + 0) (msg.data abi.n_re)
    let buf ← writeAt buf (2 + 2 * sizeofDouble + 1) (msg.data abi.n_im)
    return (true, buf, 1 + 1 + 2 * sizeofDouble + 2)
  | some .computeData => do
    let buf ← writeAt buf 1 (msg.data Offset.cid)
    let buf ← writeAt buf 2 (msg.data Offset.i_re)
    let buf ← writeAt buf 3 (msg.data Offset.i_im)
    let buf ← writeAt buf 4 (msg.data Offset.iter)
    return (true, buf, 5)
  | none => .ok (false, buf, 0)

/-- The checksum loop of `fill_message_buf` over the first `len` bytes. -/
def fillCksum (buf : List UInt8) (len : Nat) : Except Fault (List UInt8) := do
  let buf ← writeAt buf len 0
  let buf ← forLoop (fun i buf => do
    let sum ← readAt buf len
    let v ← readAt buf i
    writeAt buf len (sum + v)) 0 len buf
  let sum ← readAt buf len
  writeAt buf len (255 - sum)

/-- Returns the result, the buffer and the value of `*len` after the call. -/
def fillMessageBuf (abi : Abi) (msg : Message) (buf : List UInt8) (size len : Int) :
    Except Fault (Bool × List UInt8 × Int) :=
  if toSizeT size < abi.sizeofMessage then .ok (false, buf, len)
  else do
    let (ret, buf, len) ← fillData abi msg buf
    if ret then
      let buf ← writeAt buf 0 msg.type
      let buf ← fillCksum buf len
      return (true, buf, len + 1)
    else
      return (false, buf, len)

def parseData (abi : Abi) (buf : List UInt8) (msg : Message) : Except Fault (Bool × Message) :=
  match MessageType.ofByte msg.type with
  | some .ok | some .error | some .abort | some .done | some .getVersion => .ok (true, msg)
  | some .startup => do
    let data ← forLoop (fun i (data : Mem) => do
      let v ← readAt buf (i + 1)
      return data.set (Offset.message + i) v) 0 startupMsgLen msg.data
    return (true, { msg with data := data })
  | some .version => do
    let major ← readAt buf 1
    let minor ← readAt buf 2
    let patch ← readAt buf 3
    let data := ((msg.data.set Offset.major major).set Offset.minor minor).set Offset.patch patch
    return (true, { msg with data := data })
  | some .setCompute => do
    let c_re ← memcpyFrom buf (1 + 0 * sizeofDouble) sizeofDouble
    let c_im ← memcpyFrom buf (1 + 1 * sizeofDouble) sizeofDouble
    let d_re ← memcpyFrom buf (1 + 2 * sizeofDouble) sizeofDouble
    let d_im ← memcpyFrom buf (1 + 3 * sizeofDouble) sizeofDouble
    let n ← readAt buf (1 + 4 * sizeofDouble)
    let data := (((msg.data.store Offset.c_re c_re).store Offset.c_im c_im).store
      Offset.d_re d_re).store Offset.d_im d_im
    return (true, { msg with data := data.set Offset.n n })
  | some .compute => do
    let cid ← readAt buf 1
    let re ← memcpyFrom buf (2 + 0 * sizeofDouble) sizeofDouble
    let im ← memcpyFrom buf (2 + 1 * sizeofDouble) sizeofDouble
    let n_re ← readAt buf (2 + 2 * sizeofDouble + 0)
    let n_im ← readAt buf (2 + 2 * sizeofDouble + 1)
    let data := ((msg.data.set Offset.cid cid).store abi.re re).store abi.im im
    return (true, { msg with data := (data.set abi.n_re n_re).set abi.n_im n_im })
  | some .computeData => do
    let cid ← readAt buf 1
    let i_re ← readAt buf 2
    let i_im ← readAt buf 3
    let iter ← readAt buf 4
    let data := (msg.data.set Offset.cid cid).set Offset.i_re i_re
    return (true, { msg with data := (data.set Offset.i_im i_im).set Offset.iter iter })
  | none => .ok (false, msg)

/-- Returns the result and `*msg` after the call. The type is stored in the
message before the last two conjuncts of the condition are tested. -/
def parseMessageBuf (abi : Abi) (buf : List UInt8) (size : Int) (msg : Message) :
    Except Fault (Bool × Message) := do
  let cksum ← forLoop (fun i (cksum : UInt8) => do
    let v ← readAt buf i
    return cksum + v) 0 size.toNat 0
  if 0 < size ∧ cksum = 0xff then
    let type ← readAt buf 0
    let msg := { msg with type := type }
    -- `message_size` is read only when the call has set it
    let (known, messageSize) := getMessageSize msg.type 0
    if msg.type < msgNbr ∧ known ∧ size = messageSize then
      parseData abi buf msg
    else
      return (false, msg)
  else
    return (false, msg)

end Prgsem
