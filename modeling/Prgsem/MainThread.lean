import Prgsem.Matrix
import Prgsem.Messages
import Prgsem.Serial

/-!
# The main thread

`send_message` and the loop of `main_thread` in `main.c`, one round a step. What
a round does not determine itself is its input: the key of the event it takes
off the queue, the result of `write`, and what the uninitialised locals and the
memory of the two buffers hold. Sleeping has no effect but its argument is an
`int`; the stack is large enough for every buffer. A `%s` argument is the memory
that it points to, of which the text up to the first zero byte is printed.
-/

namespace Prgsem

open CMemory
set_option autoImplicit false

def sizeX : Nat := 320

def sizeY : Nat := 240

def chunkX : UInt8 := 80

def chunkY : UInt8 := 1

/-- What one round of the loop does not compute itself: `ev->param` when it takes an
event; `msg`, `len` and `msg_buf` of the sending side before they are written; the
result of `write`; `type`, `len`, `msg_buf` and `msg` of the receiving side before
they are written. -/
structure Env where
  key : Option UInt8
  sendMsg : Message
  sendLen : Int
  sendMem : Mem
  written : Int
  type : UInt8
  len : Int
  recvMem : Mem
  recvMsg : Message

/-- No key, and zero wherever nothing was written. -/
def Env.zero : Env where
  key := none
  sendMsg := ⟨0, fun _ => 0, 0⟩
  sendLen := 0
  sendMem := fun _ => 0
  written := 0
  type := 0
  len := 0
  recvMem := fun _ => 0
  recvMsg := ⟨0, fun _ => 0, 0⟩

/-! ## Sending -/

/-- A `double` from its bit pattern, in little-endian order. -/
def double (bits : UInt64) : Bytes sizeofDouble :=
  fun k => (bits >>> (8 * UInt64.ofNat k)).toUInt8

def half : Bytes sizeofDouble := double 0x3FE0000000000000

def minusHalf : Bytes sizeofDouble := double 0xBFE0000000000000

/-- The `switch` on `ev->param`: the message to send, `none` when `correct` is false. -/
def command (abi : Abi) (param : UInt8) (msg : Message) : Option Message :=
  match Char.ofNat param.toNat with
  | 'g' => some { msg with type := MessageType.getVersion.toByte, cksum := 251 }
  | 's' =>
    let data := (((msg.data.store Offset.c_re minusHalf).store Offset.c_im minusHalf).store
      Offset.d_re half).store Offset.d_im half
    some ⟨MessageType.setCompute.toByte, data.set Offset.n 60, 251⟩
  | 'l' | 'a' => some { msg with type := MessageType.abort.toByte, cksum := 251 }
  | 'r' | '1' =>
    let data := ((msg.data.set Offset.cid 1).store abi.re minusHalf).store abi.im minusHalf
    some ⟨MessageType.compute.toByte, (data.set abi.n_re chunkX).set abi.n_im chunkY, 251⟩
  | _ => none

structure Transmission where
  offered : List UInt8
  written : Int

/-- `write(fd, buf, len)`, which reads `len` bytes of the buffer. -/
def write (buf : List UInt8) (len written : Int) : Except Fault Transmission :=
  if toSizeT len ≤ buf.length then .ok ⟨buf.take (toSizeT len), written⟩
  else .error .outOfBounds

def sendMessage (abi : Abi) (msg : Message) (msgBuf : List UInt8) (len written : Int) :
    Except Fault (Bool × Transmission) := do
  let (_, msgBuf, len) ← fillMessageBuf abi msg msgBuf abi.sizeofMessage len
  let sent ← write msgBuf len written
  return (true, sent)

/-- `uint8_t buf[len]` where the stack holds `mem`. -/
def newBuf (len : Int) (mem : Mem) : Except Fault (List UInt8) :=
  if 0 < len then .ok (List.ofFn fun k : Fin len.toNat => mem k) else .error .badLength

/-- The first half of a round, after the event has been taken. -/
def handleEvent (abi : Abi) (env : Env) : Except Fault (Option Transmission) :=
  match env.key with
  | none => .ok none
  | some param =>
    match command abi param env.sendMsg with
    | none => .ok none
    | some msg => do
      let msgBuf ← newBuf env.sendLen env.sendMem
      let (_, sent) ← sendMessage abi msg msgBuf env.sendLen env.written
      return some sent

/-! ## Receiving -/

/-- The byte loop, with `n` bytes to go from index `i` on: the buffer, the outcomes
to come and whether the warning was printed. -/
def receiveBytes : Nat → Nat → List UInt8 → UInt8 → List ReadOutcome →
    Except Fault (List UInt8 × List ReadOutcome × Bool)
  | 0, _, msgBuf, _, input => .ok (msgBuf, input, false)
  | n + 1, i, msgBuf, type, input => do
    let (result, type, input) := serialGetcTimeout type input
    -- `r` is a `uint8_t`: an error is 255
    let r := UInt8.ofInt result
    if 0 < r then
      let msgBuf ← writeAt msgBuf i type
      receiveBytes n (i + 1) msgBuf type input
    else
      return (msgBuf, input, true)

/-- The argument of `usleep`. -/
def sleepTime (len : Int) : Except Fault Int :=
  if (len + 25) * 200 ≤ intMax then .ok ((len + 25) * 200) else .error .overflow

inductive Report where
  | startup (type : UInt8) (text : Mem)
  | version (type major minor patch : UInt8)
  | error
  | data (i_re i_im iter : UInt8)
  | nonstandard (type : UInt8) (text : Mem)

def memoryFrom (buf : List UInt8) (mem : Mem) : Mem := fun k => buf.getD k (mem k)

def dispatch (msg : Message) (text : Mem) (results : Matrix sizeX sizeY) :
    Except Fault (Report × Matrix sizeX sizeY) :=
  if msg.type = MessageType.startup.toByte then
    .ok (.startup msg.type fun k => msg.data (Offset.message + k), results)
  else if msg.type = MessageType.version.toByte then
    .ok (.version msg.type (msg.data Offset.major) (msg.data Offset.minor)
      (msg.data Offset.patch), results)
  else if msg.type = MessageType.error.toByte then
    .ok (.error, results)
  else if msg.type = MessageType.computeData.toByte then do
    let results ← results.store
      ((msg.data Offset.cid).toNat * chunkX.toNat + (msg.data Offset.i_re).toNat)
      (msg.data Offset.iter).toNat
    return (.data (msg.data Offset.i_re) (msg.data Offset.i_im) (msg.data Offset.iter), results)
  else
    .ok (.nonstandard msg.type text, results)

/-- What happened to a frame: the buffer given to the parser, whether the warning
was printed, the parser's result and `msg` after it, and what was printed then. -/
structure Pass where
  frame : List UInt8
  warned : Bool
  accepted : Bool
  msg : Message
  report : Report

structure MainState where
  results : Matrix sizeX sizeY
  input : List ReadOutcome

/-- The second half of a round. The results of `get_message_size` and of
`parse_message_buf` are not looked at. -/
def receive (abi : Abi) (env : Env) (s : MainState) : Except Fault (MainState × Option Pass) :=
  let (result, type, input) := readByte env.type s.input
  if result ≠ 0 then do
    let (_, len) := getMessageSize type env.len
    let msgBuf ← newBuf len env.recvMem
    let msgBuf ← writeAt msgBuf 0 type
    let (msgBuf, input, warned) ← receiveBytes (len.toNat - 1) 1 msgBuf type input
    let _ ← sleepTime len
    let (accepted, msg) ← parseMessageBuf abi msgBuf len env.recvMsg
    let (report, results) ← dispatch msg (memoryFrom msgBuf env.recvMem) s.results
    return (⟨results, input⟩, some ⟨msgBuf, warned, accepted, msg, report⟩)
  else
    .ok ({ s with input := input }, none)

structure Output where
  sent : Option Transmission
  pass : Option Pass

def mainRound (abi : Abi) (s : MainState) (env : Env) : Except Fault (MainState × Output) := do
  let sent ← handleEvent abi env
  let (s, pass) ← receive abi env s
  return (s, ⟨sent, pass⟩)

end Prgsem
