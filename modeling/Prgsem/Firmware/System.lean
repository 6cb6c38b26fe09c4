import Mathlib.Data.Fin.VecNotation
import Prgsem.Firmware.Decode
import Prgsem.Firmware.MainLoop
import Prgsem.Firmware.ReceiveProgress
import Prgsem.Firmware.Transmit

/-!
# The whole firmware

`main.cpp` of the microcontroller: the loop of `main` with the calls that it makes,
and between any two statements the two interrupts of the UART, the button and the
ticker that flips the LED. `receive_message`, `send_buffer` and the interrupts share
the NVIC and the rings with the models of the two paths, the statements of the loop
are those of its own model, and what was an input there comes from the rings here.
-/

namespace Prgsem.Firmware.System

open CMemory Run
set_option autoImplicit false

/-- A statement of the loop, or one for the LED and its ticker. -/
inductive Stmt where
  | loop (stmt : MainLoop.Stmt)
  | attach
  | detach
  | ledOff

/-- `code` is what `main` has still to do in the current iteration, behind the call of
`receive_message` or of `send_message` that is under way, if any. -/
structure State where
  nvic : Bool
  rx : Receive.Rx
  tx : Transmit.Tx
  msg : Message
  msgBuf : List UInt8
  msgLen : Int
  computation : MainLoop.Computation
  messageAbort : Bool
  ticker : Bool
  led : Bool
  code : List Stmt
  receivePc : Receive.Pc
  ret : Bool
  i : Nat
  c : UInt8
  sendPc : Transmit.Pc
  sendLoc : Transmit.Locals

namespace State

/-- The state as `receive_message` sees it, called with `msg_buf`, its size and `&msg_len`. -/
def receiving (s : State) : Receive.State :=
  ⟨s.nvic, s.rx, s.receivePc, ⟨s.msgBuf, sizeofMessage, s.msgLen, s.ret, s.i, s.c⟩⟩

def setReceiving (s : State) (r : Receive.State) : State :=
  { s with
    nvic := r.nvic
    rx := r.rx
    receivePc := r.pc
    msgBuf := r.loc.msgBuf
    msgLen := r.loc.len
    ret := r.loc.ret
    i := r.loc.i
    c := r.loc.c }

/-- The state as `send_buffer` sees it. -/
def sending (s : State) : Transmit.State := ⟨s.nvic, s.tx, s.sendPc, s.sendLoc, []⟩

def setSending (s : State) (t : Transmit.State) : State :=
  { s with nvic := t.nvic, tx := t.tx, sendPc := t.pc, sendLoc := t.loc }

end State

def onGetVersion : List Stmt := MainLoop.onGetVersion.map .loop

def onAbort : List Stmt := MainLoop.onAbort.map .loop ++ [.detach, .ledOff]

def onCompute : List Stmt :=
  [.loop .saveChunkId, .loop .saveNbrTasks, .loop .resetTaskId, .loop .startComputing, .attach,
    .loop .clearAbort, .loop (.assign (.type .ok)), .loop .send]

def onError : List Stmt := [.loop (.assign (.type .error)), .loop .send]

def onTask : List Stmt := MainLoop.onTask.map .loop

/-- The statement `stmt`, when `s.code` is what follows it. -/
def exec (rand : Nat) (s : State) : Stmt → Except Fault (State × Option Event)
  | .loop .receive => do
    let (r, _) ← Receive.mainStep s.receiving
    return (s.setReceiving r, none)
  | .loop .parse => do
    let (accepted, msg) ← parseMessageBuf s.msgBuf s.msgLen s.msg
    if accepted then
      return ({ s with msg := msg, code := [.loop .switch] }, (payload msg).map .received)
    else
      return ({ s with msg := msg, code := onError }, none)
  | .loop .switch =>
    let code := match MessageType.ofByte s.msg.type with
      | some .getVersion => onGetVersion
      | some .abort => onAbort
      | some .compute => onCompute
      | _ => []
    .ok ({ s with code := code }, none)
  | .loop .send => do
    let (ret, msgBuf, len) ← fillMessageBuf s.msg s.msgBuf sizeofMessage s.msgLen
    if ret then
      return ({ s with msgBuf := msgBuf, sendPc := .disable, sendLoc := ⟨msgBuf, toSizeT len, 0⟩ },
        some (.sent (msgBuf.take len.toNat)))
    else
      return ({ s with msgBuf := msgBuf }, none)
  | .loop .testComputing =>
    .ok ({ s with code := if s.computation.computing then [.loop .testTask] else [] }, none)
  | .loop .testTask =>
    if s.computation.taskId < s.computation.nbrTasks ∧ s.messageAbort = false then
      .ok ({ s with code := onTask }, none)
    else
      .ok ({ s with code := [.loop .stopComputing, .loop .testAbort] }, none)
  | .loop .testAbort =>
    let type := if s.messageAbort then MessageType.abort else MessageType.done
    .ok ({ s with code := [.loop (.assign (.type type)), .loop .send, .detach, .ledOff] }, none)
  | .loop stmt => do
    -- the other statements change variables only
    let (l, _) ← MainLoop.exec ⟨false, .ok, rand⟩
      ⟨s.msg, s.msgBuf, s.msgLen, s.computation, s.messageAbort, []⟩ stmt
    return ({ s with
      msg := l.msg
      computation := l.computation
      messageAbort := l.messageAbort }, none)
  | .attach => .ok ({ s with ticker := true }, none)
  | .detach => .ok ({ s with ticker := false }, none)
  | .ledOff => .ok ({ s with led := false }, none)

def mainStep (rand : Nat) (s : State) : Except Fault (State × Option Event) :=
  if s.receivePc ≠ .idle then do
    let (r, result) ← Receive.mainStep s.receiving
    let code := match result with
      | some result => if result.ret then [.loop .parse] else []
      | none => s.code
    return ({ s.setReceiving r with code := code }, none)
  else if s.sendPc ≠ .idle then do
    let (t, _) ← Transmit.mainStep s.sending
    return (s.setSending t, none)
  else
    match s.code with
    | [] =>
      let ready := s.rx.rxIn ≠ s.rx.rxOut
      .ok ({ s with code := if ready then [.loop .receive] else [.loop .testComputing] }, none)
    | stmt :: code => exec rand { s with code := code } stmt

/-- A statement of `main`, with the result of `rand()` that it may need, one of the
interrupts, the button or the ticker. -/
inductive Move where
  | main (rand : Nat)
  | rxInterrupt (n : Nat)
  | txInterrupt
  | pressed
  | flip

def step (s : State) : Move → Except Fault (State × Option Event)
  | .main rand => mainStep rand s
  | .rxInterrupt n =>
    if s.nvic then do
      let rx ← Receive.rxInterrupt n s.rx
      return ({ s with rx := rx }, none)
    else
      .ok (s, none)
  | .txInterrupt =>
    if s.nvic ∧ s.tx.txeie then do
      let tx ← Transmit.txInterrupt s.tx
      return ({ s with tx := tx }, none)
    else
      .ok (s, none)
  | .pressed => .ok ({ s with messageAbort := true }, some .pressed)
  | .flip => .ok ({ s with led := if s.ticker then !s.led else s.led }, none)

/-- What memory and the registers hold when `main` begins. -/
structure Boot where
  rxBuffer : Bytes bufSize
  txBuffer : Bytes bufSize
  txeie : Bool
  led : Bool
  data : Mem
  msgBuf : Bytes sizeofMessage
  msgLen : Int
  ret : Bool
  i : Nat
  c : UInt8
  sendLoc : Transmit.Locals

/-- `PRG-LAB10`. -/
def startupText : Bytes startupMsgLen := ![80, 82, 71, 45, 76, 65, 66, 49, 48]

/-- `main` up to `while (1)`; `input` is what comes in behind the bytes that it discards. -/
def start (input : List UInt8) (boot : Boot) : Except Fault State := do
  let msg : Message :=
    ⟨MessageType.startup.toByte, boot.data.store Offset.message startupText, 0⟩
  let (ret, msgBuf, msgLen) ← fillMessageBuf msg (List.ofFn boot.msgBuf) sizeofMessage boot.msgLen
  let uart := if ret then msgBuf.take msgLen.toNat else []
  return {
    nvic := true
    rx := ⟨input, List.ofFn boot.rxBuffer, 0, 0⟩
    tx := ⟨uart, boot.txeie, List.ofFn boot.txBuffer, 0, 0⟩
    msg := msg
    msgBuf := msgBuf
    msgLen := msgLen
    computation := ⟨0, 0, 0, false⟩
    messageAbort := false
    ticker := false
    led := boot.led
    code := []
    receivePc := .idle
    ret := boot.ret
    i := boot.i
    c := boot.c
    sendPc := .idle
    sendLoc := boot.sendLoc }

end Prgsem.Firmware.System
