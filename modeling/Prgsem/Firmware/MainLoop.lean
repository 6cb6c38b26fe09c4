import Prgsem.Firmware.Protocol
import Prgsem.Shared.Run

/-!
# The main loop of the firmware

The loop of `main` one statement at a time, with `pressed` between any two of them.
`sleep` and the statements for the LED and its ticker change nothing that is modelled
here and are left out. What `receive_message` returns, whether the receive ring is
empty and what `rand` returns are inputs: the ring delivers well-formed frames, one a
call.
-/

namespace Prgsem.Firmware.MainLoop

open CMemory Run
set_option autoImplicit false

def versionMajor : UInt8 := 0

def versionMinor : UInt8 := 1

def versionPatch : UInt8 := 3

/-- The struct `computation` of `main`. -/
structure Computation where
  chunkId : UInt16
  nbrTasks : UInt16
  taskId : UInt16
  computing : Bool

/-- An assignment to a member of `msg`. -/
inductive Assign where
  | type (t : MessageType)
  | byte (off : Nat) (v : UInt8)
  | chunkId
  | taskId
  | result

inductive Stmt where
  | receive
  | parse
  | switch
  | assign (a : Assign)
  | send
  | stopComputing
  | saveChunkId
  | saveNbrTasks
  | resetTaskId
  | startComputing
  | clearAbort
  | testComputing
  | testTask
  | wait
  | nextTask
  | testAbort

/-- `code` is what is left of the current iteration of `while (1)`. -/
structure State where
  msg : Message
  msgBuf : List UInt8
  msgLen : Int
  computation : Computation
  messageAbort : Bool
  code : List Stmt

/-- `rx_in != rx_out`, the message whose frame `receive_message` returns, and the
result of `rand()`; a statement reads of it what it needs. -/
structure Env where
  ready : Bool
  request : Payload
  rand : Nat

def Assign.apply (c : Computation) (rand : Nat) (msg : Message) : Assign → Message
  | type t => { msg with type := t.toByte }
  | byte off v => { msg with data := msg.data.set off v }
  | chunkId => { msg with data := msg.data.store16 Offset.chunk_id c.chunkId }
  | taskId => { msg with data := msg.data.store16 Offset.task_id c.taskId }
  | result => { msg with data := msg.data.set Offset.result (UInt8.ofNat (rand % 255)) }

def onGetVersion : List Stmt :=
  [.assign (.type .version), .assign (.byte Offset.major versionMajor),
    .assign (.byte Offset.minor versionMinor), .assign (.byte Offset.patch versionPatch), .send]

def onAbort : List Stmt := [.assign (.type .ok), .send, .stopComputing]

def onCompute : List Stmt :=
  [.saveChunkId, .saveNbrTasks, .resetTaskId, .startComputing, .clearAbort,
    .assign (.type .ok), .send]

def onTask : List Stmt :=
  [.wait, .nextTask, .assign (.type .computeData), .assign .chunkId, .assign .taskId,
    .assign .result, .send]

/-- The statement `stmt`, when `s.code` is what follows it. -/
def exec (env : Env) (s : State) : Stmt → Except Fault (State × Option Event)
  | .receive =>
    -- the ring holds the start of a frame, and the call waits for the rest of it
    let frame := env.request.frame
    .ok ({ s with
      msgBuf := frame ++ s.msgBuf.drop frame.length
      msgLen := frame.length
      code := [.parse] }, some (.received env.request))
  | .parse => do
    let (accepted, msg) ← parseMessageBuf s.msgBuf s.msgLen s.msg
    return ({ s with
      msg := msg
      code := if accepted then [.switch] else [.assign (.type .error), .send] }, none)
  | .switch =>
    let code := match MessageType.ofByte s.msg.type with
      | some .getVersion => onGetVersion
      | some .abort => onAbort
      | some .compute => onCompute
      | _ => []
    .ok ({ s with code := code }, none)
  | .assign a => .ok ({ s with msg := a.apply s.computation env.rand s.msg }, none)
  | .send => do
    let (ret, msgBuf, len) ← fillMessageBuf s.msg s.msgBuf sizeofMessage s.msgLen
    let event := if ret then some (.sent (msgBuf.take len.toNat)) else none
    return ({ s with msgBuf := msgBuf }, event)
  | .stopComputing =>
    .ok ({ s with computation := { s.computation with computing := false } }, none)
  | .saveChunkId =>
    let chunkId := s.msg.data.load16 Offset.chunk_id
    .ok ({ s with computation := { s.computation with chunkId := chunkId } }, none)
  | .saveNbrTasks =>
    let nbrTasks := s.msg.data.load16 Offset.nbr_tasks
    .ok ({ s with computation := { s.computation with nbrTasks := nbrTasks } }, none)
  | .resetTaskId => .ok ({ s with computation := { s.computation with taskId := 0 } }, none)
  | .startComputing =>
    .ok ({ s with computation := { s.computation with computing := true } }, none)
  | .clearAbort => .ok ({ s with messageAbort := false }, none)
  | .testComputing =>
    .ok ({ s with code := if s.computation.computing then [.testTask] else [] }, none)
  | .testTask =>
    if s.computation.taskId < s.computation.nbrTasks ∧ s.messageAbort = false then
      .ok ({ s with code := onTask }, none)
    else
      .ok ({ s with code := [.stopComputing, .testAbort] }, none)
  -- half a second, in which the button and the interrupts may come
  | .wait => .ok (s, none)
  | .nextTask =>
    let taskId := s.computation.taskId + 1
    .ok ({ s with computation := { s.computation with taskId := taskId } }, none)
  | .testAbort =>
    let type := if s.messageAbort then MessageType.abort else MessageType.done
    .ok ({ s with code := [.assign (.type type), .send] }, none)

inductive Move where
  | main (env : Env)
  | pressed

def step (s : State) : Move → Except Fault (State × Option Event)
  | .main env =>
    match s.code with
    | [] => .ok ({ s with code := if env.ready then [.receive] else [.testComputing] }, none)
    | stmt :: code => exec env { s with code := code } stmt
  | .pressed => .ok ({ s with messageAbort := true }, some .pressed)

/-- Before `while (1)`, after the startup message. -/
def init (msg : Message) (msgBuf : Bytes sizeofMessage) (msgLen : Int) (messageAbort : Bool) :
    State where
  msg := msg
  msgBuf := List.ofFn msgBuf
  msgLen := msgLen
  computation := ⟨0, 0, 0, false⟩
  messageAbort := messageAbort
  code := []

/-! ## The loop follows the protocol -/

/-- The job under way is the one in `computation`, and an abort that is noted was pressed. -/
structure Running (c : Computation) (messageAbort : Bool) (ph : Phase) : Prop where
  job : ph.job = some ⟨c.chunkId, c.nbrTasks, c.taskId.toNat⟩
  count : c.taskId.toNat ≤ c.nbrTasks.toNat
  pressed : messageAbort = true → ph.pressed = true

def Tracks (c : Computation) (messageAbort : Bool) (ph : Phase) : Prop :=
  c.computing = true → Running c messageAbort ph

/-- The messages that a list of assignments can make of `msg`. -/
def Assigns (c : Computation) : List Assign → Message → Message → Prop
  | [], msg, msg' => msg' = msg
  | a :: as, msg, msg' => ∃ rand, Assigns c as (a.apply c rand msg) msg'

/-- The assignments `as` make a message that may be sent now, and `code` follows. -/
def Composes (s : State) (ph : Phase) (as : List Assign) (code : List Stmt) : Prop :=
  ∀ msg, Assigns s.computation as s.msg msg →
    ∃ p ph', payload msg = some p ∧ Allowed ph (.sent p.frame) ph' ∧
      (code = [.stopComputing] ∨ code = [] ∧ Tracks s.computation s.messageAbort ph')

/-- What holds at each statement. While a `MSG_COMPUTE` is taken over nothing is
known of the job before it. -/
inductive At (s : State) (ph : Phase) : List Stmt → Prop where
  | top (h : Tracks s.computation s.messageAbort ph) : At s ph []
  | receive (h : Tracks s.computation s.messageAbort ph) : At s ph [.receive]
  | parse {p : Payload} (rest : List UInt8) (hbuf : s.msgBuf = p.frame ++ rest)
      (hlen : s.msgLen = p.frame.length) (hrequest : ph.request = some p)
      (h : p.type ≠ .compute → Tracks s.computation s.messageAbort ph) : At s ph [.parse]
  | switch {p : Payload} (hmsg : payload s.msg = some p) (hrequest : ph.request = some p)
      (h : p.type ≠ .compute → Tracks s.computation s.messageAbort ph) : At s ph [.switch]
  | compose {as : List Assign} {code : List Stmt} (h : Composes s ph as code) :
      At s ph (as.map .assign ++ .send :: code)
  | stop : At s ph [.stopComputing]
  | saveChunkId {c n : UInt16} (hmsg : payload s.msg = some (.compute c n))
      (hrequest : ph.request = some (.compute c n)) : At s ph onCompute
  | saveNbrTasks {n : UInt16} (hmsg : payload s.msg = some (.compute s.computation.chunkId n))
      (hrequest : ph.request = some (.compute s.computation.chunkId n)) :
      At s ph [.saveNbrTasks, .resetTaskId, .startComputing, .clearAbort, .assign (.type .ok), .send]
  | resetTaskId
      (hrequest : ph.request = some (.compute s.computation.chunkId s.computation.nbrTasks)) :
      At s ph [.resetTaskId, .startComputing, .clearAbort, .assign (.type .ok), .send]
  | startComputing
      (hrequest : ph.request = some (.compute s.computation.chunkId s.computation.nbrTasks))
      (hzero : s.computation.taskId = 0) :
      At s ph [.startComputing, .clearAbort, .assign (.type .ok), .send]
  | clearAbort
      (hrequest : ph.request = some (.compute s.computation.chunkId s.computation.nbrTasks))
      (hzero : s.computation.taskId = 0) : At s ph [.clearAbort, .assign (.type .ok), .send]
  | testComputing (h : Tracks s.computation s.messageAbort ph) : At s ph [.testComputing]
  | testTask (h : Running s.computation s.messageAbort ph) : At s ph [.testTask]
  | wait (h : Running s.computation s.messageAbort ph)
      (hmore : s.computation.taskId < s.computation.nbrTasks) : At s ph onTask
  | nextTask (h : Running s.computation s.messageAbort ph)
      (hmore : s.computation.taskId < s.computation.nbrTasks) :
      At s ph [.nextTask, .assign (.type .computeData), .assign .chunkId, .assign .taskId,
        .assign .result, .send]
  | finish (h : Running s.computation s.messageAbort ph)
      (hend : s.messageAbort = true ∨ s.computation.taskId = s.computation.nbrTasks) :
      At s ph [.stopComputing, .testAbort]
  | testAbort (h : Running s.computation s.messageAbort ph)
      (hend : s.messageAbort = true ∨ s.computation.taskId = s.computation.nbrTasks)
      (hoff : s.computation.computing = false) : At s ph [.testAbort]

section Press
variable {s : State} {ph : Phase} {c : Computation} {messageAbort : Bool}

theorem Running.press (h : Running c messageAbort ph) : Running c true ph.press :=
  ⟨h.job, h.count, fun _ => rfl⟩

theorem Tracks.press (h : Tracks c messageAbort ph) : Tracks c true ph.press :=
  fun hon => (h hon).press

theorem At.press {code : List Stmt} (h : At s ph code) :
    At { s with messageAbort := true } ph.press code := by
  cases h with
  | top h => exact .top h.press
  | receive h => exact .receive h.press
  | parse rest hbuf hlen hrequest h =>
    exact .parse rest hbuf hlen hrequest fun hne => (h hne).press
  | switch hmsg hrequest h => exact .switch hmsg hrequest fun hne => (h hne).press
  | compose h =>
    apply At.compose
    intro msg hassigns
    obtain ⟨p, ph', hmsg, hallowed, hnext⟩ := h msg hassigns
    refine ⟨p, ph'.press, hmsg, hallowed.press, ?_⟩
    rcases hnext with hstop | ⟨hcode, htracks⟩
    · exact .inl hstop
    · exact .inr ⟨hcode, htracks.press⟩
  | stop => exact .stop
  | saveChunkId hmsg hrequest => exact .saveChunkId hmsg hrequest
  | saveNbrTasks hmsg hrequest => exact .saveNbrTasks hmsg hrequest
  | resetTaskId hrequest => exact .resetTaskId hrequest
  | startComputing hrequest hzero => exact .startComputing hrequest hzero
  | clearAbort hrequest hzero => exact .clearAbort hrequest hzero
  | testComputing h => exact .testComputing h.press
  | testTask h => exact .testTask h.press
  | wait h hmore => exact .wait h.press hmore
  | nextTask h hmore => exact .nextTask h.press hmore
  | finish h _ => exact .finish h.press (.inl rfl)
  | testAbort h _ hoff => exact .testAbort h.press (.inl rfl) hoff

end Press

/-- What a step does with the phase: an event that it shows is allowed in it. -/
def Follows (ph : Phase) (s : State) : Option Event → Prop
  | none => s.msgBuf.length = sizeofMessage ∧ At s ph s.code
  | some e => ∃ ph', Allowed ph e ph' ∧ s.msgBuf.length = sizeofMessage ∧ At s ph' s.code

section Step
variable {ph : Phase} {msg : Message} {msgBuf : List UInt8} {msgLen : Int} {c : Computation}
variable {messageAbort : Bool} {code : List Stmt}

theorem Tracks.receive {p : Payload} (h : Tracks c messageAbort ph) (hp : p.type ≠ .compute) :
    Tracks c messageAbort (ph.receive p) := by
  intro hon
  obtain ⟨hjob, hcount, hpressed⟩ := h hon
  refine ⟨by rw [Phase.receive_job, hjob], hcount, ?_⟩
  intro habort
  cases p with
  | compute => exact absurd rfl hp
  | _ => exact hpressed habort

theorem tracks_off (h : c.computing = false) : Tracks c messageAbort ph := by
  intro hon
  rw [h] at hon
  cases hon

theorem payload_compute {chunk nbr : UInt16} (h : payload msg = some (.compute chunk nbr)) :
    msg.data.load16 Offset.chunk_id = chunk ∧ msg.data.load16 Offset.nbr_tasks = nbr := by
  have htype : MessageType.ofByte msg.type = some .compute :=
    MessageType.ofByte_eq_some_iff.mpr (type_of_payload h)
  simpa [payload, htype] using h

theorem parse_ok {p : Payload} (env : Env) (rest : List UInt8)
    (hroom : (p.frame ++ rest).length = sizeofMessage) (hrequest : ph.request = some p)
    (h : p.type ≠ .compute → Tracks c messageAbort ph) :
    ∃ s' out, step ⟨msg, p.frame ++ rest, p.frame.length, c, messageAbort, [.parse]⟩ (.main env) =
      .ok (s', out) ∧ Follows ph s' out := by
  refine ⟨⟨{ msg with type := p.type.toByte, data := p.store msg.data }, p.frame ++ rest,
    p.frame.length, c, messageAbort, [.switch]⟩, none, ?_, hroom, ?_⟩
  · simp only [step, exec, parseMessageBuf_frame, ok_bind, if_true]
    rfl
  · exact .switch (p.payload_store msg.data msg.cksum) hrequest h

theorem switch_ok {p : Payload} (env : Env) (hroom : msgBuf.length = sizeofMessage)
    (hmsg : payload msg = some p) (hrequest : ph.request = some p)
    (h : p.type ≠ .compute → Tracks c messageAbort ph) :
    ∃ s' out, step ⟨msg, msgBuf, msgLen, c, messageAbort, [.switch]⟩ (.main env) = .ok (s', out) ∧
      Follows ph s' out := by
  have htype := type_of_payload hmsg
  simp only [step, exec, htype, MessageType.ofByte_toByte]
  refine ⟨_, none, rfl, hroom, ?_⟩
  cases p with
  | getVersion =>
    have hanswer : Composes ⟨msg, msgBuf, msgLen, c, messageAbort, onGetVersion⟩ ph
        [.type .version, .byte Offset.major versionMajor, .byte Offset.minor versionMinor,
          .byte Offset.patch versionPatch] [] := by
      rintro msg' ⟨-, -, -, -, rfl⟩
      refine ⟨.version versionMajor versionMinor versionPatch, ph, ?_, .answer ph (.inl rfl),
        .inr ⟨rfl, h (by simp [Payload.type])⟩⟩
      simp [Assign.apply, payload, Mem.set_ne]
    exact .compose hanswer
  | abort =>
    have hanswer : Composes ⟨msg, msgBuf, msgLen, c, messageAbort, onAbort⟩ ph [.type .ok]
        [.stopComputing] := by
      rintro msg' ⟨-, rfl⟩
      exact ⟨.ok, _, rfl, .stop hrequest, .inl rfl⟩
    exact .compose hanswer
  | compute chunk nbr => exact .saveChunkId hmsg hrequest
  | ok | error | done | version | startup | computeData =>
    exact .top (h (by simp [Payload.type]))

theorem send_ok (env : Env) (hroom : msgBuf.length = sizeofMessage)
    (h : Composes ⟨msg, msgBuf, msgLen, c, messageAbort, .send :: code⟩ ph [] code) :
    ∃ s' out, step ⟨msg, msgBuf, msgLen, c, messageAbort, .send :: code⟩ (.main env) =
      .ok (s', out) ∧ Follows ph s' out := by
  obtain ⟨p, ph', hmsg, hallowed, hnext⟩ := h msg rfl
  have hfits : p.frame.length ≤ msgBuf.length := by
    have hle := p.length_frame_le
    rw [hroom, sizeofMessage]
    omega
  have hfill := fillMessageBuf_eq msg p msgBuf msgLen hmsg hfits
  refine ⟨⟨msg, p.frame ++ msgBuf.drop p.frame.length, msgLen, c, messageAbort, code⟩,
    some (.sent p.frame), ?_, ph', hallowed, ?_, ?_⟩
  · simp only [step, exec, hfill, ok_bind, if_true, Int.toNat_natCast, List.take_left]
    rfl
  · rw [List.length_append, List.length_drop, ← hroom]
    omega
  · rcases hnext with rfl | ⟨rfl, htracks⟩
    · exact .stop
    · exact .top htracks

theorem clearAbort_ok (env : Env) (hroom : msgBuf.length = sizeofMessage)
    (hrequest : ph.request = some (.compute c.chunkId c.nbrTasks)) (hzero : c.taskId = 0) :
    ∃ s' out, step ⟨msg, msgBuf, msgLen, c, messageAbort,
        [.clearAbort, .assign (.type .ok), .send]⟩ (.main env) = .ok (s', out) ∧
      Follows ph s' out := by
  refine ⟨_, none, rfl, hroom, ?_⟩
  have hanswer : Composes ⟨msg, msgBuf, msgLen, c, false, [.assign (.type .ok), .send]⟩ ph
      [.type .ok] [] := by
    rintro msg' ⟨-, rfl⟩
    refine ⟨.ok, _, rfl, .start hrequest, .inr ⟨rfl, fun _ => ⟨?_, ?_, fun h => by cases h⟩⟩⟩
    · rw [hzero]
      rfl
    · rw [hzero]
      exact Nat.zero_le _
  exact .compose hanswer

theorem testTask_ok (env : Env) (hroom : msgBuf.length = sizeofMessage)
    (h : Running c messageAbort ph) :
    ∃ s' out, step ⟨msg, msgBuf, msgLen, c, messageAbort, [.testTask]⟩ (.main env) =
      .ok (s', out) ∧ Follows ph s' out := by
  simp only [step, exec]
  by_cases hmore : c.taskId < c.nbrTasks ∧ messageAbort = false
  · rw [if_pos hmore]
    exact ⟨_, none, rfl, hroom, .wait h hmore.1⟩
  · rw [if_neg hmore]
    refine ⟨_, none, rfl, hroom, .finish h ?_⟩
    cases messageAbort with
    | true => exact .inl rfl
    | false =>
      have hge : ¬ c.taskId < c.nbrTasks := fun hlt => hmore ⟨hlt, rfl⟩
      have hcount : c.taskId.toNat ≤ c.nbrTasks.toNat := h.count
      rw [UInt16.lt_iff_toNat_lt] at hge
      have hall : c.taskId.toNat = c.nbrTasks.toNat := by omega
      exact .inr (UInt16.toNat_inj.mp hall)

theorem nextTask_ok (env : Env) (hroom : msgBuf.length = sizeofMessage)
    (h : Running c messageAbort ph) (hmore : c.taskId < c.nbrTasks) :
    ∃ s' out, step ⟨msg, msgBuf, msgLen, c, messageAbort, onTask.tail⟩ (.main env) =
      .ok (s', out) ∧ Follows ph s' out := by
  have hlt := UInt16.lt_iff_toNat_lt.mp hmore
  have hnowrap : (c.taskId + 1).toNat = c.taskId.toNat + 1 := by
    have hbound := c.nbrTasks.toNat_lt
    rw [UInt16.toNat_add, UInt16.toNat_one]
    omega
  refine ⟨_, none, rfl, hroom, ?_⟩
  have hdata : Composes ⟨msg, msgBuf, msgLen, { c with taskId := c.taskId + 1 }, messageAbort,
      onTask.tail.tail⟩ ph [.type .computeData, .chunkId, .taskId, .result] [] := by
    rintro msg' ⟨-, -, -, rand, rfl⟩
    refine ⟨.computeData c.chunkId (c.taskId + 1) (UInt8.ofNat (rand % 255)), _, ?_,
      .data _ h.job hlt hnowrap, .inr ⟨rfl, fun _ => ⟨?_, ?_, h.pressed⟩⟩⟩
    · simp (disch := omega) [Assign.apply, payload, Mem.load16_store16_disjoint,
        Mem.load16_set_disjoint]
    · rw [hnowrap]
    · rw [hnowrap]
      exact hlt
  exact .compose hdata

theorem testAbort_ok (env : Env) (hroom : msgBuf.length = sizeofMessage)
    (h : Running c messageAbort ph) (hend : messageAbort = true ∨ c.taskId = c.nbrTasks)
    (hoff : c.computing = false) :
    ∃ s' out, step ⟨msg, msgBuf, msgLen, c, messageAbort, [.testAbort]⟩ (.main env) =
      .ok (s', out) ∧ Follows ph s' out := by
  refine ⟨_, none, rfl, hroom, ?_⟩
  have hlast : Composes ⟨msg, msgBuf, msgLen, c, messageAbort,
      [.assign (.type (if messageAbort then .abort else .done)), .send]⟩ ph
      [.type (if messageAbort then .abort else .done)] [] := by
    rintro msg' ⟨-, rfl⟩
    cases messageAbort with
    | true => exact ⟨.abort, _, rfl, .abort h.job (h.pressed rfl), .inr ⟨rfl, tracks_off hoff⟩⟩
    | false =>
      have hall : c.taskId = c.nbrTasks := by
        rcases hend with habort | hall
        · cases habort
        · exact hall
      have hjob := h.job
      rw [hall] at hjob
      exact ⟨.done, _, rfl, .done hjob, .inr ⟨rfl, tracks_off hoff⟩⟩
  exact .compose hlast

end Step

theorem step_ok {s : State} {ph : Phase} (hroom : s.msgBuf.length = sizeofMessage)
    (h : At s ph s.code) (move : Move) :
    ∃ s' out, step s move = .ok (s', out) ∧ Follows ph s' out := by
  cases move with
  | pressed => exact ⟨_, some .pressed, rfl, ph.press, .pressed ph, hroom, h.press⟩
  | main env =>
    obtain ⟨msg, msgBuf, msgLen, c, messageAbort, code⟩ := s
    simp only at h hroom
    cases h with
    | top h =>
      refine ⟨_, none, rfl, hroom, ?_⟩
      by_cases hready : env.ready = true
      · simp only [if_pos hready]
        exact .receive h
      · simp only [if_neg hready]
        exact .testComputing h
    | receive h =>
      refine ⟨_, some (.received env.request), rfl, ph.receive env.request, .received ph _, ?_, ?_⟩
      · have hle := env.request.length_frame_le
        have hsize : sizeofMessage = 14 := rfl
        simp only [List.length_append, List.length_drop, hroom]
        omega
      · exact .parse _ rfl rfl (Phase.receive_request ph _) h.receive
    | parse rest hbuf hlen hrequest h =>
      simp only at hbuf hlen
      subst hbuf hlen
      exact parse_ok env rest hroom hrequest h
    | switch hmsg hrequest h => exact switch_ok env hroom hmsg hrequest h
    | @compose as code h =>
      cases as with
      | nil => exact send_ok env hroom h
      | cons a as =>
        exact ⟨_, none, rfl, hroom, .compose fun msg hassigns => h msg ⟨env.rand, hassigns⟩⟩
    | stop => exact ⟨_, none, rfl, hroom, .top (tracks_off rfl)⟩
    | saveChunkId hmsg hrequest =>
      obtain ⟨rfl, -⟩ := payload_compute hmsg
      exact ⟨_, none, rfl, hroom, .saveNbrTasks hmsg hrequest⟩
    | saveNbrTasks hmsg hrequest =>
      obtain ⟨-, rfl⟩ := payload_compute hmsg
      exact ⟨_, none, rfl, hroom, .resetTaskId hrequest⟩
    | resetTaskId hrequest => exact ⟨_, none, rfl, hroom, .startComputing hrequest rfl⟩
    | startComputing hrequest hzero => exact ⟨_, none, rfl, hroom, .clearAbort hrequest hzero⟩
    | clearAbort hrequest hzero => exact clearAbort_ok env hroom hrequest hzero
    | testComputing h =>
      refine ⟨_, none, rfl, hroom, ?_⟩
      by_cases hon : c.computing = true
      · simp only [if_pos hon]
        exact .testTask (h hon)
      · simp only [if_neg hon]
        exact .top h
    | testTask h => exact testTask_ok env hroom h
    | wait h hmore => exact ⟨_, none, rfl, hroom, .nextTask h hmore⟩
    | nextTask h hmore => exact nextTask_ok env hroom h hmore
    | finish h hend => exact ⟨_, none, rfl, hroom, .testAbort ⟨h.job, h.count, h.pressed⟩ hend rfl⟩
    | testAbort h hend hoff => exact testAbort_ok env hroom h hend hoff

def Inv (past : List (Option Event)) (s : State) : Prop :=
  s.msgBuf.length = sizeofMessage ∧ ∃ ph, Trace Allowed .start (shown past) ph ∧ At s ph s.code

theorem inv_init (msg : Message) (msgBuf : Bytes sizeofMessage) (msgLen : Int)
    (messageAbort : Bool) : Inv [] (init msg msgBuf msgLen messageAbort) :=
  ⟨List.length_ofFn, .start, .nil _, .top (tracks_off rfl)⟩

theorem Inv.step {past : List (Option Event)} {s : State} (h : Inv past s) (move : Move) :
    ∃ s' out, step s move = .ok (s', out) ∧ Inv (past ++ [out]) s' := by
  obtain ⟨hroom, ph, htrace, hat⟩ := h
  obtain ⟨s', out, hstep, hnext⟩ := step_ok hroom hat move
  refine ⟨s', out, hstep, ?_⟩
  cases out with
  | none =>
    obtain ⟨hroom', hat'⟩ := hnext
    exact ⟨hroom', ph, by rwa [shown_snoc_none], hat'⟩
  | some e =>
    obtain ⟨ph', hallowed, hroom', hat'⟩ := hnext
    refine ⟨hroom', ph', ?_, hat'⟩
    rw [shown_snoc_some]
    exact htrace.snoc hallowed

/-- Whatever comes in and whenever the button is pressed, the firmware follows the
computation protocol. -/
theorem follows_protocol (msg : Message) (msgBuf : Bytes sizeofMessage) (msgLen : Int)
    (messageAbort : Bool) (moves : List Move) :
    ∃ t outs, run step (init msg msgBuf msgLen messageAbort) moves = .ok (t, outs) ∧
      Obeys (shown outs) := by
  obtain ⟨t, outs, hrun, -, ph, htrace, -⟩ :=
    run_invariant Inv (fun _ _ move hinv => hinv.step move)
      (inv_init msg msgBuf msgLen messageAbort) moves
  exact ⟨t, outs, hrun, obeys_of_trace htrace⟩

/-- Two tasks of three, then the button. -/
example :
    (run step (init ⟨0, fun _ => 0, 0⟩ (fun _ => 0) 0 false)
      (List.replicate 11 (.main ⟨true, .compute 7 3, 0⟩) ++
        List.replicate 20 (.main ⟨false, .ok, 300⟩) ++
        .pressed :: List.replicate 7 (.main ⟨false, .ok, 300⟩))).map (fun r => shown r.2) =
      .ok [.received (.compute 7 3), .sent Payload.ok.frame,
        .sent (Payload.computeData 7 1 45).frame, .sent (Payload.computeData 7 2 45).frame,
        .pressed, .sent Payload.abort.frame] := rfl

end Prgsem.Firmware.MainLoop
