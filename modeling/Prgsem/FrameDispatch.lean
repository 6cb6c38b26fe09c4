import Prgsem.Printing
import Prgsem.Round

/-!
# What becomes of an accepted frame

The part of a round behind the reads, as a step on the result table. For most
types the text that is printed is a string in memory without a terminator of its
own, so that leftover bytes of the stack can reach the output.
-/

namespace Prgsem

open CMemory
set_option autoImplicit false

/-- A frame in its buffer, the memory that holds the buffer and goes on behind it,
and the uninitialised `msg`. -/
structure Arrival where
  frame : List UInt8
  mem : Mem
  msg : Message

/-- The parser and the dispatch of `main_thread`: the new table, the result of the
parser, which is not looked at, and the report. -/
def handleFrame (abi : Abi) (results : Matrix sizeX sizeY) (a : Arrival) :
    Except Fault (Matrix sizeX sizeY × Bool × Report) := do
  let (accepted, msg) ← parseMessageBuf abi a.frame a.frame.length a.msg
  let (report, results) ← dispatch msg (memoryFrom a.frame a.mem) results
  return (results, accepted, report)

/-- Whatever reaches the parser in a round is handled so. -/
theorem handleFrame_of_pass {abi : Abi} {env : Env} {s s' : MainState} {out : Output} {pass : Pass}
    (h : mainRound abi s env = .ok (s', out)) (hpass : out.pass = some pass) :
    handleFrame abi s.results ⟨pass.frame, env.recvMem, env.recvMsg⟩ =
      .ok (s'.results, pass.accepted, pass.report) := by
  obtain ⟨-, -, hparse, hdispatch⟩ := mainRound_pass h hpass
  simp only [handleFrame, hparse, hdispatch, ok_bind]
  rfl

theorem handleFrame_payload (abi : Abi) (results : Matrix sizeX sizeY) (p : Payload) (mem : Mem)
    (msg : Message) :
    ∃ report, handleFrame abi results ⟨p.frame, mem, msg⟩ =
        .ok (record results p, true, report) ∧ report.Shows p ∧
      dispatch ⟨p.type.toByte, p.store abi msg.data, msg.cksum⟩ (memoryFrom p.frame mem) results =
        .ok (report, record results p) := by
  have hparse := parseMessageBuf_frame abi p [] msg
  rw [List.append_nil] at hparse
  obtain ⟨report, hdispatch, hshows⟩ := dispatch_payload abi
    (p.payload_store abi msg.data msg.cksum) (memoryFrom p.frame mem) results
  refine ⟨report, ?_, hshows, hdispatch⟩
  simp only [handleFrame, hparse, ok_bind, hdispatch]
  rfl

/-- Neither the printed text nor the new table depends on the memory behind the
frame and on the uninitialised message. -/
def DependsOnlyOnFrame (abi : Abi) (frame : List UInt8) : Prop :=
  ∀ (mem mem' : Mem) (msg msg' : Message) (results : Matrix sizeX sizeY),
    ∃ accepted accepted' report report' stored,
      handleFrame abi results ⟨frame, mem, msg⟩ = .ok (stored, accepted, report) ∧
      handleFrame abi results ⟨frame, mem', msg'⟩ = .ok (stored, accepted', report') ∧
      ∀ n, report.printed n = report'.printed n

/-- The text that is printed of a frame, if any, ends within the frame. -/
def TextEnds (frame : List UInt8) : Prop :=
  match MessageType.ofByte (frame.headD 0) with
  | some .version | some .error | some .computeData => True
  | some .startup => 0 ∈ (frame.drop 1).take startupMsgLen
  | _ => 0 ∈ frame

theorem dependsOnlyOnFrame_of_dispatch (abi : Abi) {p : Payload}
    (report : Mem → Message → Report)
    (hreport : ∀ mem msg results, dispatch ⟨p.type.toByte, p.store abi msg.data, msg.cksum⟩
      (memoryFrom p.frame mem) results = .ok (report mem msg, record results p)) :
    DependsOnlyOnFrame abi p.frame ↔
      ∀ mem mem' msg msg' n, (report mem msg).printed n = (report mem' msg').printed n := by
  have handle (mem : Mem) (msg : Message) (results : Matrix sizeX sizeY) :
      handleFrame abi results ⟨p.frame, mem, msg⟩ =
        .ok (record results p, true, report mem msg) := by
    obtain ⟨r, hhandle, -, hdispatch⟩ := handleFrame_payload abi results p mem msg
    rw [hreport] at hdispatch
    cases hdispatch
    exact hhandle
  constructor
  · intro h mem mem' msg msg'
    obtain ⟨_, _, r, r', _, hr, hr', hprinted⟩ :=
      h mem mem' msg msg' (.init sizeX sizeY fun _ => 0)
    rw [handle] at hr hr'
    cases hr
    cases hr'
    exact hprinted
  · intro h mem mem' msg msg' results
    exact ⟨_, _, _, _, _, handle mem msg results, handle mem' msg' results, h mem mem' msg msg'⟩

theorem startup_text (abi : Abi) (message : Bytes startupMsgLen) (data : Mem) :
    (fun k => (Payload.startup message).store abi data (Offset.message + k)) =
      memoryFrom (List.ofFn message) data := by
  funext k
  by_cases hk : k < startupMsgLen
  · rw [memoryFrom_of_lt data (by simpa using hk)]
    simp [Payload.store, Mem.store, hk]
  · rw [memoryFrom_of_le data (by simpa using hk)]
    simp [Payload.store, Mem.store, hk]

theorem textEnds_startup (message : Bytes startupMsgLen) :
    TextEnds (Payload.startup message).frame ↔ (0 : UInt8) ∈ List.ofFn message := by
  have htake : ((Payload.startup message).frame.drop 1).take startupMsgLen = List.ofFn message := by
    rw [Payload.frame_eq_cons, List.drop_one, List.tail_cons]
    exact List.take_left' List.length_ofFn
  simp only [TextEnds, htake]
  rfl

theorem printed_startup_iff (abi : Abi) (message : Bytes startupMsgLen) :
    DependsOnlyOnFrame abi (Payload.startup message).frame ↔
      TextEnds (Payload.startup message).frame := by
  have hprinted := dependsOnlyOnFrame_of_dispatch abi (p := .startup message)
    (fun _ msg => .startup 6 (memoryFrom (List.ofFn message) msg.data))
    (by
      intro mem msg results
      rw [← startup_text abi message msg.data]
      rfl)
  rw [hprinted, textEnds_startup]
  simp only [Report.printed]
  have hconst := formatted_const_iff (ascii "\rmessage type: " ++ decimal 6 ++ ascii " [")
    (List.ofFn message) (rfl : (ascii "]\n").head? = some 93) (by decide)
  rw [← hconst]
  constructor
  · intro h mem mem' n
    exact h mem mem ⟨0, mem, 0⟩ ⟨0, mem', 0⟩ n
  · intro h _ _ msg msg' n
    exact h msg.data msg'.data n

theorem printed_nonstandard_iff (abi : Abi) {p : Payload}
    (hp : p.type ∉ [.startup, .version, .error, .computeData]) :
    DependsOnlyOnFrame abi p.frame ↔ (0 : UInt8) ∈ p.frame := by
  have hrecord (results : Matrix sizeX sizeY) : record results p = results := by
    cases p <;> first | rfl | simp [Payload.type] at hp
  have hprinted := dependsOnlyOnFrame_of_dispatch abi (p := p)
    (fun mem _ => .nonstandard p.type.toByte (memoryFrom p.frame mem)) (by
      intro mem msg results
      rw [dispatch_nonstandard rfl hp, hrecord])
  rw [hprinted]
  simp only [Report.printed]
  have hconst := formatted_const_iff
    (ascii "\rNUCLEO: nestandartni msg type [" ++ decimal p.type.toByte ++ ascii "] ")
    p.frame (rfl : (ascii "\n").head? = some 10) (by decide)
  rw [← hconst]
  constructor
  · intro h mem mem' n
    exact h mem mem' ⟨0, mem, 0⟩ ⟨0, mem, 0⟩ n
  · intro h mem mem' _ _ n
    exact h mem mem' n

/-- The report of a message that prints numbers only. -/
def Payload.numbers : Payload → Option Report
  | version major minor patch => some (.version MessageType.version.toByte major minor patch)
  | error => some .error
  | computeData _ i_re i_im iter => some (.data i_re i_im iter)
  | _ => none

theorem Report.Shows.eq_numbers {r r₀ : Report} {p : Payload} (h : r.Shows p)
    (hp : p.numbers = some r₀) : r = r₀ := by
  cases r with
  | startup type text =>
    obtain ⟨-, rfl⟩ := h
    cases hp
  | version type major minor patch =>
    obtain ⟨rfl, rfl⟩ := h
    exact Option.some.inj hp
  | error =>
    subst h
    exact Option.some.inj hp
  | data i_re i_im iter =>
    obtain ⟨cid, rfl⟩ := h
    exact Option.some.inj hp
  | nonstandard type text =>
    obtain ⟨-, hother⟩ := h
    cases p with
    | version | error | computeData => simp [Payload.type] at hother
    | _ => cases hp

theorem printed_numbers (abi : Abi) {p : Payload} {r : Report} (hp : p.numbers = some r) :
    DependsOnlyOnFrame abi p.frame := by
  intro mem mem' msg msg' results
  obtain ⟨report, hhandle, hshows, -⟩ := handleFrame_payload abi results p mem msg
  obtain ⟨report', hhandle', hshows', -⟩ := handleFrame_payload abi results p mem' msg'
  obtain rfl := (hshows.eq_numbers hp).trans (hshows'.eq_numbers hp).symm
  exact ⟨_, _, _, _, _, hhandle, hhandle', fun _ => rfl⟩

/-- What is printed and stored for an accepted frame is determined by the frame
exactly when the text that is printed ends within it. -/
theorem dependsOnlyOnFrame_iff (abi : Abi) {frame : List UInt8} {target m : Message}
    (h : parseMessageBuf abi frame frame.length target = .ok (true, m)) :
    DependsOnlyOnFrame abi frame ↔ TextEnds frame := by
  have haccept := parseMessageBuf_accepts_iff abi frame [] target m
  rw [List.append_nil] at haccept
  obtain ⟨p, rfl, -⟩ := haccept.mp h
  cases p with
  | startup message => exact printed_startup_iff abi message
  | error => exact iff_of_true (printed_numbers abi rfl) trivial
  | version => exact iff_of_true (printed_numbers abi rfl) trivial
  | computeData => exact iff_of_true (printed_numbers abi rfl) trivial
  | ok | abort | done | getVersion | setCompute | compute =>
    exact printed_nonstandard_iff abi (by simp [Payload.type])

theorem dependsOnlyOnFrame_version :
    (∃ m, parseMessageBuf .sysV [5, 1, 0, 0, 249] 5 ⟨0, fun _ => 0, 0⟩ = .ok (true, m)) ∧
    TextEnds [5, 1, 0, 0, 249] ∧ DependsOnlyOnFrame .sysV [5, 1, 0, 0, 249] := by
  have haccept : parseMessageBuf .sysV [5, 1, 0, 0, 249] 5 ⟨0, fun _ => 0, 0⟩ =
      .ok (true, _) := rfl
  have hends : TextEnds [5, 1, 0, 0, 249] := trivial
  exact ⟨⟨_, haccept⟩, hends, (dependsOnlyOnFrame_iff .sysV haccept).mpr hends⟩

/-- The greeting of the lab firmware fills all nine bytes of its text, so that
`printf` goes on into the uninitialised rest of the union. -/
theorem greeting_prints_stack :
    (∃ m, parseMessageBuf .sysV [6, 80, 82, 71, 45, 76, 65, 66, 49, 48, 179] 11 ⟨0, fun _ => 0, 0⟩ =
      .ok (true, m)) ∧
    ¬ DependsOnlyOnFrame .sysV [6, 80, 82, 71, 45, 76, 65, 66, 49, 48, 179] := by
  let greeting : Bytes startupMsgLen := fun k => (ascii "PRG-LAB10").getD k 0
  have hframe : [6, 80, 82, 71, 45, 76, 65, 66, 49, 48, 179] = (Payload.startup greeting).frame := by
    decide
  refine ⟨⟨_, rfl⟩, ?_⟩
  rw [hframe, printed_startup_iff, textEnds_startup]
  decide

end Prgsem
