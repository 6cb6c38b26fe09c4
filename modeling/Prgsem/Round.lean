import Prgsem.Codec
import Prgsem.MainThread

/-!
# One round of the main thread

What the two halves of a round do, said once: when they fault, which frame is
sent, and which buffer reaches the parser. Everything that is proved of runs of
`main_thread` uses these descriptions and not the definitions.
-/

namespace Prgsem

open CMemory
set_option autoImplicit false

/-! ## Sending -/

/-- The message that a key stands for. -/
def commandPayload (param : UInt8) : Option Payload :=
  match Char.ofNat param.toNat with
  | 'g' => some .getVersion
  | 's' => some (.setCompute minusHalf minusHalf half half 60)
  | 'l' | 'a' => some .abort
  | 'r' | '1' => some (.compute 1 minusHalf minusHalf chunkX chunkY)
  | _ => none

theorem command_cases (abi : Abi) (param : UInt8) (msg : Message) :
    (commandPayload param = none ∧ command abi param msg = none) ∨
    ∃ p m, commandPayload param = some p ∧ command abi param msg = some m ∧
      m.payload abi = some p := by
  unfold command commandPayload
  generalize Char.ofNat param.toNat = c
  split
  · exact .inr ⟨_, _, rfl, rfl, rfl⟩
  · exact .inr ⟨_, _, rfl, rfl,
      Payload.payload_store abi (.setCompute minusHalf minusHalf half half 60) _ _⟩
  · exact .inr ⟨_, _, rfl, rfl, rfl⟩
  · exact .inr ⟨_, _, rfl, rfl, rfl⟩
  · exact .inr ⟨_, _, rfl, rfl,
      Payload.payload_store abi (.compute 1 minusHalf minusHalf chunkX chunkY) _ _⟩
  · exact .inr ⟨_, _, rfl, rfl,
      Payload.payload_store abi (.compute 1 minusHalf minusHalf chunkX chunkY) _ _⟩
  · exact .inl ⟨rfl, by simp only [*]⟩

/-- The uninitialised length of the sending buffer is large enough for the frame
that the round sends, if it sends one. -/
def SendFits (env : Env) : Prop :=
  ∀ param p, env.key = some param → commandPayload param = some p →
    (p.frame.length : Int) ≤ env.sendLen

theorem newBuf_ok {len : Int} (h : 0 < len) (mem : Mem) :
    ∃ buf, newBuf len mem = .ok buf ∧ (buf.length : Int) = len := by
  refine ⟨_, by rw [newBuf, if_pos h], ?_⟩
  rw [List.length_ofFn]
  omega

theorem sendMessage_ok (abi : Abi) {msg : Message} {p : Payload} {buf : List UInt8}
    (len written : Int) (h : msg.payload abi = some p) (hbuf : p.frame.length ≤ buf.length) :
    sendMessage abi msg buf len written = .ok (true, ⟨p.frame, written⟩) := by
  have hsize : toSizeT (p.frame.length : Int) = p.frame.length := by
    rw [toSizeT, if_pos (by omega), Int.toNat_natCast]
  have hroom : p.frame.length ≤ (p.frame ++ buf.drop p.frame.length).length := by simp
  simp only [sendMessage, fillMessageBuf_eq abi msg p buf _ len h (Int.le_refl _) hbuf, ok_bind,
    write, hsize, if_pos hroom, List.take_left]
  rfl

theorem sendMessage_overrun (abi : Abi) {msg : Message} {p : Payload} {buf : List UInt8}
    (len written : Int) (h : msg.payload abi = some p) (hbuf : buf.length < p.frame.length) :
    sendMessage abi msg buf len written = .error .outOfBounds := by
  simp only [sendMessage, fillMessageBuf_overrun abi msg p buf _ len h (Int.le_refl _) hbuf,
    error_bind]

theorem handleEvent_ok (abi : Abi) {env : Env} (h : SendFits env) :
    handleEvent abi env =
      .ok ((env.key.bind commandPayload).map fun p => ⟨p.frame, env.written⟩) := by
  cases hkey : env.key with
  | none => simp [handleEvent, hkey]
  | some param =>
    rcases command_cases abi param env.sendMsg with ⟨hp, hm⟩ | ⟨p, m, hp, hm, hpayload⟩
    · simp [handleEvent, hkey, hm, hp]
    · have hfits := h param p hkey hp
      have hframe := p.length_frame
      obtain ⟨buf, hbuf, hlen⟩ := newBuf_ok (by omega : 0 < env.sendLen) env.sendMem
      have hroom : p.frame.length ≤ buf.length := by omega
      have hsend := sendMessage_ok abi env.sendLen env.written hpayload hroom
      simp only [handleEvent, hkey, hm, hbuf, ok_bind, hsend, Option.bind_some, hp,
        Option.map_some]
      rfl

theorem handleEvent_fault (abi : Abi) {env : Env} (h : ¬ SendFits env) :
    handleEvent abi env = .error .badLength ∨ handleEvent abi env = .error .outOfBounds := by
  simp only [SendFits, not_forall, Int.not_le] at h
  obtain ⟨param, p, hkey, hp, hshort⟩ := h
  rcases command_cases abi param env.sendMsg with ⟨hnone, -⟩ | ⟨p', m, hp', hm, hpayload⟩
  · rw [hp] at hnone
    cases hnone
  · rw [hp] at hp'
    cases hp'
    by_cases hpos : 0 < env.sendLen
    · right
      obtain ⟨buf, hbuf, hlen⟩ := newBuf_ok hpos env.sendMem
      have hroom : buf.length < p.frame.length := by omega
      have hsend := sendMessage_overrun abi env.sendLen env.written hpayload hroom
      simp only [handleEvent, hkey, hm, hbuf, ok_bind, hsend, error_bind]
    · left
      simp only [handleEvent, hkey, hm, newBuf, if_neg hpos, error_bind]

/-! ## Receiving -/

/-- What `type` holds after the first read of a round, unless that read returns 0. -/
def firstByte (type : UInt8) : List ReadOutcome → Option (UInt8 × List ReadOutcome)
  | .byte b :: input => some (b, input)
  | .error :: input => some (type, input)
  | _ => none

/-- The bytes of the buffer behind the first one: they come from the port, repeat
the last byte for an error, and are `old` bytes from a timeout on. -/
def assemble (type : UInt8) : List UInt8 → List ReadOutcome →
    List UInt8 × List ReadOutcome × Bool
  | [], input => ([], input, false)
  | _ :: old, .byte b :: input =>
    let (bytes, rest, warned) := assemble b old input
    (b :: bytes, rest, warned)
  | _ :: old, .error :: input =>
    let (bytes, rest, warned) := assemble type old input
    (type :: bytes, rest, warned)
  | old, .nothing :: input => (old, input, true)
  | old, [] => (old, [], true)

/-- The length of the receiving buffer: stale when the type is unknown. -/
def Env.lenFor (env : Env) (type : UInt8) : Int := (getMessageSize type env.len).2

/-- What memory holds behind the first byte of a buffer. -/
def oldBytes (len : Int) (mem : Mem) : List UInt8 :=
  List.ofFn fun k : Fin (len.toNat - 1) => mem (k + 1)

@[simp] theorem length_assemble (type : UInt8) (old : List UInt8) (input : List ReadOutcome) :
    (assemble type old input).1.length = old.length := by
  fun_induction assemble type old input <;> simp_all

theorem readByte_none {type : UInt8} {input : List ReadOutcome}
    (h : firstByte type input = none) : ∃ c, readByte type input = (0, c, input.tail) := by
  cases input with
  | nil => exact ⟨_, rfl⟩
  | cons outcome input =>
    cases outcome with
    | nothing => exact ⟨_, rfl⟩
    | byte b => cases h
    | error => cases h

theorem readByte_some {type b : UInt8} {input rest : List ReadOutcome}
    (h : firstByte type input = some (b, rest)) :
    ∃ r, r ≠ 0 ∧ readByte type input = (r, b, rest) := by
  cases input with
  | nil => cases h
  | cons outcome input =>
    cases outcome with
    | nothing => cases h
    | byte b =>
      cases h
      exact ⟨1, by decide, rfl⟩
    | error =>
      cases h
      exact ⟨-1, by decide, rfl⟩

theorem newBuf_eq {len : Int} (h : 0 < len) (mem : Mem) :
    newBuf len mem = .ok (mem 0 :: oldBytes len mem) := by
  obtain ⟨n, rfl⟩ : ∃ n : Nat, len = ((n + 1 : Nat) : Int) := ⟨len.toNat - 1, by omega⟩
  rw [newBuf, if_pos h]
  simp [List.ofFn_succ, oldBytes]

theorem receiveBytes_eq (pre old : List UInt8) (type : UInt8) (input : List ReadOutcome) :
    receiveBytes old.length pre.length (pre ++ old) type input =
      .ok (pre ++ (assemble type old input).1, (assemble type old input).2) := by
  induction old generalizing pre type input with
  | nil => rfl
  | cons x old ih =>
    have hstep (v : UInt8) (type : UInt8) (input : List ReadOutcome) :
        (do
          let msgBuf ← writeAt (pre ++ x :: old) pre.length v
          receiveBytes old.length (pre.length + 1) msgBuf type input) =
          .ok (pre ++ v :: (assemble type old input).1, (assemble type old input).2) := by
      have hrest := ih (pre ++ [v]) type input
      simp only [List.length_append, List.length_singleton, List.append_assoc,
        List.singleton_append] at hrest
      rw [writeAt_append, ok_bind, hrest]
    simp only [List.length_cons, receiveBytes, serialGetcTimeout_eq]
    cases input with
    | nil => rfl
    | cons outcome input =>
      cases outcome with
      | byte b => exact hstep b b input
      | nothing => rfl
      | error => exact hstep type type input

theorem cell_lt (cid i_re : UInt8) :
    cid.toNat * chunkX.toNat + i_re.toNat < sizeX * sizeY := by
  have hcid := cid.toNat_lt
  have hre := i_re.toNat_lt
  have hchunk : chunkX.toNat = 80 := rfl
  have hsize : sizeX * sizeY = 76800 := rfl
  rw [hchunk, hsize]
  omega

/-- What a message does to the result table. -/
def record (results : Matrix sizeX sizeY) : Payload → Matrix sizeX sizeY
  | .computeData cid i_re _ iter =>
    ⟨Function.update results.table ⟨_, cell_lt cid i_re⟩ iter.toNat⟩
  | _ => results

/-- A report shows a message when it prints the fields of that message. -/
def Report.Shows : Report → Payload → Prop
  | .startup type text, p =>
    type = MessageType.startup.toByte ∧ p = .startup (text.load 0 startupMsgLen)
  | .version type major minor patch, p =>
    type = MessageType.version.toByte ∧ p = .version major minor patch
  | .error, p => p = .error
  | .data i_re i_im iter, p => ∃ cid, p = .computeData cid i_re i_im iter
  | .nonstandard type _, p => type = p.type.toByte ∧
      p.type ∉ [.startup, .version, .error, .computeData]

theorem dispatch_nonstandard {msg : Message} {t : MessageType} (h : msg.type = t.toByte)
    (ht : t ∉ [.startup, .version, .error, .computeData]) (text : Mem)
    (results : Matrix sizeX sizeY) :
    dispatch msg text results = .ok (.nonstandard msg.type text, results) := by
  cases t <;> simp at ht <;> simp [dispatch, h, MessageType.toByte]

theorem dispatch_payload (abi : Abi) {msg : Message} {p : Payload} (h : msg.payload abi = some p)
    (text : Mem) (results : Matrix sizeX sizeY) :
    ∃ report, dispatch msg text results = .ok (report, record results p) ∧ report.Shows p := by
  have htype := type_of_payload h
  simp only [Message.payload, htype, MessageType.ofByte_toByte] at h
  cases p with
  | startup message =>
    refine ⟨.startup msg.type fun k => msg.data (Offset.message + k), ?_, htype, ?_⟩
    · exact if_pos htype
    · simpa [Payload.type, Mem.load, eq_comm] using h
  | version major minor patch =>
    refine ⟨.version msg.type (msg.data Offset.major) (msg.data Offset.minor)
      (msg.data Offset.patch), ?_, htype, ?_⟩
    · simp [dispatch, htype, Payload.type, MessageType.toByte, record]
    · simpa [Payload.type, eq_comm] using h
  | error =>
    refine ⟨.error, ?_, rfl⟩
    simp [dispatch, htype, Payload.type, MessageType.toByte, record]
  | computeData cid i_re i_im iter =>
    simp only [Payload.type, Option.some.injEq, Payload.computeData.injEq] at h
    obtain ⟨rfl, rfl, rfl, rfl⟩ := h
    refine ⟨.data (msg.data Offset.i_re) (msg.data Offset.i_im) (msg.data Offset.iter), ?_, _, rfl⟩
    have hstore := results.store_ok (cell_lt (msg.data Offset.cid) (msg.data Offset.i_re))
      (msg.data Offset.iter).toNat
    simp only [Payload.type] at htype
    rw [dispatch, htype, if_neg (by decide), if_neg (by decide), if_neg (by decide),
      if_pos rfl, hstore]
    rfl
  | ok | abort | done | getVersion | setCompute | compute =>
    exact ⟨_, dispatch_nonstandard htype (by simp [Payload.type]) text results, htype,
      by simp [Payload.type]⟩

theorem dispatch_unknown {msg : Message} (h : ∀ t : MessageType, msg.type ≠ t.toByte)
    (text : Mem) (results : Matrix sizeX sizeY) :
    dispatch msg text results = .ok (.nonstandard msg.type text, results) := by
  simp only [dispatch, if_neg (h _)]

theorem dispatch_total (abi : Abi) (msg : Message) (text : Mem) (results : Matrix sizeX sizeY) :
    ∃ report results', dispatch msg text results = .ok (report, results') := by
  cases hp : msg.payload abi with
  | none => exact ⟨_, _, dispatch_unknown (payload_eq_none_iff.mp hp) text results⟩
  | some p =>
    obtain ⟨report, hdispatch, -⟩ := dispatch_payload abi hp text results
    exact ⟨report, _, hdispatch⟩

section Receive
variable (abi : Abi) {env : Env} {s : MainState} {b : UInt8} {rest : List ReadOutcome}

theorem receive_idle (h : firstByte env.type s.input = none) :
    receive abi env s = .ok ({ s with input := s.input.tail }, none) := by
  obtain ⟨c, hread⟩ := readByte_none h
  simp [receive, hread]

theorem receive_badLength (h : firstByte env.type s.input = some (b, rest))
    (hlen : env.lenFor b ≤ 0) : receive abi env s = .error .badLength := by
  obtain ⟨r, hr, hread⟩ := readByte_some h
  have hnot : ¬ 0 < (getMessageSize b env.len).2 := Int.not_lt.mpr hlen
  simp only [receive, hread, if_pos hr, newBuf, if_neg hnot, error_bind]

/-- Up to the argument of `usleep` nothing can go wrong in a buffer of positive length. -/
theorem receive_eq (h : firstByte env.type s.input = some (b, rest)) (hlen : 0 < env.lenFor b) :
    receive abi env s = (do
      let _ ← sleepTime (env.lenFor b)
      let (bytes, rest, warned) := assemble b (oldBytes (env.lenFor b) env.recvMem) rest
      let (accepted, msg) ← parseMessageBuf abi (b :: bytes) (b :: bytes).length env.recvMsg
      let (report, results) ← dispatch msg (memoryFrom (b :: bytes) env.recvMem) s.results
      return (⟨results, rest⟩, some ⟨b :: bytes, warned, accepted, msg, report⟩)) := by
  obtain ⟨r, hr, hread⟩ := readByte_some h
  have hbuf := newBuf_eq hlen env.recvMem
  have hold : (oldBytes (env.lenFor b) env.recvMem).length = (env.lenFor b).toNat - 1 := by
    simp [oldBytes]
  have hwrite : writeAt (env.recvMem 0 :: oldBytes (env.lenFor b) env.recvMem) 0 b =
      .ok (b :: oldBytes (env.lenFor b) env.recvMem) := rfl
  have hbytes := receiveBytes_eq [b] (oldBytes (env.lenFor b) env.recvMem) b rest
  rw [hold] at hbytes
  have hcount : ((b :: (assemble b (oldBytes (env.lenFor b) env.recvMem) rest).1).length : Int) =
      env.lenFor b := by
    rw [List.length_cons, length_assemble, hold]
    omega
  rcases hall : assemble b (oldBytes (env.lenFor b) env.recvMem) rest with ⟨bytes, rest', warned⟩
  simp only [hall, List.length_singleton, List.singleton_append] at hbytes hcount
  simp only [hcount]
  simp only [Env.lenFor] at hbuf hwrite hbytes ⊢
  simp only [receive, hread, if_pos hr, hbuf, ok_bind, hwrite, hbytes]

theorem receive_overflow (h : firstByte env.type s.input = some (b, rest))
    (hlen : 0 < env.lenFor b) (hsleep : intMax < (env.lenFor b + 25) * 200) :
    receive abi env s = .error .overflow := by
  rw [receive_eq abi h hlen, sleepTime, if_neg (Int.not_le.mpr hsleep), error_bind]

theorem receive_pass (h : firstByte env.type s.input = some (b, rest))
    (hlen : 0 < env.lenFor b) (hsleep : (env.lenFor b + 25) * 200 ≤ intMax)
    {bytes : List UInt8} {rest' : List ReadOutcome} {warned : Bool}
    (hbytes : assemble b (oldBytes (env.lenFor b) env.recvMem) rest = (bytes, rest', warned)) :
    ∃ pass results, receive abi env s = .ok (⟨results, rest'⟩, some pass) ∧
      pass.frame = b :: bytes ∧ pass.warned = warned ∧
      parseMessageBuf abi (b :: bytes) (b :: bytes).length env.recvMsg =
        .ok (pass.accepted, pass.msg) ∧
      dispatch pass.msg (memoryFrom (b :: bytes) env.recvMem) s.results =
        .ok (pass.report, results) := by
  obtain ⟨accepted, msg, hparse⟩ := parseMessageBuf_total abi (b :: bytes) env.recvMsg
  obtain ⟨report, results, hdispatch⟩ := dispatch_total abi msg
    (memoryFrom (b :: bytes) env.recvMem) s.results
  refine ⟨⟨b :: bytes, warned, accepted, msg, report⟩, results, ?_, rfl, rfl, hparse, hdispatch⟩
  simp only [receive_eq abi h hlen, sleepTime, if_pos hsleep, ok_bind, hbytes, hparse, hdispatch]
  rfl

variable {abi} in
/-- A receiving half that has read a byte ends behind the dispatch unless it faults. -/
theorem receive_ok {s' : MainState} {o : Option Pass}
    (h : firstByte env.type s.input = some (b, rest)) (hreceive : receive abi env s = .ok (s', o)) :
    0 < env.lenFor b ∧ (env.lenFor b + 25) * 200 ≤ intMax ∧ ∃ pass, o = some pass ∧
      pass.frame = b :: (assemble b (oldBytes (env.lenFor b) env.recvMem) rest).1 ∧
      parseMessageBuf abi pass.frame pass.frame.length env.recvMsg =
        .ok (pass.accepted, pass.msg) ∧
      dispatch pass.msg (memoryFrom pass.frame env.recvMem) s.results =
        .ok (pass.report, s'.results) := by
  by_cases hlen : 0 < env.lenFor b
  · by_cases hsleep : (env.lenFor b + 25) * 200 ≤ intMax
    · obtain ⟨pass, results, heq, hframe, -, hparse, hdispatch⟩ :=
        receive_pass abi h hlen hsleep rfl
      rw [heq] at hreceive
      cases hreceive
      rw [← hframe] at hparse hdispatch
      exact ⟨hlen, hsleep, pass, rfl, hframe, hparse, hdispatch⟩
    · rw [receive_overflow abi h hlen (Int.not_le.mp hsleep)] at hreceive
      cases hreceive
  · rw [receive_badLength abi h (Int.not_lt.mp hlen)] at hreceive
    cases hreceive

end Receive

/-! ## The whole round -/

/-- The frame that a round gives to the parser, if it gets that far. -/
def Env.frame (env : Env) (input : List ReadOutcome) : Option (List UInt8) :=
  match firstByte env.type input with
  | none => none
  | some (b, rest) =>
    if 0 < env.lenFor b ∧ (env.lenFor b + 25) * 200 ≤ intMax then
      some (b :: (assemble b (oldBytes (env.lenFor b) env.recvMem) rest).1)
    else
      none

theorem Env.frame_eq_some_iff {env : Env} {input : List ReadOutcome} {frame : List UInt8} :
    env.frame input = some frame ↔
      ∃ b rest, firstByte env.type input = some (b, rest) ∧ 0 < env.lenFor b ∧
        (env.lenFor b + 25) * 200 ≤ intMax ∧
        frame = b :: (assemble b (oldBytes (env.lenFor b) env.recvMem) rest).1 := by
  cases hfirst : firstByte env.type input with
  | none => simp [Env.frame, hfirst]
  | some start =>
    obtain ⟨b, rest⟩ := start
    by_cases hlen : 0 < env.lenFor b ∧ (env.lenFor b + 25) * 200 ≤ intMax
    · simp [Env.frame, hfirst, hlen, eq_comm]
    · simp only [Env.frame, hfirst, if_neg hlen, reduceCtorEq, Option.some.injEq, Prod.mk.injEq,
        false_iff]
      rintro ⟨_, _, ⟨rfl, rfl⟩, hpos, hsleep, -⟩
      exact hlen ⟨hpos, hsleep⟩

theorem Env.length_frame {env : Env} {input : List ReadOutcome} {frame : List UInt8}
    (h : env.frame input = some frame) :
    ∃ b bytes, frame = b :: bytes ∧ (frame.length : Int) = env.lenFor b := by
  obtain ⟨b, rest, -, hlen, -, rfl⟩ := Env.frame_eq_some_iff.mp h
  refine ⟨b, _, rfl, ?_⟩
  simp only [List.length_cons, length_assemble, oldBytes, List.length_ofFn]
  omega

section Round
variable {abi : Abi} {env : Env} {s s' : MainState} {out : Output}

theorem mainRound_ok_iff : mainRound abi s env = .ok (s', out) ↔
    SendFits env ∧ receive abi env s = .ok (s', out.pass) ∧
      out.sent = (env.key.bind commandPayload).map fun p => ⟨p.frame, env.written⟩ := by
  by_cases hsend : SendFits env
  · obtain ⟨sent, pass⟩ := out
    simp only [mainRound, handleEvent_ok abi hsend, ok_bind]
    cases hreceive : receive abi env s with
    | error e => simp
    | ok r =>
      obtain ⟨s₁, pass₁⟩ := r
      simp only [ok_bind, pure, Except.pure, Except.ok.injEq, Prod.mk.injEq, Output.mk.injEq]
      constructor
      · rintro ⟨rfl, rfl, rfl⟩
        exact ⟨hsend, ⟨rfl, rfl⟩, rfl⟩
      · rintro ⟨-, ⟨rfl, rfl⟩, rfl⟩
        exact ⟨rfl, rfl, rfl⟩
  · rcases handleEvent_fault abi hsend with hevent | hevent <;>
      simp [mainRound, hevent, hsend]

/-- What reaches the parser, and what follows from it. -/
theorem mainRound_pass {pass : Pass} (h : mainRound abi s env = .ok (s', out))
    (hpass : out.pass = some pass) :
    SendFits env ∧ env.frame s.input = some pass.frame ∧
      parseMessageBuf abi pass.frame pass.frame.length env.recvMsg =
        .ok (pass.accepted, pass.msg) ∧
      dispatch pass.msg (memoryFrom pass.frame env.recvMem) s.results =
        .ok (pass.report, s'.results) := by
  obtain ⟨hsend, hreceive, -⟩ := mainRound_ok_iff.mp h
  rw [hpass] at hreceive
  refine ⟨hsend, ?_⟩
  cases hfirst : firstByte env.type s.input with
  | none =>
    rw [receive_idle abi hfirst] at hreceive
    cases hreceive
  | some start =>
    obtain ⟨b, rest⟩ := start
    obtain ⟨hlen, hsleep, pass', hpass', hframe, hparse, hdispatch⟩ := receive_ok hfirst hreceive
    cases hpass'
    exact ⟨Env.frame_eq_some_iff.mpr ⟨b, rest, hfirst, hlen, hsleep, hframe⟩, hparse, hdispatch⟩

theorem mainRound_idle (h : mainRound abi s env = .ok (s', out)) (hpass : out.pass = none) :
    s'.results = s.results := by
  obtain ⟨-, hreceive, -⟩ := mainRound_ok_iff.mp h
  rw [hpass] at hreceive
  cases hfirst : firstByte env.type s.input with
  | none =>
    rw [receive_idle abi hfirst] at hreceive
    cases hreceive
    rfl
  | some start =>
    obtain ⟨b, rest⟩ := start
    obtain ⟨-, -, pass, hsome, -⟩ := receive_ok hfirst hreceive
    cases hsome

variable (abi) in
theorem mainRound_of_frame (s : MainState) (hsend : SendFits env) {frame : List UInt8}
    (h : env.frame s.input = some frame) :
    ∃ s' out pass, mainRound abi s env = .ok (s', out) ∧ out.pass = some pass ∧
      pass.frame = frame := by
  obtain ⟨b, rest, hfirst, hlen, hsleep, rfl⟩ := Env.frame_eq_some_iff.mp h
  obtain ⟨pass, results, heq, hframe, -⟩ :=
    receive_pass abi hfirst hlen hsleep rfl
  exact ⟨_, ⟨_, some pass⟩, pass, mainRound_ok_iff.mpr ⟨hsend, heq, rfl⟩, rfl, hframe⟩

end Round

end Prgsem
