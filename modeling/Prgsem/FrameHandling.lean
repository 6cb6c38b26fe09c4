import Prgsem.Round
import Prgsem.Shared.Run

/-!
# From the read outcomes to the dispatch

Which buffers reach the parser, and what a round does with one that is rejected.
The results of the reads behind the first one, of `get_message_size` and of
`parse_message_buf` are lost, so that both depend on stale memory.
-/

namespace Prgsem

open CMemory Run
set_option autoImplicit false

/-! ## Frames that were received -/

theorem assemble_bytes (type : UInt8) {old bytes : List UInt8} (h : old.length = bytes.length)
    (rest : List ReadOutcome) :
    assemble type old (bytes.map .byte ++ rest) = (bytes, rest, false) := by
  induction bytes generalizing type old with
  | nil =>
    cases List.length_eq_zero_iff.mp h
    rfl
  | cons b bytes ih =>
    obtain ⟨x, old, rfl⟩ := List.exists_cons_of_length_eq_add_one h
    have hrest := ih b (Nat.succ.inj h)
    simp only [List.map_cons, List.cons_append, assemble, hrest]

/-- The outcomes start with a byte of a known type and all further bytes of its message. -/
def WholeMessage (input : List ReadOutcome) : Prop :=
  ∃ (t : MessageType) (bytes : List UInt8), bytes.length = t.bodyLength + 1 ∧
    ((t.toByte :: bytes).map ReadOutcome.byte).IsPrefix input

/-- A buffer holds what the reads delivered one after the other, in the length
that `get_message_size` gives for its first byte. -/
def Received (input : List ReadOutcome) (frame : List UInt8) : Prop :=
  (frame.map ReadOutcome.byte).IsPrefix input ∧
    ∃ b, frame.head? = some b ∧ ∀ len, getMessageSize b len = (true, (frame.length : Int))

theorem Received.wholeMessage {input : List ReadOutcome} {frame : List UInt8}
    (h : Received input frame) : WholeMessage input := by
  obtain ⟨hstart, b, hhead, hsize⟩ := h
  obtain ⟨bytes, rfl⟩ := List.head?_eq_some_iff.mp hhead
  obtain ⟨t, rfl⟩ := getMessageSize_eq_true_iff.mp (congrArg Prod.fst (hsize 0))
  refine ⟨t, bytes, ?_, hstart⟩
  have hlen := hsize 0
  rw [MessageType.getMessageSize_toByte] at hlen
  simp only [Prod.mk.injEq, List.length_cons, true_and] at hlen
  omega

theorem WholeMessage.received {env : Env} {input : List ReadOutcome} {frame : List UInt8}
    (h : WholeMessage input) (hframe : env.frame input = some frame) : Received input frame := by
  obtain ⟨t, bytes, hlen, rest, rfl⟩ := h
  obtain ⟨b, rest', hfirst, -, -, rfl⟩ := Env.frame_eq_some_iff.mp hframe
  cases hfirst
  have hold : (oldBytes (env.lenFor t.toByte) env.recvMem).length = bytes.length := by
    simp only [oldBytes, List.length_ofFn, Env.lenFor, MessageType.getMessageSize_toByte]
    omega
  have hassemble := assemble_bytes t.toByte hold rest
  simp only [List.append_eq] at hassemble ⊢
  rw [hassemble]
  refine ⟨⟨rest, rfl⟩, t.toByte, rfl, ?_⟩
  intro len
  rw [MessageType.getMessageSize_toByte, List.length_cons, hlen]

def FrameReceived (abi : Abi) (s : MainState) (env : Env) : Prop :=
  ∀ s' out pass, mainRound abi s env = .ok (s', out) → out.pass = some pass →
    Received s.input pass.frame

/-- The port delivers a whole message unless the round ends before the parser:
at a buffer that is too short for the frame sent, at a first read that returns 0,
at a buffer without positive length or at the argument of `usleep`. -/
def MessageDelivered (s : MainState) (env : Env) : Prop :=
  SendFits env → ∀ b rest, firstByte env.type s.input = some (b, rest) → 0 < env.lenFor b →
    (env.lenFor b + 25) * 200 ≤ intMax → WholeMessage s.input

theorem frameReceived_iff {abi : Abi} {s : MainState} {env : Env} :
    FrameReceived abi s env ↔ MessageDelivered s env := by
  constructor
  · intro h hsend b rest hfirst hlen hsleep
    have hframe := Env.frame_eq_some_iff.mpr ⟨b, rest, hfirst, hlen, hsleep, rfl⟩
    obtain ⟨s', out, pass, hround, hpass, -⟩ := mainRound_of_frame abi s hsend hframe
    exact (h s' out pass hround hpass).wholeMessage
  · intro h s' out pass hround hpass
    obtain ⟨hsend, hframe, -⟩ := mainRound_pass hround hpass
    obtain ⟨b, rest, hfirst, hlen, hsleep, -⟩ := Env.frame_eq_some_iff.mp hframe
    exact (h hsend b rest hfirst hlen hsleep).received hframe

/-- In every run all buffers given to the parser were received exactly when the
port delivers a whole message to every round that gets as far as the parser. -/
theorem run_frameReceived_iff (abi : Abi) (s : MainState) (envs : List Env) :
    Along (mainRound abi) (FrameReceived abi) s envs ↔
      Along (mainRound abi) MessageDelivered s envs :=
  along_congr (fun _ _ => frameReceived_iff) s envs

/-- The type byte of `MSG_GET_VERSION` arrives, then nothing; the second byte of
the buffer is what the stack held. -/
theorem run_parses_stale_byte :
    ¬ Along (mainRound .sysV) (FrameReceived .sysV)
      ⟨.init sizeX sizeY fun _ => 0, [.byte 4, .nothing]⟩
      [{ Env.zero with recvMem := fun _ => 251 }] := by
  intro h
  obtain ⟨rest, hrest⟩ := (h.1 _ _ _ rfl rfl).1
  cases hrest

/-! ## Rejected frames -/

def Report.Announces : Report → Prop
  | .startup .. | .version .. | .data .. => True
  | .error | .nonstandard .. => False

/-- The type bytes of the messages that are announced. -/
def announced : List UInt8 :=
  [MessageType.startup.toByte, MessageType.version.toByte, MessageType.computeData.toByte]

section Dispatch
variable {msg : Message} {text : Mem} {results results' : Matrix sizeX sizeY} {report : Report}

/-- The branch taken depends on the type byte alone, and only an announcement
stores a result. -/
theorem dispatch_announces (h : dispatch msg text results = .ok (report, results')) :
    (report.Announces ↔ msg.type ∈ announced) ∧ (¬ report.Announces → results' = results) := by
  by_cases hstartup : msg.type = MessageType.startup.toByte
  · rw [dispatch, if_pos hstartup] at h
    cases h
    simp [Report.Announces, announced, hstartup]
  · by_cases hversion : msg.type = MessageType.version.toByte
    · rw [dispatch, if_neg hstartup, if_pos hversion] at h
      cases h
      simp [Report.Announces, announced, hversion]
    · by_cases herror : msg.type = MessageType.error.toByte
      · rw [dispatch, if_neg hstartup, if_neg hversion, if_pos herror] at h
        cases h
        simp [Report.Announces, announced, herror, MessageType.toByte]
      · by_cases hdata : msg.type = MessageType.computeData.toByte
        · rw [dispatch, if_neg hstartup, if_neg hversion, if_neg herror, if_pos hdata] at h
          obtain ⟨stored, -, hreport⟩ := bind_ok_iff.mp h
          cases hreport
          simp [Report.Announces, announced, hdata]
        · rw [dispatch, if_neg hstartup, if_neg hversion, if_neg herror, if_neg hdata] at h
          cases h
          simp [Report.Announces, announced, hstartup, hversion, hdata]

end Dispatch

/-- A frame that the parser rejects changes no result and announces nothing. -/
def RejectedHarmless (abi : Abi) (s : MainState) (env : Env) : Prop :=
  ∀ s' out pass, mainRound abi s env = .ok (s', out) → out.pass = some pass →
    pass.accepted = false → s'.results = s.results ∧ ¬ pass.report.Announces

/-- The bytes of the frame add up to 255, or the stale type byte of `msg` is not
one that is announced. -/
def RejectionSafe (s : MainState) (env : Env) : Prop :=
  SendFits env → ∀ frame, env.frame s.input = some frame →
    frame.sum = 255 ∨ env.recvMsg.type ∉ announced

theorem Env.unknown_of_rejected {env : Env} {input : List ReadOutcome} {frame : List UInt8}
    (h : env.frame input = some frame) (hsum : frame.sum = 255)
    (hreject : ∀ p : Payload, p.frame ≠ frame) (t : MessageType) : frame.headD 0 ≠ t.toByte := by
  intro ht
  obtain ⟨b, bytes, rfl, hlen⟩ := Env.length_frame h
  rw [List.headD_cons] at ht
  subst ht
  rw [Env.lenFor, MessageType.getMessageSize_toByte] at hlen
  obtain ⟨p, -, hp⟩ := Payload.exists_frame t (t.toByte :: bytes) rfl (Int.ofNat.inj hlen) hsum
  exact hreject p hp

theorem rejectedHarmless_iff {abi : Abi} {s : MainState} {env : Env} :
    RejectedHarmless abi s env ↔ RejectionSafe s env := by
  constructor
  · intro h hsend frame hframe
    by_contra hunsafe
    simp only [not_or, not_not] at hunsafe
    obtain ⟨hsum, htype⟩ := hunsafe
    obtain ⟨s', out, pass, hround, hpass, rfl⟩ := mainRound_of_frame abi s hsend hframe
    obtain ⟨-, -, hparse, hdispatch⟩ := mainRound_pass hround hpass
    have hreject := parseMessageBuf_reject abi pass.frame [] env.recvMsg
      (fun p hp => hsum (hp ▸ p.sum_frame))
    rw [List.append_nil, if_neg hsum, hparse] at hreject
    simp only [Except.ok.injEq, Prod.mk.injEq] at hreject
    obtain ⟨haccepted, hmsg⟩ := hreject
    rw [← hmsg] at htype
    exact (h s' out pass hround hpass haccepted).2 ((dispatch_announces hdispatch).1.mpr htype)
  · intro h s' out pass hround hpass haccepted
    obtain ⟨hsend, hframe, hparse, hdispatch⟩ := mainRound_pass hround hpass
    have hnot : ∀ p : Payload, p.frame ≠ pass.frame := by
      intro p hp
      have hframe' := parseMessageBuf_frame abi p [] env.recvMsg
      rw [List.append_nil, hp, hparse, haccepted] at hframe'
      cases hframe'
    have hreject := parseMessageBuf_reject abi pass.frame [] env.recvMsg hnot
    rw [List.append_nil, hparse] at hreject
    simp only [Except.ok.injEq, Prod.mk.injEq] at hreject
    have hquiet : pass.msg.type ∉ announced := by
      rw [hreject.2]
      by_cases hsum : pass.frame.sum = 255
      · rw [if_pos hsum]
        have hunknown := Env.unknown_of_rejected hframe hsum hnot
        simp only [announced, List.mem_cons, hunknown, List.not_mem_nil, or_false,
          not_false_eq_true]
      · rw [if_neg hsum]
        exact (h hsend pass.frame hframe).resolve_left hsum
    have hreport : ¬ pass.report.Announces := fun hannounced =>
      hquiet ((dispatch_announces hdispatch).1.mp hannounced)
    exact ⟨(dispatch_announces hdispatch).2 hreport, hreport⟩

/-- In every run all rejected frames are without effect exactly when, in every
round, the sum is right or the stale type byte is harmless. -/
theorem run_rejectedHarmless_iff (abi : Abi) (s : MainState) (envs : List Env) :
    Along (mainRound abi) (RejectedHarmless abi) s envs ↔
      Along (mainRound abi) RejectionSafe s envs :=
  along_congr (fun _ _ => rejectedHarmless_iff) s envs

/-- A version message with a wrong checksum while `msg` holds an earlier data message. -/
theorem run_announces_rejected :
    ¬ Along (mainRound .sysV) (RejectedHarmless .sysV)
      ⟨.init sizeX sizeY fun _ => 0, [.byte 5, .byte 1, .byte 0, .byte 0, .byte 0]⟩
      [{ Env.zero with recvMsg := ⟨9, fun _ => 7, 0⟩ }] := by
  intro h
  exact (h.1 _ _ _ rfl rfl rfl).2 trivial

end Prgsem
