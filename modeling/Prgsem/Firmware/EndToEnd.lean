import Prgsem.Firmware.System

/-!
# From the line to the line

What holds in every run of the whole firmware. The bytes that come in are cut into
messages, the loop handles the messages whose checksum is right as the protocol
says, and what it sends goes out as it was encoded, behind the startup message.
-/

namespace Prgsem.Firmware.System

open CMemory Run Receive MainLoop
set_option autoImplicit false

/-! ## What the events show of the line -/

def receivedFrames (events : List Event) : List (List UInt8) :=
  events.flatMap fun
    | .received p => [p.frame]
    | _ => []

def sentBytes (events : List Event) : List UInt8 :=
  events.flatMap fun
    | .sent bytes => bytes
    | _ => []

@[simp] theorem receivedFrames_snoc (events : List Event) (e : Event) :
    receivedFrames (events ++ [e]) = receivedFrames events ++ receivedFrames [e] := by
  simp [receivedFrames]

@[simp] theorem sentBytes_snoc (events : List Event) (e : Event) :
    sentBytes (events ++ [e]) = sentBytes events ++ sentBytes [e] := by
  simp [sentBytes]

def Intact (f : List UInt8) : Bool := f.sum = 255

/-! ## The input -/

/-- What a statement of `receive_message` does with the result: only the last one has it. -/
theorem receive_result {s s' : Receive.State} {result : Option Return}
    (h : Receive.mainStep s = .ok (s', result)) :
    (result = none ∧ s.pc ≠ .leave ∧ s'.pc ≠ .idle) ∨
    (s.pc = .leave ∧ s' = { s with nvic := true, pc := .idle } ∧
      result = some ⟨s.loc.ret, s.loc.msgBuf, s.loc.len⟩) := by
  obtain ⟨nvic, rx, pc, loc⟩ := s
  cases pc with
  | leave =>
    cases h
    exact .inr ⟨rfl, rfl, rfl⟩
  | loop =>
    simp only [Receive.mainStep] at h
    split at h <;> cases h <;> exact .inl ⟨rfl, by simp, by simp⟩
  | testEmpty | wait =>
    cases h
    refine .inl ⟨rfl, by simp, ?_⟩
    simp only
    split <;> simp
  | take =>
    obtain ⟨c, -, hcall⟩ := bind_ok_iff.mp h
    cases hcall
    exact .inl ⟨rfl, by simp, by simp⟩
  | store =>
    simp only [Receive.mainStep] at h
    split at h
    · split at h
      · obtain ⟨msgBuf, -, hcall⟩ := bind_ok_iff.mp h
        cases hcall
        exact .inl ⟨rfl, by simp, by simp⟩
      · cases h
        exact .inl ⟨rfl, by simp, by simp⟩
    · obtain ⟨msgBuf, -, hcall⟩ := bind_ok_iff.mp h
      cases hcall
      exact .inl ⟨rfl, by simp, by simp⟩
  | idle | disable | open_ | close | advance =>
    cases h
    exact .inl ⟨rfl, by simp, by simp⟩

/-- A statement of `receive_message` is one of the model that also notes the bytes it
removes from the ring. -/
theorem call_step {s s' : Progress.Polling} {out : Option Progress.Finished}
    (h : Progress.mainStep s = .ok (s', out))
    (hready : s.call.pc = .idle → s.call.rx.rxIn ≠ s.call.rx.rxOut) :
    Receive.mainStep s.call = .ok (s'.call, out.map Progress.Finished.ret) := by
  obtain ⟨⟨nvic, rx, pc, loc⟩, first, removed⟩ := s
  cases pc with
  | idle =>
    simp only [Progress.mainStep, if_pos (hready rfl)] at h
    obtain ⟨b, -, h⟩ := bind_ok_iff.mp h
    cases h
    rfl
  | advance =>
    obtain ⟨b, -, h⟩ := bind_ok_iff.mp h
    cases h
    rfl
  | leave =>
    cases h
    rfl
  | disable | loop | testEmpty | open_ | wait | close | take | store =>
    obtain ⟨⟨t, result⟩, ht, h⟩ := bind_ok_iff.mp h
    cases h
    rcases receive_result ht with ⟨rfl, -, -⟩ | ⟨hleave, -⟩
    · exact ht
    · cases hleave

theorem call_interrupt {stream removed ring : List UInt8} {past : List (Option Progress.Finished)}
    {first : UInt8} {nvic : Bool} {rx : Rx} {pc : Receive.Pc} {loc : Receive.Locals}
    (h : Progress.Inv stream past ⟨⟨nvic, rx, pc, loc⟩, first, removed⟩ ring) (n : Nat) :
    ∃ rx' bytes, rxInterrupt n rx = .ok rx' ∧
      Progress.Inv stream past ⟨⟨nvic, rx', pc, loc⟩, first, removed⟩ (ring ++ bytes) := by
  obtain ⟨rx', bytes, hrun, hholds, huart⟩ := rxInterrupt_ok n h.holds
  refine ⟨rx', bytes, hrun, hholds, h.room, h.size, ?_, h.reports, h.place.more_bytes bytes⟩
  have haccount := h.account
  simp only at huart
  simp only [huart, List.append_assoc] at haccount ⊢
  exact haccount

/-- The bytes `input` have come in so far or are still to come: first the messages that
were cut out of it, those of them in `frames` with a right checksum, then the message
`hand` that is not decoded yet. -/
def Reads (input : List UInt8) (frames : List (List UInt8)) (r : Receive.State)
    (hand : List UInt8) : Prop :=
  ∃ past first removed ring, ∃ cuts : List (List UInt8),
    Progress.Inv input past ⟨r, first, removed⟩ ring ∧ (∀ f ∈ cuts, WellSized f) ∧
    frames = cuts.filter Intact ∧
    (shown past).flatMap Progress.Finished.removed = cuts.flatten ++ hand

namespace Reads
variable {input hand f : List UInt8} {frames : List (List UInt8)}
variable {r : Receive.State} {nvic : Bool} {rx rx' : Rx} {pc : Receive.Pc} {loc : Receive.Locals}

theorem room (h : Reads input frames r hand) : r.loc.msgBuf.length = sizeofMessage := by
  obtain ⟨_, _, _, _, _, hinv, -⟩ := h
  exact hinv.room

theorem size (h : Reads input frames r hand) : r.loc.size = sizeofMessage := by
  obtain ⟨_, _, _, _, _, hinv, -⟩ := h
  exact hinv.size

/-- Between two calls the buffer and the variables may change. -/
theorem idle (h : Reads input frames ⟨nvic, rx, .idle, loc⟩ hand) {nvic' : Bool}
    {loc' : Receive.Locals} (hroom : loc'.msgBuf.length = sizeofMessage)
    (hsize : loc'.size = sizeofMessage) : Reads input frames ⟨nvic', rx, .idle, loc'⟩ hand := by
  obtain ⟨past, first, removed, ring, cuts, hinv, hsized, hframes, hcut⟩ := h
  refine ⟨past ++ [none], first, removed, ring, cuts, hinv.goto hroom hsize hinv.place, hsized,
    hframes, ?_⟩
  rw [shown_snoc_none]
  exact hcut

/-- The interrupt adds bytes to the ring, and then the ring is not empty if it was not before. -/
theorem interrupt (h : Reads input frames ⟨nvic, rx, pc, loc⟩ hand) (n : Nat) :
    ∃ rx', rxInterrupt n rx = .ok rx' ∧ Reads input frames ⟨nvic, rx', pc, loc⟩ hand ∧
      (rx.rxIn ≠ rx.rxOut → rx'.rxIn ≠ rx'.rxOut) := by
  obtain ⟨past, first, removed, ring, cuts, hinv, hsized, hframes, hcut⟩ := h
  obtain ⟨rx', bytes, hrun, hinv'⟩ := call_interrupt hinv n
  have hbefore : rx.rxIn = rx.rxOut ↔ ring = [] := hinv.holds.empty_iff
  have hafter : rx'.rxIn = rx'.rxOut ↔ ring ++ bytes = [] := hinv'.holds.empty_iff
  refine ⟨rx', hrun, ⟨past, first, removed, ring ++ bytes, cuts, hinv', hsized, hframes, hcut⟩, ?_⟩
  rw [ne_eq, ne_eq, hbefore, hafter]
  intro hne hnil
  exact hne (List.append_eq_nil_iff.mp hnil).1

/-- The message in hand is decoded. -/
theorem decoded (h : Reads input frames r f) (hf : WellSized f) :
    Reads input (frames ++ if Intact f then [f] else []) r [] := by
  obtain ⟨past, first, removed, ring, cuts, hinv, hsized, hframes, hcut⟩ := h
  refine ⟨past, first, removed, ring, cuts ++ [f], hinv, ?_, ?_, ?_⟩
  · intro g hg
    rcases List.mem_append.mp hg with hg | hg
    · exact hsized g hg
    · rwa [List.mem_singleton.mp hg]
  · rw [hframes, List.filter_append, List.filter_cons, List.filter_nil]
  · rw [hcut, List.flatten_append, List.flatten_singleton, List.append_nil]

end Reads

/-- What becomes of the input in a statement of `receive_message`. -/
def Answers (input : List UInt8) (frames : List (List UInt8)) (r : Receive.State) :
    Option Return → Prop
  | none => r.pc ≠ .idle ∧ Reads input frames r []
  | some result => r.pc = .idle ∧ r.nvic = true ∧
      if result.ret then ∃ f rest, WellSized f ∧ r.loc.msgBuf = f ++ rest ∧
        r.loc.len = f.length ∧ Reads input frames r f
      else Reads input frames r []

theorem Reads.leave {input : List UInt8} {frames : List (List UInt8)} {nvic : Bool} {rx : Rx}
    {loc : Receive.Locals} (h : Reads input frames ⟨nvic, rx, .leave, loc⟩ []) :
    Answers input frames ⟨true, rx, .idle, loc⟩ (some ⟨loc.ret, loc.msgBuf, loc.len⟩) := by
  obtain ⟨past, first, removed, ring, cuts, hinv, hsized, hframes, hcut⟩ := h
  have hends : Progress.Ends loc first removed := hinv.place
  obtain ⟨s', out, ring', hstep, hinv'⟩ := Progress.leave_step hinv
  cases hstep
  have hcut' : (shown (past ++ [some ⟨⟨loc.ret, loc.msgBuf, loc.len⟩, first, removed⟩])).flatMap
      Progress.Finished.removed = cuts.flatten ++ removed := by
    rw [shown_snoc_some, List.flatMap_append, hcut, List.append_nil, List.flatMap_singleton]
  refine ⟨rfl, rfl, ?_⟩
  cases hends with
  | message known ret len copied begins sized =>
    rw [if_pos ret]
    have hbuf := List.take_append_drop removed.length loc.msgBuf
    rw [copied] at hbuf
    exact ⟨removed, _, sized, hbuf.symm, len, _, _, _, ring', cuts, hinv', hsized, hframes, hcut'⟩
  | unknown unknown ret nothing =>
    rw [if_neg (by simp [ret])]
    subst nothing
    exact ⟨_, _, _, ring', cuts, hinv', hsized, hframes, hcut'⟩

theorem Reads.step {input : List UInt8} {frames : List (List UInt8)} {r : Receive.State}
    (h : Reads input frames r []) (hready : r.pc = .idle → r.rx.rxIn ≠ r.rx.rxOut) :
    ∃ r' result, Receive.mainStep r = .ok (r', result) ∧ Answers input frames r' result := by
  by_cases hleave : r.pc = .leave
  · obtain ⟨nvic, rx, pc, loc⟩ := r
    obtain rfl : pc = .leave := hleave
    exact ⟨_, _, rfl, h.leave⟩
  · obtain ⟨past, first, removed, ring, cuts, hinv, hsized, hframes, hcut⟩ := h
    obtain ⟨s', out, ring', hstep, hinv'⟩ := Progress.mainStep_ok hinv
    have hcall := call_step hstep hready
    rcases receive_result hcall with ⟨hnone, -, hpc⟩ | ⟨hpc, -⟩
    · obtain rfl : out = none := Option.map_eq_none_iff.mp hnone
      refine ⟨s'.call, none, hcall, hpc, past ++ [none], s'.first, s'.removed, ring', cuts, hinv',
        hsized, hframes, ?_⟩
      rw [shown_snoc_none]
      exact hcut
    · exact absurd hpc hleave

/-! ## The output -/

/-- Between two calls of `send_message` the NVIC belongs to `receive_message`, and the
transmit path does not depend on it. -/
def State.line (s : State) : Transmit.State :=
  { s.sending with nvic := s.sendPc = .idle || s.nvic }

/-- What has gone out, what waits in the ring and what is left of the current message. -/
def Writes (bytes : List UInt8) (t : Transmit.State) : Prop :=
  ∃ ring, Transmit.Sending ring t ∧ t.tx.uart ++ ring ++ t.rest = bytes

namespace Writes
variable {bytes : List UInt8} {t : Transmit.State}

theorem of_continues {ring : List UInt8} {t t' : Transmit.State} (hcalls : t.calls = [])
    (hbytes : t.tx.uart ++ ring ++ t.rest = bytes) (h : Transmit.Continues ring t t') :
    t'.calls = [] ∧ Writes bytes t' := by
  obtain ⟨begun, ring', hbegun, hsending, hstream⟩ := h
  rw [hcalls] at hbegun
  obtain ⟨rfl, hrest⟩ := List.append_eq_nil_iff.mp hbegun.symm
  rw [hbytes, List.flatMap_nil, List.append_nil] at hstream
  exact ⟨hrest, ring', hsending, hstream⟩

theorem step (h : Writes bytes t) (hcalls : t.calls = []) :
    ∃ t' out, Transmit.mainStep t = .ok (t', out) ∧ t'.calls = [] ∧ Writes bytes t' := by
  obtain ⟨ring, hsending, hbytes⟩ := h
  obtain ⟨t', out, hstep, hcontinues⟩ := Transmit.mainStep_ok hsending
  exact ⟨t', out, hstep, of_continues hcalls hbytes hcontinues⟩

theorem interrupt (h : Writes bytes t) (hcalls : t.calls = []) (hnvic : t.nvic = true)
    (htxeie : t.tx.txeie = true) :
    ∃ tx', Transmit.txInterrupt t.tx = .ok tx' ∧ Writes bytes { t with tx := tx' } := by
  obtain ⟨ring, hsending, hbytes⟩ := h
  obtain ⟨tx', hrun, hcontinues⟩ := Transmit.txInterrupt_ok hsending hnvic htxeie
  exact ⟨tx', hrun, (of_continues hcalls hbytes hcontinues).2⟩

/-- `send_buffer` begins with an encoded message. -/
theorem begin {tx : Transmit.Tx} {loc : Transmit.Locals}
    (h : Writes bytes ⟨true, tx, .idle, loc, []⟩) (p : Payload) (rest : List UInt8) :
    Writes (bytes ++ p.frame)
      ⟨true, tx, .disable, ⟨p.frame ++ rest, p.frame.length, 0⟩, []⟩ := by
  obtain ⟨ring, hsending, hbytes⟩ := h
  have hle := p.length_frame_le
  have hpos := p.length_frame
  refine ⟨ring, ⟨hsending.stored, fun _ => ⟨by simp only; omega, hle, by simp⟩, rfl, rfl,
    hsending.awake, fun hcopying => by cases hcopying⟩, ?_⟩
  rw [← hbytes]
  simp [Transmit.State.rest]

end Writes

/-! ## The loop -/

def Stmt.erase : Stmt → Option MainLoop.Stmt
  | .loop stmt => some stmt
  | _ => none

def erase (code : List Stmt) : List MainLoop.Stmt := code.filterMap Stmt.erase

/-- The state as the model of the loop has it, without the LED. -/
def State.main (s : State) : MainLoop.State :=
  ⟨s.msg, s.msgBuf, s.msgLen, s.computation, s.messageAbort, erase s.code⟩

/-- A statement that takes nothing in. -/
def Stmt.Plain : Stmt → Bool
  | .loop .receive | .loop .parse => false
  | _ => true

/-- Where the loop is, in the phase `ph` of the protocol and with the message `hand` in
`msg_buf` that is not decoded yet. -/
inductive Place (s : State) (ph : Phase) : List UInt8 → Prop where
  | receiving (hcall : s.receivePc ≠ .idle) (hsend : s.sendPc = .idle) (hcode : s.code = [])
      (h : Tracks s.computation s.messageAbort ph) : Place s ph []
  | parsing {f : List UInt8} (rest : List UInt8) (hcall : s.receivePc = .idle)
      (hsend : s.sendPc = .idle) (hnvic : s.nvic = true) (hcode : s.code = [.loop .parse])
      (hsized : WellSized f) (hbuf : s.msgBuf = f ++ rest) (hlen : s.msgLen = f.length)
      (h : Tracks s.computation s.messageAbort ph) : Place s ph f
  | calling (hcall : s.receivePc = .idle) (hsend : s.sendPc = .idle) (hnvic : s.nvic = true)
      (hcode : s.code = [.loop .receive]) (hready : s.rx.rxIn ≠ s.rx.rxOut)
      (h : Tracks s.computation s.messageAbort ph) : Place s ph []
  | working (hcall : s.receivePc = .idle) (hnvic : s.sendPc = .idle → s.nvic = true)
      (hplain : ∀ stmt ∈ s.code, stmt.Plain = true) (hat : At s.main ph s.main.code) :
      Place s ph []

structure Inv (input : List UInt8) (events : List Event) (s : State) (ph : Phase)
    (hand : List UInt8) : Prop where
  trace : Trace Allowed .start events ph
  reads : Reads input (receivedFrames events) s.receiving hand
  writes : Writes ((Payload.startup startupText).frame ++ sentBytes events) s.line
  place : Place s ph hand

theorem tracks_of_nil {l : MainLoop.State} {ph : Phase} (h : At l ph []) :
    Tracks l.computation l.messageAbort ph := by
  generalize hcode : ([] : List MainLoop.Stmt) = code at h
  cases h with
  | top h => exact h
  | compose h => simp at hcode
  | _ => cases hcode

/-- A message that may be sent now is ready, and what follows. -/
theorem composes_of_send {l : MainLoop.State} {ph : Phase} {code : List MainLoop.Stmt}
    (h : At l ph (.send :: code)) : Composes l ph [] code := by
  generalize hcode : MainLoop.Stmt.send :: code = code' at h
  cases h with
  | @compose as code'' h =>
    cases as with
    | nil =>
      cases hcode
      exact h
    | cons a as => cases hcode
  | _ => cases hcode

/-- A statement of the loop that calls nothing: the model of the loop does the same, and
the two paths are left alone. -/
theorem exec_plain {rand : Nat} {s : State} {code : List Stmt} {m : MainLoop.Stmt}
    {l : MainLoop.State} {out : Option Event} (hcode : s.code = .loop m :: code)
    (hplain : ∀ stmt ∈ s.code, stmt.Plain = true) (hsend : m ≠ .send)
    (h : MainLoop.exec ⟨false, .ok, rand⟩ { s.main with code := erase code } m = .ok (l, out)) :
    ∃ s', exec rand { s with code := code } (.loop m) = .ok (s', out) ∧ out = none ∧ s'.main = l ∧
      s'.receiving = s.receiving ∧ s'.line = s.line ∧ ∀ stmt ∈ s'.code, stmt.Plain = true := by
  rw [hcode, List.forall_mem_cons] at hplain
  obtain ⟨hm, hrest⟩ := hplain
  cases m with
  | receive | parse => cases hm
  | send => exact absurd rfl hsend
  | assign a | stopComputing | saveChunkId | saveNbrTasks | resetTaskId | startComputing
  | clearAbort | wait | nextTask =>
    cases h
    exact ⟨_, rfl, rfl, rfl, rfl, rfl, hrest⟩
  | switch =>
    cases h
    refine ⟨_, rfl, rfl, ?_, rfl, rfl, ?_⟩
    · apply congrArg fun code => ({ s.main with code := code } : MainLoop.State)
      simp only [State.main]
      cases MessageType.ofByte s.msg.type with
      | none => rfl
      | some t => cases t <;> rfl
    · simp only
      cases MessageType.ofByte s.msg.type with
      | none => simp
      | some t => cases t <;> simp only <;> decide
  | testComputing =>
    cases h
    refine ⟨_, rfl, rfl, ?_, rfl, rfl, ?_⟩
    · apply congrArg fun code => ({ s.main with code := code } : MainLoop.State)
      show erase (if s.computation.computing then _ else _) =
        if s.computation.computing then _ else _
      split <;> rfl
    · simp only
      split <;> decide
  | testTask =>
    simp only [MainLoop.exec] at h
    split at h
    · rename_i hmore
      have hmore' : s.computation.taskId < s.computation.nbrTasks ∧ s.messageAbort = false := hmore
      cases h
      exact ⟨_, if_pos hmore', rfl, rfl, rfl, rfl, by simp only; decide⟩
    · rename_i hmore
      have hmore' : ¬ (s.computation.taskId < s.computation.nbrTasks ∧ s.messageAbort = false) :=
        hmore
      cases h
      exact ⟨_, if_neg hmore', rfl, rfl, rfl, rfl, by simp only; decide⟩
  | testAbort =>
    cases h
    refine ⟨_, rfl, rfl, rfl, rfl, rfl, ?_⟩
    simp [Stmt.Plain]

/-! ## One step -/

/-- What a step does: nothing fails, and the event that it shows, if any, continues the trace. -/
def Next (input : List UInt8) (events : List Event)
    (step : Except Fault (State × Option Event)) : Prop :=
  ∃ s' out, step = .ok (s', out) ∧ ∃ ph hand, Inv input (events ++ out.toList) s' ph hand

theorem receiving_setReceiving (s : State) {r : Receive.State} (hsize : r.loc.size = sizeofMessage)
    (code : List Stmt) : State.receiving { s.setReceiving r with code := code } = r := by
  obtain ⟨nvic, rx, pc, ⟨msgBuf, size, len, ret, i, c⟩⟩ := r
  obtain rfl : size = sizeofMessage := hsize
  rfl

theorem State.line_of_idle {s : State} (h : s.sendPc = .idle) :
    s.line = ⟨true, s.tx, .idle, s.sendLoc, []⟩ := by
  simp [line, sending, h]

theorem State.line_eq {s : State} (h : s.sendPc = .idle → s.nvic = true) : s.line = s.sending := by
  by_cases hidle : s.sendPc = .idle
  · simp [line, sending, hidle, h hidle]
  · simp [line, sending, hidle]

section Step
variable {input hand : List UInt8} {events : List Event} {s : State} {ph : Phase}

/-- A step that shows nothing. -/
theorem Inv.quiet (h : Inv input events s ph hand) {s' : State} {hand' : List UInt8}
    (hreads : Reads input (receivedFrames events) s'.receiving hand') (hline : s'.line = s.line)
    (hplace : Place s' ph hand') : ∃ ph hand, Inv input (events ++ (none : Option Event).toList) s' ph hand := by
  rw [Option.toList_none, List.append_nil]
  exact ⟨ph, hand', h.trace, hreads, by rw [hline]; exact h.writes, hplace⟩

theorem mainStep_stmt (rand : Nat) {stmt : Stmt} {code : List Stmt} (hcall : s.receivePc = .idle)
    (hsend : s.sendPc = .idle) (hcode : s.code = stmt :: code) :
    mainStep rand s = exec rand { s with code := code } stmt := by
  unfold mainStep
  rw [if_neg (not_not_intro hcall), if_neg (not_not_intro hsend), hcode]

theorem receiving_ok (rand : Nat) (h : Inv input events s ph [])
    (hcall : s.receivePc ≠ .idle) (hsend : s.sendPc = .idle) (hcode : s.code = [])
    (htracks : Tracks s.computation s.messageAbort ph) : Next input events (mainStep rand s) := by
  obtain ⟨r, result, hstep, hanswers⟩ := h.reads.step fun hidle => absurd hidle hcall
  have hline (code : List Stmt) : State.line { s.setReceiving r with code := code } = s.line := by
    rw [State.line_of_idle hsend, State.line_of_idle (s := { s.setReceiving r with code := code })
      hsend]
    rfl
  cases result with
  | none =>
    obtain ⟨hpc, hreads⟩ := hanswers
    have hmain : mainStep rand s = .ok ({ s.setReceiving r with code := s.code }, none) := by
      simp only [mainStep, if_pos hcall, hstep, ok_bind]
      rfl
    refine ⟨_, none, hmain, h.quiet ?_ (hline _) (.receiving hpc hsend hcode htracks)⟩
    rwa [receiving_setReceiving s hreads.size]
  | some result =>
    obtain ⟨hpc, hnvic, hanswers⟩ := hanswers
    have hmain : mainStep rand s = .ok ({ s.setReceiving r with
        code := if result.ret then [.loop .parse] else [] }, none) := by
      simp only [mainStep, if_pos hcall, hstep, ok_bind]
      rfl
    by_cases hret : result.ret = true
    · rw [if_pos hret] at hmain hanswers
      obtain ⟨f, rest, hsized, hbuf, hlen, hreads⟩ := hanswers
      refine ⟨_, none, hmain, h.quiet ?_ (hline _)
        (.parsing rest hpc hsend hnvic rfl hsized hbuf hlen htracks)⟩
      rwa [receiving_setReceiving s hreads.size]
    · rw [if_neg hret] at hmain hanswers
      refine ⟨_, none, hmain, h.quiet ?_ (hline _)
        (.working hpc (fun _ => hnvic) (by simp) (.top htracks))⟩
      rwa [receiving_setReceiving s hanswers.size]

theorem calling_ok (rand : Nat) (h : Inv input events s ph [])
    (hcall : s.receivePc = .idle) (hsend : s.sendPc = .idle) (hcode : s.code = [.loop .receive])
    (hready : s.rx.rxIn ≠ s.rx.rxOut) (htracks : Tracks s.computation s.messageAbort ph) :
    Next input events (mainStep rand s) := by
  obtain ⟨r, result, hstep, hanswers⟩ := h.reads.step fun _ => hready
  rcases receive_result hstep with ⟨rfl, -, -⟩ | ⟨hleave, -⟩
  · obtain ⟨hpc, hreads⟩ := hanswers
    have hmain : mainStep rand s = .ok (State.setReceiving { s with code := [] } r, none) := by
      have hstep' : Receive.mainStep (State.receiving { s with code := [] }) = .ok (r, none) := hstep
      rw [mainStep_stmt rand hcall hsend hcode, exec, hstep', ok_bind]
      rfl
    refine ⟨_, none, hmain, h.quiet ?_ ?_ (.receiving hpc hsend rfl htracks)⟩
    · have hback := receiving_setReceiving s hreads.size []
      have hsame : State.receiving (State.setReceiving { s with code := [] } r) = r := hback
      rwa [hsame]
    · rw [State.line_of_idle hsend,
        State.line_of_idle (s := State.setReceiving { s with code := [] } r) hsend]
      rfl
  · have hidle : s.receiving.pc = .idle := hcall
    rw [hidle] at hleave
    cases hleave

theorem parsing_ok (rand : Nat) {f : List UInt8} (rest : List UInt8)
    (h : Inv input events s ph f) (hcall : s.receivePc = .idle) (hsend : s.sendPc = .idle)
    (hnvic : s.nvic = true) (hcode : s.code = [.loop .parse]) (hsized : WellSized f)
    (hbuf : s.msgBuf = f ++ rest) (hlen : s.msgLen = f.length)
    (htracks : Tracks s.computation s.messageAbort ph) : Next input events (mainStep rand s) := by
  have hreads := h.reads.decoded hsized
  rcases parseMessageBuf_wellSized hsized rest s.msg with ⟨p, rfl, hsum, hparse⟩ | ⟨hsum, hparse⟩
  · have hmain : mainStep rand s = .ok ({ s with
        msg := { s.msg with type := p.type.toByte, data := p.store s.msg.data }
        code := [.loop .switch] }, some (.received p)) := by
      rw [mainStep_stmt rand hcall hsend hcode]
      simp only [exec, hbuf, hlen, hparse, ok_bind, if_true, p.payload_store, Option.map_some]
      rfl
    have hintact : Intact p.frame = true := decide_eq_true hsum
    rw [if_pos hintact] at hreads
    refine ⟨_, _, hmain, ph.receive p, [], h.trace.snoc (.received ph p), ?_, ?_,
      .working hcall (fun _ => hnvic) (by simp [Stmt.Plain])
        (.switch (p.payload_store _ _) (Phase.receive_request ph p) htracks.receive)⟩
    · rw [Option.toList_some, receivedFrames_snoc]
      exact hreads
    · rw [Option.toList_some, sentBytes_snoc]
      show Writes (_ ++ (sentBytes events ++ [])) s.line
      rw [List.append_nil]
      exact h.writes
  · have hmain : mainStep rand s = .ok ({ s with code := onError }, none) := by
      rw [mainStep_stmt rand hcall hsend hcode]
      simp only [exec, hbuf, hlen, hparse, ok_bind]
      rfl
    have hintact : ¬ Intact f = true := mt of_decide_eq_true hsum
    rw [if_neg hintact, List.append_nil] at hreads
    have hanswer : Composes (State.main { s with code := onError }) ph [.type .error] [] := by
      rintro msg' ⟨-, rfl⟩
      exact ⟨.error, ph, rfl, .answer ph (.inr rfl), .inr ⟨rfl, htracks⟩⟩
    exact ⟨_, none, hmain, h.quiet hreads rfl
      (.working hcall (fun _ => hnvic) (by simp only; decide) (.compose hanswer))⟩

theorem sending_ok (rand : Nat) (h : Inv input events s ph []) (hcall : s.receivePc = .idle)
    (hsend : s.sendPc ≠ .idle) (hplain : ∀ stmt ∈ s.code, stmt.Plain = true)
    (hat : At s.main ph s.main.code) : Next input events (mainStep rand s) := by
  have hwrites := h.writes
  rw [State.line_eq fun hidle => absurd hidle hsend] at hwrites
  obtain ⟨⟨nvic, tx, pc, loc, calls⟩, out, hstep, hcalls, hwrites'⟩ := hwrites.step rfl
  obtain rfl : calls = [] := hcalls
  have hmain : mainStep rand s = .ok (s.setSending ⟨nvic, tx, pc, loc, []⟩, none) := by
    unfold mainStep
    rw [if_neg (not_not_intro hcall), if_pos hsend, hstep, ok_bind]
    rfl
  have hnvic : pc = .idle → nvic = true := by
    obtain ⟨ring, hsending, -⟩ := hwrites'
    rintro rfl
    exact hsending.masked
  refine ⟨_, none, hmain, ph, [], ?_, ?_, ?_, .working hcall hnvic hplain hat⟩
  · rw [Option.toList_none, List.append_nil]
    exact h.trace
  · rw [Option.toList_none, List.append_nil]
    have hreads := h.reads
    rw [State.receiving, hcall] at hreads
    show Reads input _ ⟨nvic, s.rx, s.receivePc, _⟩ []
    rw [hcall]
    exact hreads.idle hreads.room rfl
  · rw [Option.toList_none, List.append_nil,
      State.line_eq (s := s.setSending ⟨nvic, tx, pc, loc, []⟩) hnvic]
    exact hwrites'

theorem send_ok (rand : Nat) {code : List Stmt} (h : Inv input events s ph [])
    (hcall : s.receivePc = .idle) (hsend : s.sendPc = .idle) (hnvic : s.nvic = true)
    (hcode : s.code = .loop .send :: code)
    (hplain : ∀ stmt ∈ s.code, stmt.Plain = true) (hat : At s.main ph s.main.code) :
    Next input events (mainStep rand s) := by
  have hroom : s.msgBuf.length = sizeofMessage := h.reads.room
  have herase : s.main.code = .send :: erase code := by rw [State.main, hcode]; rfl
  rw [herase] at hat
  obtain ⟨p, ph', hmsg, hallowed, hnext⟩ := composes_of_send hat s.msg rfl
  have hfits : p.frame.length ≤ s.msgBuf.length := by
    have hle := p.length_frame_le
    rw [hroom, sizeofMessage]
    omega
  have hsize : toSizeT (p.frame.length : Int) = p.frame.length := by
    rw [toSizeT, if_pos (Int.natCast_nonneg _), Int.toNat_natCast]
  have hfill := fillMessageBuf_eq s.msg p s.msgBuf s.msgLen hmsg hfits
  let s' : State := { s with
    msgBuf := p.frame ++ s.msgBuf.drop p.frame.length
    code := code
    sendPc := .disable
    sendLoc := ⟨p.frame ++ s.msgBuf.drop p.frame.length, p.frame.length, 0⟩ }
  have hmain : mainStep rand s = .ok (s', some (.sent p.frame)) := by
    rw [mainStep_stmt rand hcall hsend hcode]
    simp only [exec, hfill, ok_bind, if_true, hsize, Int.toNat_natCast, List.take_left]
    rfl
  rw [hcode, List.forall_mem_cons] at hplain
  refine ⟨s', _, hmain, ph', [], h.trace.snoc hallowed, ?_, ?_,
    .working hcall (fun hidle => by cases hidle) hplain.2 ?_⟩
  · have hreads := h.reads
    rw [State.receiving, hcall] at hreads
    rw [Option.toList_some, receivedFrames_snoc]
    show Reads input (receivedFrames events ++ []) ⟨s.nvic, s.rx, s.receivePc, _⟩ []
    rw [List.append_nil, hcall]
    refine hreads.idle ?_ rfl
    show (p.frame ++ s.msgBuf.drop p.frame.length).length = sizeofMessage
    rw [List.length_append, List.length_drop]
    omega
  · have hwrites := h.writes
    rw [State.line_of_idle hsend] at hwrites
    rw [Option.toList_some, sentBytes_snoc, State.line_eq (s := s') fun _ => hnvic]
    show Writes (_ ++ (sentBytes events ++ (p.frame ++ []))) ⟨s.nvic, s.tx, .disable, _, []⟩
    rw [List.append_nil, ← List.append_assoc, hnvic]
    exact hwrites.begin p _
  · show At s'.main ph' (erase code)
    rcases hnext with hstop | ⟨hnil, htracks⟩
    · rw [hstop]
      exact .stop
    · rw [hnil]
      exact .top htracks

/-- A statement that calls nothing. -/
theorem loop_ok (rand : Nat) {m : MainLoop.Stmt} {code : List Stmt}
    (h : Inv input events s ph []) (hcall : s.receivePc = .idle) (hsend : s.sendPc = .idle)
    (hnvic : s.nvic = true) (hcode : s.code = .loop m :: code) (hm : m ≠ .send)
    (hplain : ∀ stmt ∈ s.code, stmt.Plain = true) (hat : At s.main ph s.main.code) :
    Next input events (mainStep rand s) := by
  obtain ⟨l, out, hstep, hfollows⟩ :=
    MainLoop.step_ok h.reads.room hat (.main ⟨false, .ok, rand⟩)
  have herase : s.main.code = m :: erase code := by rw [State.main, hcode]; rfl
  simp only [MainLoop.step, herase] at hstep
  obtain ⟨s', hexec, rfl, rfl, hreceiving, hline, hplain'⟩ := exec_plain hcode hplain hm hstep
  rw [← mainStep_stmt rand hcall hsend hcode] at hexec
  have hcall' : s'.receivePc = .idle := (congrArg Receive.State.pc hreceiving).trans hcall
  have hnvic' : s'.nvic = true := (congrArg Receive.State.nvic hreceiving).trans hnvic
  refine ⟨s', none, hexec, h.quiet ?_ hline (.working hcall' (fun _ => hnvic') hplain' hfollows.2)⟩
  rw [hreceiving]
  exact h.reads

/-- The head of `while (1)`. -/
theorem head_ok (rand : Nat) (h : Inv input events s ph []) (hcall : s.receivePc = .idle)
    (hsend : s.sendPc = .idle) (hnvic : s.nvic = true) (hcode : s.code = [])
    (hat : At s.main ph s.main.code) : Next input events (mainStep rand s) := by
  have herase : s.main.code = [] := by rw [State.main, hcode]; rfl
  rw [herase] at hat
  have htracks := tracks_of_nil hat
  have hmain : mainStep rand s = .ok ({ s with
      code := if s.rx.rxIn ≠ s.rx.rxOut then [.loop .receive] else [.loop .testComputing] },
      none) := by
    unfold mainStep
    rw [if_neg (not_not_intro hcall), if_neg (not_not_intro hsend), hcode]
  refine ⟨_, none, hmain, ?_⟩
  by_cases hready : s.rx.rxIn ≠ s.rx.rxOut
  · exact h.quiet h.reads rfl (.calling hcall hsend hnvic (if_pos hready) hready htracks)
  · simp only [if_neg hready]
    exact h.quiet h.reads rfl
      (.working hcall (fun _ => hnvic) (by simp [Stmt.Plain]) (.testComputing htracks))

theorem led_ok (rand : Nat) {stmt : Stmt} {code : List Stmt} (h : Inv input events s ph [])
    (hcall : s.receivePc = .idle) (hsend : s.sendPc = .idle) (hnvic : s.nvic = true)
    (hcode : s.code = stmt :: code) (hplain : ∀ stmt ∈ s.code, stmt.Plain = true)
    (hat : At s.main ph s.main.code) (hled : stmt.erase = none)
    (hexec : ∃ ticker led, exec rand { s with code := code } stmt =
      .ok ({ s with code := code, ticker := ticker, led := led }, none)) :
    Next input events (mainStep rand s) := by
  obtain ⟨ticker, led, hexec⟩ := hexec
  rw [← mainStep_stmt rand hcall hsend hcode] at hexec
  have herase : erase s.code = erase code := by rw [hcode, erase, List.filterMap_cons_none hled]; rfl
  have hmain : State.main { s with code := code, ticker := ticker, led := led } = s.main := by
    rw [State.main, ← herase]
    rfl
  rw [hcode, List.forall_mem_cons] at hplain
  refine ⟨_, none, hexec, h.quiet h.reads rfl (.working hcall (fun _ => hnvic) hplain.2 ?_)⟩
  rwa [hmain]

theorem working_ok (rand : Nat) (h : Inv input events s ph []) (hcall : s.receivePc = .idle)
    (hnvic : s.sendPc = .idle → s.nvic = true) (hplain : ∀ stmt ∈ s.code, stmt.Plain = true)
    (hat : At s.main ph s.main.code) : Next input events (mainStep rand s) := by
  by_cases hsend : s.sendPc = .idle
  · cases hcode : s.code with
    | nil => exact head_ok rand h hcall hsend (hnvic hsend) hcode hat
    | cons stmt code =>
      cases stmt with
      | loop m =>
        by_cases hm : m = .send
        · subst hm
          exact send_ok rand h hcall hsend (hnvic hsend) hcode hplain hat
        · exact loop_ok rand h hcall hsend (hnvic hsend) hcode hm hplain hat
      | attach => exact led_ok rand h hcall hsend (hnvic hsend) hcode hplain hat rfl ⟨_, _, rfl⟩
      | detach => exact led_ok rand h hcall hsend (hnvic hsend) hcode hplain hat rfl ⟨_, _, rfl⟩
      | ledOff => exact led_ok rand h hcall hsend (hnvic hsend) hcode hplain hat rfl ⟨_, _, rfl⟩
  · exact sending_ok rand h hcall hsend hplain hat

theorem mainStep_ok (rand : Nat) (h : Inv input events s ph hand) :
    Next input events (mainStep rand s) := by
  have hplace := h.place
  cases hplace with
  | receiving hcall hsend hcode htracks => exact receiving_ok rand h hcall hsend hcode htracks
  | parsing rest hcall hsend hnvic hcode hsized hbuf hlen htracks =>
    exact parsing_ok rand rest h hcall hsend hnvic hcode hsized hbuf hlen htracks
  | calling hcall hsend hnvic hcode hready htracks =>
    exact calling_ok rand h hcall hsend hcode hready htracks
  | working hcall hnvic hplain hat => exact working_ok rand h hcall hnvic hplain hat

/-- What the interrupts and the ticker change does not move the loop. -/
theorem Place.frame (h : Place s ph hand) {rx : Rx} (tx : Transmit.Tx) (led : Bool)
    (hready : s.rx.rxIn ≠ s.rx.rxOut → rx.rxIn ≠ rx.rxOut) :
    Place { s with rx := rx, tx := tx, led := led } ph hand := by
  cases h with
  | receiving hcall hsend hcode h => exact .receiving hcall hsend hcode h
  | parsing rest hcall hsend hnvic hcode hsized hbuf hlen h =>
    exact .parsing rest hcall hsend hnvic hcode hsized hbuf hlen h
  | calling hcall hsend hnvic hcode hne h => exact .calling hcall hsend hnvic hcode (hready hne) h
  | working hcall hnvic hplain hat => exact .working hcall hnvic hplain hat

theorem Place.press (h : Place s ph hand) : Place { s with messageAbort := true } ph.press hand := by
  cases h with
  | receiving hcall hsend hcode h => exact .receiving hcall hsend hcode h.press
  | parsing rest hcall hsend hnvic hcode hsized hbuf hlen h =>
    exact .parsing rest hcall hsend hnvic hcode hsized hbuf hlen h.press
  | calling hcall hsend hnvic hcode hne h => exact .calling hcall hsend hnvic hcode hne h.press
  | working hcall hnvic hplain hat => exact .working hcall hnvic hplain hat.press

theorem step_ok (h : Inv input events s ph hand) (move : Move) :
    Next input events (step s move) := by
  cases move with
  | main rand => exact mainStep_ok rand h
  | rxInterrupt n =>
    by_cases hnvic : s.nvic = true
    · obtain ⟨rx, hrun, hreads, hready⟩ := h.reads.interrupt n
      refine ⟨{ s with rx := rx }, none, ?_, h.quiet hreads rfl (h.place.frame s.tx s.led hready)⟩
      simp only [step, if_pos hnvic, hrun, ok_bind]
      rfl
    · exact ⟨s, none, if_neg hnvic, h.quiet h.reads rfl h.place⟩
  | txInterrupt =>
    by_cases hon : s.nvic = true ∧ s.tx.txeie = true
    · have hnvic : s.line.nvic = true := by simp [State.line, State.sending, hon.1]
      obtain ⟨tx, hrun, hwrites⟩ := h.writes.interrupt rfl hnvic hon.2
      have hrun' : Transmit.txInterrupt s.tx = .ok tx := hrun
      refine ⟨{ s with tx := tx }, none, ?_, ph, hand, ?_, ?_, ?_, h.place.frame tx s.led id⟩
      · simp only [step, if_pos hon, hrun', ok_bind]
        rfl
      · rw [Option.toList_none, List.append_nil]
        exact h.trace
      · rw [Option.toList_none, List.append_nil]
        exact h.reads
      · rw [Option.toList_none, List.append_nil]
        exact hwrites
    · exact ⟨s, none, if_neg hon, h.quiet h.reads rfl h.place⟩
  | pressed =>
    refine ⟨_, some .pressed, rfl, ph.press, hand, h.trace.snoc (.pressed ph), ?_, ?_, h.place.press⟩
    · rw [Option.toList_some, receivedFrames_snoc]
      show Reads input (receivedFrames events ++ []) s.receiving hand
      rw [List.append_nil]
      exact h.reads
    · rw [Option.toList_some, sentBytes_snoc]
      show Writes (_ ++ (sentBytes events ++ [])) s.line
      rw [List.append_nil]
      exact h.writes
  | flip => exact ⟨_, none, rfl, h.quiet h.reads rfl (h.place.frame s.tx _ id)⟩

end Step

/-! ## Runs -/

theorem start_ok (input : List UInt8) (boot : Boot) :
    ∃ s, start input boot = .ok s ∧ Inv input [] s .start [] := by
  have hmsg : payload ⟨MessageType.startup.toByte, boot.data.store Offset.message startupText, 0⟩ =
      some (.startup startupText) := (Payload.startup startupText).payload_store boot.data 0
  have hlen : (List.ofFn boot.msgBuf).length = sizeofMessage := List.length_ofFn
  have hsize : sizeofMessage = 14 := rfl
  have hle := (Payload.startup startupText).length_frame_le
  have hrx : (List.ofFn boot.rxBuffer).length = bufSize := List.length_ofFn
  have htx : (List.ofFn boot.txBuffer).length = bufSize := List.length_ofFn
  unfold start
  generalize List.ofFn boot.rxBuffer = rxBuffer at hrx ⊢
  generalize List.ofFn boot.txBuffer = txBuffer at htx ⊢
  generalize List.ofFn boot.msgBuf = msgBuf at hlen ⊢
  have hfill := fillMessageBuf_eq _ _ msgBuf boot.msgLen hmsg (by omega)
  simp only [hfill, ok_bind, if_true, Int.toNat_natCast, List.take_left]
  refine ⟨_, rfl, .nil _, ?_, ?_, .working rfl (fun _ => rfl) (by simp) (.top (tracks_off rfl))⟩
  · have hready : Progress.Ready ⟨⟨true, ⟨input, rxBuffer, 0, 0⟩, .idle,
        ⟨(Payload.startup startupText).frame ++
          msgBuf.drop (Payload.startup startupText).frame.length, sizeofMessage,
          (Payload.startup startupText).frame.length, boot.ret, boot.i, boot.c⟩⟩, 0, []⟩ [] := by
      refine ⟨rfl, stored_nil hrx, ?_, rfl, rfl⟩
      simp only [List.length_append, List.length_drop]
      omega
    exact ⟨[], 0, [], [], [], hready.inv, by simp, rfl, rfl⟩
  · refine ⟨[], ⟨stored_nil htx, fun hne => absurd rfl hne, trivial, rfl,
      fun _ hne => absurd rfl hne, fun hcopying => by cases hcopying⟩, ?_⟩
    simp [State.line, State.sending, Transmit.State.rest, sentBytes]

theorem run_ok {input hand : List UInt8} {events : List Event} {s : State} {ph : Phase}
    (h : Inv input events s ph hand) (moves : List Move) :
    ∃ t outs, run step s moves = .ok (t, outs) ∧
      ∃ ph hand, Inv input (events ++ shown outs) t ph hand := by
  apply run_invariant (fun past s => ∃ ph hand, Inv input (events ++ shown past) s ph hand)
  · rintro past s move ⟨ph, hand, hinv⟩
    obtain ⟨s', out, hstep, hnext⟩ := step_ok hinv move
    refine ⟨s', out, hstep, ?_⟩
    rwa [shown_snoc, ← List.append_assoc]
  · refine ⟨ph, hand, ?_⟩
    rwa [shown, List.filterMap_nil, List.append_nil]

/-- Whatever comes in, whenever the interrupts and the ticker run and the button is
pressed, the firmware never fails and follows the computation protocol. What has come in is,
in order, the messages cut out of it, each of the length of its type, what is in hand
and what waits; those with the right checksum are the ones the loop received. What has
left the UART, what waits in the ring and what is left of the current frame are
together, in order, the startup message and the messages that were sent. -/
theorem firmware_correct (input : List UInt8) (boot : Boot) (moves : List Move) :
    ∃ s t outs, start input boot = .ok s ∧ run step s moves = .ok (t, outs) ∧
      Obeys (shown outs) ∧
      (∃ (cuts : List (List UInt8)) (hand ring : List UInt8),
        input = cuts.flatten ++ hand ++ ring ++ t.rx.uart ∧ t.rx.Holds ring ∧
        (∀ f ∈ cuts, WellSized f) ∧ receivedFrames (shown outs) = cuts.filter Intact ∧
        (t.receivePc = .idle → t.code ≠ [.loop .parse] → hand = [])) ∧
      ∃ ring, Stored t.tx.txBuffer t.tx.txIn t.tx.txOut ring ∧
        t.tx.uart ++ ring ++ t.sending.rest =
          (Payload.startup startupText).frame ++ sentBytes (shown outs) := by
  obtain ⟨s, hstart, hinv⟩ := start_ok input boot
  obtain ⟨t, outs, hrun, ph, hand, hinv'⟩ := run_ok hinv moves
  refine ⟨s, t, outs, hstart, hrun, obeys_of_trace hinv'.trace, ?_, ?_⟩
  · obtain ⟨past, first, removed, ring, cuts, hreads, hsized, hframes, hcut⟩ := hinv'.reads
    have haccount := hreads.account
    rw [hcut] at haccount
    refine ⟨cuts, hand ++ removed, ring, ?_, hreads.holds, hsized, hframes, ?_⟩
    · rw [← List.append_assoc]
      exact haccount.symm
    · intro hcall hcode
      have hremoved : removed = [] := by
        have hat := hreads.place
        rw [State.receiving, hcall] at hat
        exact hat
      have hplace := hinv'.place
      cases hplace with
      | parsing rest _ _ _ hparse => exact absurd hparse hcode
      | _ => rw [hremoved, List.append_nil]
  · obtain ⟨ring, hsending, hstream⟩ := hinv'.writes
    exact ⟨ring, hsending.stored, hstream⟩

end Prgsem.Firmware.System
