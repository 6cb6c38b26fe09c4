import Prgsem.Firmware.Receive

/-!
# The progress of the receive path

`receive_message` as `main` calls it: only when the ring is not empty. A call that
finds a known type takes the whole message out of the ring. A call that finds an
unknown one leaves through `break` with the byte still in the ring, where the next
call finds it again.
-/

namespace Prgsem.Firmware.Progress

open CMemory Run Receive
set_option autoImplicit false

/-- The state of `receive_message`, and of the current call the byte that was at the
front of the ring when `main` made it and the bytes it has removed. -/
structure Polling where
  call : Receive.State
  first : UInt8
  removed : List UInt8

structure Finished where
  ret : Return
  first : UInt8
  removed : List UInt8

/-- A statement of `main` or of `receive_message`. -/
def mainStep (s : Polling) : Except Fault (Polling × Option Finished) :=
  match s.call.pc with
  | .idle =>
    if s.call.rx.rxIn ≠ s.call.rx.rxOut then do
      let first ← readAt s.call.rx.rxBuffer s.call.rx.rxOut
      let (call, _) ← Receive.mainStep s.call
      return (⟨call, first, []⟩, none)
    else
      .ok (s, none)
  | .advance => do
    let c ← readAt s.call.rx.rxBuffer s.call.rx.rxOut
    let (call, _) ← Receive.mainStep s.call
    return (⟨call, s.first, s.removed ++ [c]⟩, none)
  | .leave => do
    let (call, ret) ← Receive.mainStep s.call
    return (⟨call, s.first, []⟩, ret.map fun r => ⟨r, s.first, s.removed⟩)
  | _ => do
    let (call, _) ← Receive.mainStep s.call
    return ({ s with call := call }, none)

def step (s : Polling) : Move → Except Fault (Polling × Option Finished)
  | .main => mainStep s
  | move => do
    let (call, _) ← Receive.step s.call move
    return ({ s with call := call }, none)

/-- Between two calls, with the bytes `ring` in the ring. -/
structure Ready (s : Polling) (ring : List UInt8) : Prop where
  idle : s.call.pc = .idle
  holds : s.call.rx.Holds ring
  room : s.call.loc.msgBuf.length = sizeofMessage
  size : s.call.loc.size = sizeofMessage
  fresh : s.removed = []

def Known (b : UInt8) : Prop := ∃ t : MessageType, b = t.toByte

theorem getMessageSize_cases (b : UInt8) :
    (Known b ∧ ∃ size, 2 ≤ size ∧ size ≤ 11 ∧ ∀ len, getMessageSize b len = (true, size)) ∨
    (¬ Known b ∧ ∀ len, getMessageSize b len = (false, len)) := by
  cases ht : MessageType.ofByte b with
  | none =>
    right
    constructor
    · rintro ⟨t, rfl⟩
      rw [MessageType.ofByte_toByte] at ht
      cases ht
    · intro len
      simp only [getMessageSize, ht]
  | some t =>
    left
    refine ⟨⟨t, MessageType.ofByte_eq_some_iff.mp ht⟩, ?_⟩
    obtain ⟨size, hsize⟩ : ∃ size, getMessageSize b 0 = (true, size) := by
      cases t <;> exact ⟨_, by simp only [getMessageSize, ht]; rfl⟩
    have hbounds := getMessageSize_bounds hsize
    exact ⟨size, hbounds.1, hbounds.2, getMessageSize_known hsize⟩

/-! ## What a call has done -/

/-- The bytes removed are in `msg_buf`, and with what is left in the ring they begin
with the byte that the call was made for. -/
structure Copied (loc : Locals) (first : UInt8) (removed ring : List UInt8) : Prop where
  count : loc.i = removed.length
  copied : loc.msgBuf.take loc.i = removed
  begins : (removed ++ ring).head? = some first

/-- The type of the message is known, and `*len` is its length. -/
structure Sized (loc : Locals) (first : UInt8) : Prop where
  size : ∀ len, getMessageSize first len = (true, loc.len)
  ret : loc.ret = true
  fits : loc.i ≤ loc.len

/-- The call still needs a byte. -/
structure More (loc : Locals) (first : UInt8) (removed ring : List UInt8) : Prop
    extends Copied loc first removed ring where
  sized : removed ≠ [] → Sized loc first ∧ loc.i < loc.len

/-- How a call ends. -/
inductive Ends (loc : Locals) (first : UInt8) (removed : List UInt8) : Prop where
  | message (known : Known first) (ret : loc.ret = true) (len : loc.len = removed.length)
      (copied : loc.msgBuf.take removed.length = removed) (begins : removed.head? = some first)
      (sized : WellSized removed)
  | unknown (unknown : ¬ Known first) (ret : loc.ret = false) (nothing : removed = [])

def At (loc : Locals) (first : UInt8) (removed ring : List UInt8) : Pc → Prop
  | .idle => removed = []
  | .disable => removed = [] ∧ loc.i = 0 ∧ ring.head? = some first
  | .loop => Copied loc first removed ring ∧ (removed ≠ [] → Sized loc first)
  | .testEmpty | .open_ | .wait => More loc first removed ring
  | .close | .take => More loc first removed ring ∧ ring ≠ []
  | .store => More loc first removed ring ∧ ring.head? = some loc.c
  | .advance => ∃ c rest, ring = c :: rest ∧
      Copied loc first (removed ++ [c]) rest ∧ Sized loc first
  | .leave => Ends loc first removed

theorem head?_append_of_some {l : List UInt8} {b : UInt8} (h : l.head? = some b)
    (l' : List UInt8) : (l ++ l').head? = some b := by
  cases l with
  | nil => cases h
  | cons x l => exact h

section Interrupt
variable {loc : Locals} {first : UInt8} {removed ring : List UInt8}

theorem Copied.more_bytes (h : Copied loc first removed ring) (bytes : List UInt8) :
    Copied loc first removed (ring ++ bytes) where
  count := h.count
  copied := h.copied
  begins := by
    rw [← List.append_assoc]
    exact head?_append_of_some h.begins bytes

theorem More.more_bytes (h : More loc first removed ring) (bytes : List UInt8) :
    More loc first removed (ring ++ bytes) :=
  ⟨h.toCopied.more_bytes bytes, h.sized⟩

theorem At.more_bytes {pc : Pc} (h : At loc first removed ring pc) (bytes : List UInt8) :
    At loc first removed (ring ++ bytes) pc := by
  cases pc with
  | idle => exact h
  | disable => exact ⟨h.1, h.2.1, head?_append_of_some h.2.2 bytes⟩
  | loop => exact ⟨h.1.more_bytes bytes, h.2⟩
  | testEmpty => exact More.more_bytes h bytes
  | open_ => exact More.more_bytes h bytes
  | wait => exact More.more_bytes h bytes
  | close => exact ⟨h.1.more_bytes bytes, by simp [h.2]⟩
  | take => exact ⟨h.1.more_bytes bytes, by simp [h.2]⟩
  | store => exact ⟨h.1.more_bytes bytes, head?_append_of_some h.2 bytes⟩
  | advance =>
    obtain ⟨c, rest, rfl, hcopied, hsized⟩ := h
    exact ⟨c, rest ++ bytes, rfl, hcopied.more_bytes bytes, hsized⟩
  | leave => exact h

end Interrupt

/-! ## One statement -/

/-- What a finished call has done: either it returned the message that it removed, or
it found an unknown type and removed nothing. -/
inductive Finished.Reports (call : Finished) : Prop where
  | message (known : Known call.first)
      (ret : call.ret.message = (true, call.removed, (call.removed.length : Int)))
      (begins : call.removed.head? = some call.first) (sized : WellSized call.removed)
  | unknown (unknown : ¬ Known call.first) (ret : call.ret.ret = false)
      (nothing : call.removed = [])

/-- What the calls have removed so far, what the ring holds and what is still in the
UART is the byte string `stream`. -/
structure Inv (stream : List UInt8) (past : List (Option Finished)) (s : Polling)
    (ring : List UInt8) : Prop where
  holds : s.call.rx.Holds ring
  room : s.call.loc.msgBuf.length = sizeofMessage
  size : s.call.loc.size = sizeofMessage
  account : (shown past).flatMap Finished.removed ++ s.removed ++ ring ++ s.call.rx.uart = stream
  reports : ∀ call ∈ shown past, call.Reports
  place : At s.call.loc s.first s.removed ring s.call.pc

theorem Ready.inv {s : Polling} {ring : List UInt8} (h : Ready s ring) :
    Inv (ring ++ s.call.rx.uart) [] s ring where
  holds := h.holds
  room := h.room
  size := h.size
  account := by simp [shown, h.fresh]
  reports := by simp [shown]
  place := by
    rw [h.idle]
    exact h.fresh

section Step
variable {stream : List UInt8} {past : List (Option Finished)} {ring removed : List UInt8}
variable {nvic : Bool} {rx : Rx} {pc : Pc} {loc : Locals} {first : UInt8}

theorem Inv.goto (h : Inv stream past ⟨⟨nvic, rx, pc, loc⟩, first, removed⟩ ring) {nvic' : Bool}
    {pc' : Pc} {loc' : Locals} {first' : UInt8} (hroom : loc'.msgBuf.length = sizeofMessage)
    (hsize : loc'.size = sizeofMessage) (hplace : At loc' first' removed ring pc') :
    Inv stream (past ++ [none]) ⟨⟨nvic', rx, pc', loc'⟩, first', removed⟩ ring where
  holds := h.holds
  room := hroom
  size := hsize
  account := by
    rw [shown_snoc_none]
    exact h.account
  reports := by
    rw [shown_snoc_none]
    exact h.reports
  place := hplace

theorem idle_step (h : Inv stream past ⟨⟨nvic, rx, .idle, loc⟩, first, removed⟩ ring) :
    ∃ s' out ring', mainStep ⟨⟨nvic, rx, .idle, loc⟩, first, removed⟩ = .ok (s', out) ∧
      Inv stream (past ++ [out]) s' ring' := by
  have hremoved : removed = [] := h.place
  subst hremoved
  by_cases hempty : rx.rxIn = rx.rxOut
  · refine ⟨⟨⟨nvic, rx, .idle, loc⟩, first, []⟩, none, ring, ?_, h.goto h.room h.size rfl⟩
    simp only [mainStep, ne_eq, hempty, not_true_eq_false, if_false]
  · cases ring with
    | nil => exact absurd (h.holds.empty_iff.mpr rfl) hempty
    | cons b ring =>
      have hread : readAt rx.rxBuffer rx.rxOut = .ok b := h.holds.read
      refine ⟨⟨⟨nvic, rx, .disable, { loc with ret := false, i := 0, len := 0 }⟩, b, []⟩, none,
        b :: ring, ?_, h.goto h.room h.size ⟨rfl, rfl, rfl⟩⟩
      simp only [mainStep, ne_eq, hempty, not_false_eq_true, if_true, hread, ok_bind]
      rfl

theorem Sized.bounds (h : Sized loc first) : Known first ∧ 2 ≤ loc.len ∧ loc.len ≤ 11 := by
  have hsize := h.size 0
  have hbounds := getMessageSize_bounds hsize
  refine ⟨?_, hbounds⟩
  rcases getMessageSize_cases first with ⟨hknown, -⟩ | ⟨-, hnone⟩
  · exact hknown
  · rw [hnone] at hsize
    cases hsize

theorem loop_step (h : Inv stream past ⟨⟨nvic, rx, .loop, loc⟩, first, removed⟩ ring) :
    ∃ s' out ring', mainStep ⟨⟨nvic, rx, .loop, loc⟩, first, removed⟩ = .ok (s', out) ∧
      Inv stream (past ++ [out]) s' ring' := by
  obtain ⟨hcopied, hsized⟩ : At loc first removed ring .loop := h.place
  have hsize : loc.size = 14 := h.size
  have hcount := hcopied.count
  by_cases hcond : (loc.i = 0 ∨ (loc.i : Int) ≠ loc.len) ∧ (loc.i : Int) < loc.size
  · refine ⟨⟨⟨nvic, rx, .testEmpty, loc⟩, first, removed⟩, none, ring, ?_,
      h.goto h.room h.size ⟨hcopied, ?_⟩⟩
    · simp only [mainStep, Receive.mainStep, if_pos hcond, ok_bind]
      rfl
    · intro hne
      have hpos := List.length_pos_iff.mpr hne
      have hfits := (hsized hne).fits
      exact ⟨hsized hne, by omega⟩
  · have hne : removed ≠ [] := by
      rintro rfl
      rw [List.length_nil] at hcount
      omega
    have hpos := List.length_pos_iff.mpr hne
    obtain ⟨hknown, hlow, hhigh⟩ := (hsized hne).bounds
    have hfits := (hsized hne).fits
    have hlen : loc.len = removed.length := by omega
    have hbegins : removed.head? = some first := by
      have hhead := hcopied.begins
      rwa [List.head?_append_of_ne_nil _ hne] at hhead
    have hmessage : loc.msgBuf.take removed.length = removed := by
      rw [← hcount]
      exact hcopied.copied
    refine ⟨⟨⟨nvic, rx, .leave, loc⟩, first, removed⟩, none, ring, ?_, h.goto h.room h.size
      (.message hknown (hsized hne).ret hlen hmessage hbegins ⟨first, hbegins, ?_⟩)⟩
    · simp only [mainStep, Receive.mainStep, if_neg hcond, ok_bind]
      rfl
    · rw [(hsized hne).size, hlen]

theorem take_step (h : Inv stream past ⟨⟨nvic, rx, .take, loc⟩, first, removed⟩ ring) :
    ∃ s' out ring', mainStep ⟨⟨nvic, rx, .take, loc⟩, first, removed⟩ = .ok (s', out) ∧
      Inv stream (past ++ [out]) s' ring' := by
  obtain ⟨hmore, hne⟩ : At loc first removed ring .take := h.place
  cases ring with
  | nil => exact absurd rfl hne
  | cons c ring =>
    have hread : readAt rx.rxBuffer rx.rxOut = .ok c := h.holds.read
    refine ⟨⟨⟨nvic, rx, .store, { loc with c := c }⟩, first, removed⟩, none, c :: ring, ?_,
      h.goto h.room h.size ⟨⟨⟨hmore.count, hmore.copied, hmore.begins⟩, ?_⟩, rfl⟩⟩
    · simp only [mainStep, Receive.mainStep, hread, ok_bind]
      rfl
    · intro hsome
      obtain ⟨hsized, hlt⟩ := hmore.sized hsome
      exact ⟨⟨hsized.size, hsized.ret, hsized.fits⟩, hlt⟩

/-- The byte behind those that are copied already. -/
theorem Copied.store (h : Copied loc first removed (loc.c :: ring))
    (hroom : loc.i < loc.msgBuf.length) {loc' : Locals}
    (hbuf : loc'.msgBuf = loc.msgBuf.set loc.i loc.c) (hi : loc'.i = loc.i + 1) :
    Copied loc' first (removed ++ [loc.c]) ring where
  count := by rw [hi, h.count, List.length_append, List.length_singleton]
  copied := by rw [hbuf, hi, set_take_succ hroom, h.copied]
  begins := by
    rw [List.append_assoc]
    exact h.begins

/-- The first byte of a message decides whether the call goes on. -/
theorem store_first (h : Inv stream past ⟨⟨nvic, rx, .store, loc⟩, first, []⟩ (loc.c :: ring))
    (hcopied : Copied loc first [] (loc.c :: ring)) :
    ∃ s' out ring', mainStep ⟨⟨nvic, rx, .store, loc⟩, first, []⟩ = .ok (s', out) ∧
      Inv stream (past ++ [out]) s' ring' := by
  have hsize : loc.size = 14 := h.size
  have hi : loc.i = 0 := hcopied.count
  have hroom : loc.i < loc.msgBuf.length := by
    have hlength : loc.msgBuf.length = 14 := h.room
    omega
  have hfirst : loc.c = first := Option.some.inj hcopied.begins
  have hwrite := writeAt_ok hroom loc.c
  rcases getMessageSize_cases loc.c with ⟨hknown, size, hlow, hhigh, hget⟩ | ⟨hunknown, hget⟩
  · let loc' : Locals :=
      { loc with msgBuf := loc.msgBuf.set loc.i loc.c, i := loc.i + 1, len := size, ret := true }
    have hsized : Sized loc' first := {
      size := by rwa [hfirst] at hget
      ret := rfl
      fits := by
        show ((loc.i + 1 : Nat) : Int) ≤ size
        omega }
    refine ⟨⟨⟨nvic, rx, .advance, loc'⟩, first, []⟩, none, loc.c :: ring, ?_,
      h.goto (by rw [List.length_set]; exact h.room) h.size
        ⟨loc.c, ring, rfl, hcopied.store hroom rfl rfl, hsized⟩⟩
    have hfits : size ≤ loc.size := by omega
    simp only [mainStep, Receive.mainStep, if_pos hi, hget, hwrite, ok_bind, hfits, decide_true]
    rfl
  · refine ⟨⟨⟨nvic, rx, .leave, { loc with len := loc.len, ret := false }⟩, first, []⟩, none,
      loc.c :: ring, ?_, h.goto h.room h.size (.unknown (hfirst ▸ hunknown) rfl rfl)⟩
    simp only [mainStep, Receive.mainStep, if_pos hi, hget, ok_bind]
    rfl

theorem store_step (h : Inv stream past ⟨⟨nvic, rx, .store, loc⟩, first, removed⟩ ring) :
    ∃ s' out ring', mainStep ⟨⟨nvic, rx, .store, loc⟩, first, removed⟩ = .ok (s', out) ∧
      Inv stream (past ++ [out]) s' ring' := by
  obtain ⟨hmore, hhead⟩ : At loc first removed ring .store := h.place
  obtain ⟨rest, rfl⟩ := List.head?_eq_some_iff.mp hhead
  by_cases hnil : removed = []
  · subst hnil
    exact store_first h hmore.toCopied
  · obtain ⟨hsized, hlt⟩ := hmore.sized hnil
    obtain ⟨-, -, hhigh⟩ := hsized.bounds
    have hpos := List.length_pos_iff.mpr hnil
    have hcount := hmore.count
    have hroom : loc.i < loc.msgBuf.length := by
      have hlength : loc.msgBuf.length = 14 := h.room
      omega
    have hi : ¬ loc.i = 0 := by omega
    have hwrite := writeAt_ok hroom loc.c
    let loc' : Locals := { loc with msgBuf := loc.msgBuf.set loc.i loc.c, i := loc.i + 1 }
    have hsized' : Sized loc' first := {
      size := hsized.size
      ret := hsized.ret
      fits := by
        show ((loc.i + 1 : Nat) : Int) ≤ loc.len
        omega }
    refine ⟨⟨⟨nvic, rx, .advance, loc'⟩, first, removed⟩, none, loc.c :: rest, ?_,
      h.goto (by rw [List.length_set]; exact h.room) h.size
        ⟨loc.c, rest, rfl, hmore.toCopied.store hroom rfl rfl, hsized'⟩⟩
    simp only [mainStep, Receive.mainStep, if_neg hi, hwrite, ok_bind]
    rfl

theorem advance_step (h : Inv stream past ⟨⟨nvic, rx, .advance, loc⟩, first, removed⟩ ring) :
    ∃ s' out ring', mainStep ⟨⟨nvic, rx, .advance, loc⟩, first, removed⟩ = .ok (s', out) ∧
      Inv stream (past ++ [out]) s' ring' := by
  obtain ⟨c, rest, rfl, hcopied, hsized⟩ : At loc first removed ring .advance := h.place
  have hread : readAt rx.rxBuffer rx.rxOut = .ok c := h.holds.read
  refine ⟨⟨⟨nvic, { rx with rxOut := (rx.rxOut + 1) % bufSize }, .loop, loc⟩, first,
    removed ++ [c]⟩, none, rest, ?_, h.holds.pop, h.room, h.size, ?_, ?_, hcopied,
    fun _ => hsized⟩
  · simp only [mainStep, Receive.mainStep, hread, ok_bind]
    rfl
  · have haccount := h.account
    simp only [shown_snoc_none, List.append_assoc, List.cons_append, List.nil_append] at haccount ⊢
    exact haccount
  · rw [shown_snoc_none]
    exact h.reports

theorem leave_step (h : Inv stream past ⟨⟨nvic, rx, .leave, loc⟩, first, removed⟩ ring) :
    ∃ s' out ring', mainStep ⟨⟨nvic, rx, .leave, loc⟩, first, removed⟩ = .ok (s', out) ∧
      Inv stream (past ++ [out]) s' ring' := by
  have hends : Ends loc first removed := h.place
  refine ⟨⟨⟨true, rx, .idle, loc⟩, first, []⟩, some ⟨⟨loc.ret, loc.msgBuf, loc.len⟩, first, removed⟩,
    ring, rfl, h.holds, h.room, h.size, ?_, ?_, rfl⟩
  · have haccount := h.account
    simp only [shown_snoc_some, List.flatMap_append, List.flatMap_cons, List.flatMap_nil,
      List.append_nil] at haccount ⊢
    exact haccount
  · intro call hcall
    rw [shown_snoc_some, List.mem_append, List.mem_singleton] at hcall
    rcases hcall with hcall | rfl
    · exact h.reports call hcall
    · cases hends with
      | message known ret len copied begins sized =>
        refine .message known ?_ begins sized
        simp only [Return.message, ret, len, Int.toNat_natCast, copied]
      | unknown unknown ret nothing => exact .unknown unknown ret nothing

theorem mainStep_ok {s : Polling} (h : Inv stream past s ring) :
    ∃ s' out ring', mainStep s = .ok (s', out) ∧ Inv stream (past ++ [out]) s' ring' := by
  obtain ⟨⟨nvic, rx, pc, loc⟩, first, removed⟩ := s
  have hempty : rx.rxIn = rx.rxOut ↔ ring = [] := h.holds.empty_iff
  cases pc with
  | idle => exact idle_step h
  | disable =>
    obtain ⟨hnil, hi, hhead⟩ : At loc first removed ring .disable := h.place
    subst hnil
    refine ⟨_, none, ring, rfl, h.goto h.room h.size ⟨⟨hi, by rw [hi]; rfl, hhead⟩, ?_⟩⟩
    exact fun hne => absurd rfl hne
  | loop => exact loop_step h
  | testEmpty =>
    refine ⟨_, none, ring, rfl, h.goto h.room h.size ?_⟩
    split
    · exact h.place
    · rename_i hne
      exact ⟨h.place, fun hnil => hne (hempty.mpr hnil)⟩
  | open_ => exact ⟨_, none, ring, rfl, h.goto h.room h.size h.place⟩
  | wait =>
    refine ⟨_, none, ring, rfl, h.goto h.room h.size ?_⟩
    split
    · exact h.place
    · rename_i hne
      exact ⟨h.place, fun hnil => hne (hempty.mpr hnil)⟩
  | close => exact ⟨_, none, ring, rfl, h.goto h.room h.size h.place⟩
  | take => exact take_step h
  | store => exact store_step h
  | advance => exact advance_step h
  | leave => exact leave_step h

theorem step_ok {s : Polling} (h : Inv stream past s ring) (move : Move) :
    ∃ s' out ring', step s move = .ok (s', out) ∧ Inv stream (past ++ [out]) s' ring' := by
  cases move with
  | main => exact mainStep_ok h
  | rxInterrupt n =>
    obtain ⟨⟨nvic, rx, pc, loc⟩, first, removed⟩ := s
    by_cases hnvic : nvic = true
    · obtain ⟨rx', bytes, hrun, hholds, huart⟩ := rxInterrupt_ok n h.holds
      refine ⟨⟨⟨nvic, rx', pc, loc⟩, first, removed⟩, none, ring ++ bytes, ?_, hholds, h.room,
        h.size, ?_, ?_, h.place.more_bytes bytes⟩
      · simp only [step, Receive.step, if_pos hnvic, hrun, ok_bind]
        rfl
      · have haccount := h.account
        simp only at huart
        simp only [huart, shown_snoc_none, List.append_assoc] at haccount ⊢
        exact haccount
      · rw [shown_snoc_none]
        exact h.reports
    · refine ⟨⟨⟨nvic, rx, pc, loc⟩, first, removed⟩, none, ring, ?_, h.goto h.room h.size h.place⟩
      simp only [step, Receive.step, if_neg hnvic, ok_bind]
      rfl
  | reuse msgBuf =>
    obtain ⟨⟨nvic, rx, pc, loc⟩, first, removed⟩ := s
    by_cases hidle : pc = .idle
    · subst hidle
      exact ⟨_, none, ring, rfl, h.goto List.length_ofFn h.size h.place⟩
    · refine ⟨⟨⟨nvic, rx, pc, loc⟩, first, removed⟩, none, ring, ?_, h.goto h.room h.size h.place⟩
      simp only [step, Receive.step, if_neg hidle, ok_bind]
      rfl

end Step

/-! ## Runs -/

section Runs
variable {s : Polling} {ring : List UInt8}

theorem run_inv (h : Ready s ring) (moves : List Move) :
    ∃ t outs ring', run step s moves = .ok (t, outs) ∧
      Inv (ring ++ s.call.rx.uart) outs t ring' := by
  obtain ⟨t, outs, hrun, ring', hinv⟩ := run_invariant
    (fun past s' => ∃ ring', Inv (ring ++ s.call.rx.uart) past s' ring')
    (fun past s' move hinv => by
      obtain ⟨ring', hinv⟩ := hinv
      obtain ⟨s'', out, ring'', hstep, hnext⟩ := step_ok hinv move
      exact ⟨s'', out, hstep, ring'', hnext⟩) ⟨ring, h.inv⟩ moves
  exact ⟨t, outs, ring', hrun, hinv⟩

theorem Finished.Reports.removed_iff {call : Finished} (h : call.Reports) :
    call.removed ≠ [] ↔ Known call.first := by
  cases h with
  | message known ret begins sized =>
    refine iff_of_true ?_ known
    intro hnil
    rw [hnil] at begins
    cases begins
  | unknown unknown ret nothing => exact iff_of_false (not_not_intro nothing) unknown

/-- A byte for every call at least. -/
theorem length_le_removed {calls : List Finished} (h : ∀ call ∈ calls, call.removed ≠ []) :
    calls.length ≤ (calls.flatMap Finished.removed).length := by
  induction calls with
  | nil => exact Nat.le_refl 0
  | cons call calls ih =>
    have hrest := ih fun c hc => h c (List.mem_cons_of_mem call hc)
    have hpos := List.length_pos_iff.mpr (h call List.mem_cons_self)
    rw [List.flatMap_cons, List.length_append, List.length_cons]
    omega

/-- The first byte that any of the calls removes was at the front of the ring. -/
theorem removed_known {calls : List Finished} (h : ∀ call ∈ calls, call.Reports) {b : UInt8}
    (hhead : (calls.flatMap Finished.removed).head? = some b) : Known b := by
  induction calls with
  | nil => cases hhead
  | cons call calls ih =>
    rw [List.flatMap_cons] at hhead
    cases h call List.mem_cons_self with
    | message known ret begins sized =>
      rw [head?_append_of_some begins] at hhead
      cases hhead
      exact known
    | unknown unknown ret nothing =>
      rw [nothing, List.nil_append] at hhead
      exact ih (fun c hc => h c (List.mem_cons_of_mem call hc)) hhead

/-- Nothing gets past a byte of an unknown type. -/
theorem Inv.stuck {stream : List UInt8} {outs : List (Option Finished)}
    (h : Inv stream outs s ring) {b : UInt8} (hhead : stream.head? = some b) (hb : ¬ Known b) :
    ∀ call ∈ shown outs, call.removed = [] ∧ call.ret.ret = false := by
  have hnone : (shown outs).flatMap Finished.removed = [] := by
    by_contra hsome
    obtain ⟨c, hc⟩ : ∃ c, ((shown outs).flatMap Finished.removed).head? = some c :=
      Option.ne_none_iff_exists'.mp (mt List.head?_eq_none_iff.mp hsome)
    have hfirst := head?_append_of_some hc (s.removed ++ ring ++ s.call.rx.uart)
    rw [← List.append_assoc, ← List.append_assoc, h.account, hhead] at hfirst
    cases hfirst
    exact hb (removed_known h.reports hc)
  intro call hcall
  have hremoved := List.flatMap_eq_nil_iff.mp hnone call hcall
  cases h.reports call hcall with
  | message known ret begins sized =>
    rw [hremoved] at begins
    cases begins
  | unknown unknown ret nothing => exact ⟨nothing, ret⟩

/-! ## One call without an interrupt -/

section Call
variable {nvic : Bool} {rx : Rx} {loc : Locals} {first b c : UInt8} {removed : List UInt8}

theorem enter_call (h : Ready s (b :: ring)) :
    run step s [.main, .main] = .ok (⟨⟨false, s.call.rx, .loop,
      { s.call.loc with ret := false, i := 0, len := 0 }⟩, b, []⟩, [none, none]) := by
  obtain ⟨⟨nvic, rx, pc, loc⟩, first, removed⟩ := s
  obtain rfl : pc = .idle := h.idle
  have hempty : rx.rxIn ≠ rx.rxOut := h.holds.in_ne_out
  have hread : readAt rx.rxBuffer rx.rxOut = .ok b := h.holds.read
  have hidle : step ⟨⟨nvic, rx, .idle, loc⟩, first, removed⟩ .main =
      .ok (⟨⟨nvic, rx, .disable, { loc with ret := false, i := 0, len := 0 }⟩, b, []⟩, none) := by
    simp only [step, mainStep, ne_eq, hempty, not_false_eq_true, if_true, hread, ok_bind]
    rfl
  exact run_cons hidle (run_cons rfl rfl)

theorem fetch_byte (hholds : rx.Holds (c :: ring))
    (hcond : (loc.i = 0 ∨ (loc.i : Int) ≠ loc.len) ∧ (loc.i : Int) < loc.size) :
    run step ⟨⟨nvic, rx, .loop, loc⟩, first, removed⟩ [.main, .main, .main] =
      .ok (⟨⟨nvic, rx, .store, { loc with c := c }⟩, first, removed⟩, [none, none, none]) := by
  have hempty : rx.rxIn ≠ rx.rxOut := hholds.in_ne_out
  have hread : readAt rx.rxBuffer rx.rxOut = .ok c := hholds.read
  have hloop : step ⟨⟨nvic, rx, .loop, loc⟩, first, removed⟩ .main =
      .ok (⟨⟨nvic, rx, .testEmpty, loc⟩, first, removed⟩, none) := by
    simp only [step, mainStep, Receive.mainStep, if_pos hcond, ok_bind]
    rfl
  have htest : step ⟨⟨nvic, rx, .testEmpty, loc⟩, first, removed⟩ .main =
      .ok (⟨⟨nvic, rx, .take, loc⟩, first, removed⟩, none) := by
    simp only [step, mainStep, Receive.mainStep, if_neg hempty, ok_bind]
    rfl
  have htake : step ⟨⟨nvic, rx, .take, loc⟩, first, removed⟩ .main =
      .ok (⟨⟨nvic, rx, .store, { loc with c := c }⟩, first, removed⟩, none) := by
    simp only [step, mainStep, Receive.mainStep, hread, ok_bind]
    rfl
  exact run_cons hloop (run_cons htest (run_cons htake rfl))

theorem Ready.loops (h : Ready s ring) {loc : Locals}
    (hloc : loc = { s.call.loc with ret := false, i := 0, len := 0 }) :
    (loc.i = 0 ∨ (loc.i : Int) ≠ loc.len) ∧ (loc.i : Int) < loc.size := by
  subst hloc
  have hsize : s.call.loc.size = 14 := h.size
  refine ⟨.inl rfl, ?_⟩
  show (0 : Int) < s.call.loc.size
  omega

theorem release_byte (hholds : rx.Holds (c :: ring)) :
    step ⟨⟨nvic, rx, .advance, loc⟩, first, removed⟩ .main =
      .ok (⟨⟨nvic, { rx with rxOut := (rx.rxOut + 1) % bufSize }, .loop, loc⟩, first,
        removed ++ [c]⟩, none) := by
  have hread : readAt rx.rxBuffer rx.rxOut = .ok c := hholds.read
  simp only [step, mainStep, Receive.mainStep, hread, ok_bind]
  rfl

/-- A call that finds an unknown type leaves everything as it was. -/
theorem stuck_call (h : Ready s (b :: ring)) (hb : ¬ Known b) :
    ∃ moves s' outs call, run step s moves = .ok (s', outs) ∧ shown outs = [call] ∧
      call.removed = [] ∧ Ready s' (b :: ring) := by
  have hget : ∀ len, getMessageSize b len = (false, len) := by
    rcases getMessageSize_cases b with ⟨hknown, -⟩ | ⟨-, hget⟩
    · exact absurd hknown hb
    · exact hget
  let loc₁ : Locals := { s.call.loc with ret := false, i := 0, len := 0 }
  let loc₂ : Locals := { loc₁ with c := b }
  have hfetch : run step ⟨⟨false, s.call.rx, .loop, loc₁⟩, b, []⟩ [.main, .main, .main] =
      .ok (⟨⟨false, s.call.rx, .store, loc₂⟩, b, []⟩, [none, none, none]) :=
    fetch_byte h.holds (h.loops rfl)
  have hstore : step ⟨⟨false, s.call.rx, .store, loc₂⟩, b, []⟩ .main =
      .ok (⟨⟨false, s.call.rx, .leave, loc₂⟩, b, []⟩, none) := by
    have hi : loc₂.i = 0 := rfl
    have hc : getMessageSize loc₂.c loc₂.len = (false, loc₂.len) := hget _
    simp only [step, mainStep, Receive.mainStep, if_pos hi, hc, ok_bind]
    rfl
  have hleave : step ⟨⟨false, s.call.rx, .leave, loc₂⟩, b, []⟩ .main =
      .ok (⟨⟨true, s.call.rx, .idle, loc₂⟩, b, []⟩,
        some ⟨⟨false, s.call.loc.msgBuf, 0⟩, b, []⟩) := rfl
  have hready : Ready ⟨⟨true, s.call.rx, .idle, loc₂⟩, b, []⟩ (b :: ring) :=
    ⟨rfl, h.holds, h.room, h.size, rfl⟩
  exact ⟨_, _, _, _, run_append (enter_call h) (run_append hfetch (run_cons hstore
    (run_cons hleave (run_nil _)))), rfl, rfl, hready⟩

/-- A call that has removed the bytes `removed` of a message of a known type and goes on
with the bytes `l`, which are in the ring. -/
structure Midway (rx : Rx) (loc : Locals) (first : UInt8) (removed l ring : List UInt8) : Prop where
  holds : rx.Holds (l ++ ring)
  copied : Copied loc first removed (l ++ ring)
  sized : Sized loc first
  len : loc.len = removed.length + l.length
  room : loc.msgBuf.length = sizeofMessage
  size : loc.size = sizeofMessage
  nonempty : removed ≠ []

theorem Midway.leave (h : Midway rx loc first removed [] ring) :
    ∃ s' outs call, run step ⟨⟨nvic, rx, .loop, loc⟩, first, removed⟩ [.main, .main] =
        .ok (s', outs) ∧ shown outs = [call] ∧
      call.ret.message = (true, removed, (removed.length : Int)) ∧ Ready s' ring := by
  have hcount := h.copied.count
  have hpos := List.length_pos_iff.mpr h.nonempty
  have hlen : loc.len = removed.length := by
    rw [h.len, List.length_nil, Nat.cast_zero, add_zero]
  have hcond : ¬ ((loc.i = 0 ∨ (loc.i : Int) ≠ loc.len) ∧ (loc.i : Int) < loc.size) := by omega
  have hloop : step ⟨⟨nvic, rx, .loop, loc⟩, first, removed⟩ .main =
      .ok (⟨⟨nvic, rx, .leave, loc⟩, first, removed⟩, none) := by
    simp only [step, mainStep, Receive.mainStep, if_neg hcond, ok_bind]
    rfl
  have hleave : step ⟨⟨nvic, rx, .leave, loc⟩, first, removed⟩ .main =
      .ok (⟨⟨true, rx, .idle, loc⟩, first, []⟩,
        some ⟨⟨loc.ret, loc.msgBuf, loc.len⟩, first, removed⟩) := rfl
  have hready : Ready ⟨⟨true, rx, .idle, loc⟩, first, []⟩ ring :=
    ⟨rfl, h.holds, h.room, h.size, rfl⟩
  have hmessage : loc.msgBuf.take removed.length = removed := by
    rw [← hcount]
    exact h.copied.copied
  refine ⟨_, _, _, run_cons hloop (run_cons hleave (run_nil _)), rfl, ?_, hready⟩
  simp only [Return.message, h.sized.ret, hlen, Int.toNat_natCast, hmessage]

/-- One byte more. -/
theorem Midway.next {l : List UInt8} (h : Midway rx loc first removed (c :: l) ring) :
    ∃ moves rx' loc' outs, run step ⟨⟨nvic, rx, .loop, loc⟩, first, removed⟩ moves =
        .ok (⟨⟨nvic, rx', .loop, loc'⟩, first, removed ++ [c]⟩, outs) ∧ shown outs = [] ∧
      Midway rx' loc' first (removed ++ [c]) l ring := by
  have hcount := h.copied.count
  have hpos := List.length_pos_iff.mpr h.nonempty
  obtain ⟨-, -, hhigh⟩ := h.sized.bounds
  have hlen := h.len
  rw [List.length_cons] at hlen
  have hsize : loc.size = 14 := h.size
  have hroom : loc.msgBuf.length = 14 := h.room
  let loc₁ : Locals := { loc with c := c }
  let loc₂ : Locals := { loc₁ with msgBuf := loc.msgBuf.set loc.i c, i := loc.i + 1 }
  have hfetch : run step ⟨⟨nvic, rx, .loop, loc⟩, first, removed⟩ [.main, .main, .main] =
      .ok (⟨⟨nvic, rx, .store, loc₁⟩, first, removed⟩, [none, none, none]) :=
    fetch_byte h.holds ⟨by omega, by omega⟩
  have hi : ¬ loc₁.i = 0 := by
    show ¬ loc.i = 0
    omega
  have hin : loc₁.i < loc₁.msgBuf.length := by
    show loc.i < loc.msgBuf.length
    omega
  have hwrite := writeAt_ok hin loc₁.c
  have hstore : step ⟨⟨nvic, rx, .store, loc₁⟩, first, removed⟩ .main =
      .ok (⟨⟨nvic, rx, .advance, loc₂⟩, first, removed⟩, none) := by
    simp only [step, mainStep, Receive.mainStep, if_neg hi, hwrite, ok_bind]
    rfl
  have hsized : Sized loc₂ first := {
    size := h.sized.size
    ret := h.sized.ret
    fits := by
      show ((loc.i + 1 : Nat) : Int) ≤ loc.len
      omega }
  have hcopied : Copied loc₁ first removed (loc₁.c :: (l ++ ring)) :=
    ⟨hcount, h.copied.copied, h.copied.begins⟩
  refine ⟨_, _, loc₂, _, run_append hfetch (run_cons hstore
    (run_cons (release_byte h.holds) (run_nil _))), rfl, h.holds.pop, hcopied.store hin rfl rfl,
    hsized, ?_, ?_, h.size, by simp⟩
  · rw [List.length_append, List.length_singleton]
    show loc.len = _
    omega
  · rw [List.length_set]
    exact h.room

theorem Midway.finish {l : List UInt8} (h : Midway rx loc first removed l ring) :
    ∃ moves s' outs call, run step ⟨⟨nvic, rx, .loop, loc⟩, first, removed⟩ moves =
        .ok (s', outs) ∧ shown outs = [call] ∧
      call.ret.message = (true, removed ++ l, ((removed ++ l).length : Int)) ∧
      Ready s' ring := by
  induction l generalizing rx loc removed with
  | nil =>
    obtain ⟨s', outs, call, hrun, hshown, hmessage, hready⟩ := h.leave
    rw [← List.append_nil removed] at hmessage
    exact ⟨_, s', outs, call, hrun, hshown, hmessage, hready⟩
  | cons c l ih =>
    obtain ⟨moves, rx', loc', outs, hrun, hnone, hnext⟩ := h.next
    obtain ⟨moves', s', outs', call, hrun', hshown, hmessage, hready⟩ := ih hnext
    rw [List.append_assoc, List.singleton_append] at hmessage
    refine ⟨_, s', _, call, run_append hrun hrun', ?_, hmessage, hready⟩
    rw [shown_append, hnone, hshown, List.nil_append]

/-- The call as far as its first byte. -/
theorem begin_call {l : List UInt8} (h : Ready s (c :: (l ++ ring)))
    (hget : getMessageSize c 0 = (true, ((c :: l).length : Int))) :
    ∃ moves rx loc outs, run step s moves = .ok (⟨⟨false, rx, .loop, loc⟩, c, [c]⟩, outs) ∧
      shown outs = [] ∧ Midway rx loc c [c] l ring := by
  have hbounds := getMessageSize_bounds hget
  have hsize : s.call.loc.size = 14 := h.size
  have hroom : s.call.loc.msgBuf.length = 14 := h.room
  let loc₁ : Locals := { s.call.loc with ret := false, i := 0, len := 0 }
  let loc₂ : Locals := { loc₁ with c := c }
  let loc₃ : Locals := { loc₂ with
    msgBuf := s.call.loc.msgBuf.set 0 c, i := 1, len := ((c :: l).length : Int), ret := true }
  have hfetch : run step ⟨⟨false, s.call.rx, .loop, loc₁⟩, c, []⟩ [.main, .main, .main] =
      .ok (⟨⟨false, s.call.rx, .store, loc₂⟩, c, []⟩, [none, none, none]) :=
    fetch_byte h.holds (h.loops rfl)
  have hin : loc₂.i < loc₂.msgBuf.length := by
    show 0 < s.call.loc.msgBuf.length
    omega
  have hstore : step ⟨⟨false, s.call.rx, .store, loc₂⟩, c, []⟩ .main =
      .ok (⟨⟨false, s.call.rx, .advance, loc₃⟩, c, []⟩, none) := by
    have hi : loc₂.i = 0 := rfl
    have hknown : getMessageSize loc₂.c loc₂.len = (true, ((c :: l).length : Int)) :=
      getMessageSize_known hget _
    have hwrite := writeAt_ok hin loc₂.c
    have hfits : decide (((c :: l).length : Int) ≤ loc₂.size) = true :=
      decide_eq_true (by show _ ≤ s.call.loc.size; omega)
    simp only [step, mainStep, Receive.mainStep, if_pos hi, hknown, hwrite, ok_bind, hfits]
    rfl
  have hnone : Copied loc₂ c [] (loc₂.c :: (l ++ ring)) := ⟨rfl, rfl, rfl⟩
  have hsized : Sized loc₃ c := {
    size := getMessageSize_known hget
    ret := rfl
    fits := by
      show (1 : Int) ≤ ((c :: l).length : Int)
      omega }
  refine ⟨_, _, loc₃, _, run_append (enter_call h) (run_append hfetch (run_cons hstore
    (run_cons (release_byte h.holds) (run_nil _)))), rfl, h.holds.pop, hnone.store hin rfl rfl,
    hsized, ?_, ?_, h.size, by simp⟩
  · show ((c :: l).length : Int) = 1 + l.length
    rw [List.length_cons]
    push_cast
    omega
  · rw [List.length_set]
    exact h.room

/-- A call that finds a whole message returns it. -/
theorem message_call {f : List UInt8} (h : Ready s (f ++ ring)) (hf : WellSized f) :
    ∃ moves s' outs call, run step s moves = .ok (s', outs) ∧ shown outs = [call] ∧
      call.ret.message = (true, f, (f.length : Int)) ∧ Ready s' ring := by
  obtain ⟨c, hhead, hget⟩ := hf
  obtain ⟨l, rfl⟩ := List.head?_eq_some_iff.mp hhead
  obtain ⟨moves, rx, loc, outs, hrun, hnone, hmidway⟩ := begin_call h hget
  obtain ⟨moves', s', outs', call, hrun', hshown, hmessage, hready⟩ := hmidway.finish
  refine ⟨_, s', _, call, run_append hrun hrun', ?_, hmessage, hready⟩
  rw [shown_append, hnone, hshown, List.nil_append]

end Call

theorem stuck_calls {b : UInt8} (h : Ready s (b :: ring)) (hb : ¬ Known b) (n : Nat) :
    ∃ moves t outs, run step s moves = .ok (t, outs) ∧ (shown outs).length = n ∧
      Ready t (b :: ring) := by
  induction n with
  | zero => exact ⟨[], s, [], rfl, rfl, h⟩
  | succ n ih =>
    obtain ⟨moves, t, outs, hrun, hcount, hready⟩ := ih
    obtain ⟨moves', t', outs', call, hrun', hshown, -, hready'⟩ := stuck_call hready hb
    refine ⟨_, t', _, run_append hrun hrun', ?_, hready'⟩
    rw [shown_append, hshown, List.length_append, hcount, List.length_singleton]

/-- In every run the calls that remove a byte are those made at a known type. Calls
made only there are no more than there are bytes, and return what they remove, which is
what came in. A message at the front of the ring is returned by the next call. A byte
of an unknown type stays at the front for all later calls, of which there is no end. -/
theorem calls_progress_iff (h : Ready s ring) (moves : List Move) :
    ∃ t outs, run step s moves = .ok (t, outs) ∧
      ((∀ call ∈ shown outs, call.removed ≠ []) ↔ ∀ call ∈ shown outs, Known call.first) ∧
      ((∀ call ∈ shown outs, Known call.first) →
        (shown outs).length ≤ ring.length + s.call.rx.uart.length ∧
        (shown outs).flatMap Finished.removed <+: ring ++ s.call.rx.uart ∧
        ∀ call ∈ shown outs,
          call.ret.message = (true, call.removed, (call.removed.length : Int)) ∧
            WellSized call.removed) ∧
      (∀ f rest, ring = f ++ rest → WellSized f →
        ∃ moves' t' outs' call, run step s moves' = .ok (t', outs') ∧ shown outs' = [call] ∧
          call.ret.message = (true, f, (f.length : Int)) ∧ Ready t' rest) ∧
      ∀ b rest, ring = b :: rest → ¬ Known b →
        (∀ call ∈ shown outs, call.removed = [] ∧ call.ret.ret = false) ∧
        ∀ n, ∃ moves' t' outs', run step s moves' = .ok (t', outs') ∧
          (shown outs').length = n := by
  obtain ⟨t, outs, ring', hrun, hinv⟩ := run_inv h moves
  have hiff : (∀ call ∈ shown outs, call.removed ≠ []) ↔
      ∀ call ∈ shown outs, Known call.first :=
    forall₂_congr fun call hcall => (hinv.reports call hcall).removed_iff
  refine ⟨t, outs, hrun, hiff, ?_, ?_, ?_⟩
  · intro hknown
    have haccount := hinv.account
    rw [List.append_assoc, List.append_assoc] at haccount
    have hcount := length_le_removed (hiff.mpr hknown)
    refine ⟨?_, ⟨_, haccount⟩, ?_⟩
    · have hlength := congrArg List.length haccount
      simp only [List.length_append] at hlength
      omega
    · intro call hcall
      cases hinv.reports call hcall with
      | message known ret begins sized => exact ⟨ret, sized⟩
      | unknown unknown ret nothing => exact absurd (hknown call hcall) unknown
  · rintro f rest rfl hf
    exact message_call h hf
  · rintro b rest rfl hb
    refine ⟨hinv.stuck rfl hb, ?_⟩
    intro n
    obtain ⟨moves', t', outs', hrun', hcount, -⟩ := stuck_calls h hb n
    exact ⟨moves', t', outs', hrun', hcount⟩

/-- Between two calls, with the one byte `b` in the ring. -/
def withByte (b : UInt8) : Polling where
  call := {
    nvic := true
    rx := ⟨[], (List.replicate bufSize 0).set 0 b, 1, 0⟩
    pc := .idle
    loc := ⟨List.replicate sizeofMessage 0, sizeofMessage, 0, false, 0, 0⟩ }
  first := 0
  removed := []

theorem ready_withByte (b : UInt8) : Ready (withByte b) [b] where
  idle := rfl
  holds := (stored_nil List.length_replicate).push (by decide) b
  room := List.length_replicate
  size := rfl
  fresh := rfl

theorem not_known_letter : ¬ Known 65 := by
  rintro ⟨t, ht⟩
  cases t <;> cases ht

/-- Between two calls, with `MSG_GET_VERSION` in the ring. -/
def withRequest : Polling where
  call := { (withByte 4).call with
    rx := ⟨[], ((List.replicate bufSize 0).set 0 4).set 1 251, 2, 0⟩ }
  first := 0
  removed := []

theorem ready_withRequest : Ready withRequest [4, 251] where
  idle := rfl
  holds := ((stored_nil List.length_replicate).push (by decide) 4).push (by decide) 251
  room := List.length_replicate
  size := rfl
  fresh := rfl

/-- A call returns the request; the letter stays where it is. -/
theorem calls_progress_iff_letter :
    (∃ t outs, run step withRequest (List.replicate 14 .main) = .ok (t, outs) ∧
      (shown outs).map (fun call => (call.first, call.removed, call.ret.message)) =
        [(4, [4, 251], true, [4, 251], 2)] ∧
      Known 4 ∧ ∀ call ∈ shown outs, call.removed ≠ []) ∧
    ¬ Known 65 ∧ ∃ t outs, run step (withByte 65) (List.replicate 7 .main) = .ok (t, outs) ∧
      (∀ call ∈ shown outs, call.removed = [] ∧ call.ret.ret = false) ∧
      ∀ n, ∃ moves' t' outs', run step (withByte 65) moves' = .ok (t', outs') ∧
        (shown outs').length = n := by
  have hreturns : (run step withRequest (List.replicate 14 .main)).map (fun r =>
      (shown r.2).map fun call => (call.first, call.removed, call.ret.message)) =
        .ok [(4, [4, 251], true, [4, 251], 2)] := rfl
  have hknown : Known 4 := ⟨.getVersion, rfl⟩
  obtain ⟨t, outs, hrun, hiff, -⟩ :=
    calls_progress_iff ready_withRequest (List.replicate 14 .main)
  rw [hrun] at hreturns
  have hcalls : (shown outs).map (fun call => (call.first, call.removed, call.ret.message)) =
      [(4, [4, 251], true, [4, 251], 2)] := Except.ok.inj hreturns
  have hfirst : ∀ call ∈ shown outs, Known call.first := by
    intro call hcall
    have hmem := List.mem_map_of_mem (f := fun c => (c.first, c.removed, c.ret.message)) hcall
    rw [hcalls, List.mem_singleton] at hmem
    have hfour : call.first = 4 := congrArg Prod.fst hmem
    rw [hfour]
    exact hknown
  obtain ⟨t', outs', hrun', -, -, -, hstuck⟩ :=
    calls_progress_iff (ready_withByte 65) (List.replicate 7 .main)
  exact ⟨⟨t, outs, hrun, hcalls, hknown, hiff.mpr hfirst⟩, not_known_letter, t', outs', hrun',
    hstuck 65 [] rfl not_known_letter⟩

/-- The letter `A` is no type of the table. -/
theorem letter_stays : ¬ ∀ moves t outs, run step (withByte 65) moves = .ok (t, outs) →
    ∀ call ∈ shown outs, call.removed ≠ [] := by
  obtain ⟨moves, t, outs, call, hrun, hshown, hnothing, -⟩ :=
    stuck_call (ready_withByte 65) not_known_letter
  intro hall
  exact hall moves t outs hrun call (by rw [hshown]; exact List.mem_singleton_self call) hnothing

end Runs

end Prgsem.Firmware.Progress
