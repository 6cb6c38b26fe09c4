import Prgsem.Firmware.Buffers
import Prgsem.Firmware.Messages
import Prgsem.Shared.Run

/-!
# The receive path of the firmware

`Rx_interrupt` moves bytes from the UART to the ring `rx_buffer`,
`receive_message` takes one message out of it. The interrupt comes between any
two statements of `receive_message` while it is enabled in the NVIC, and takes
any number of the bytes that the UART has by then; a masked interrupt does not
run. Bytes that are not taken stay in the UART.
-/

namespace Prgsem.Firmware.Receive

open CMemory Run
set_option autoImplicit false

/-- The UART, with the bytes still to come out of it, and the receive ring. -/
structure Rx where
  uart : List UInt8
  rxBuffer : List UInt8
  rxIn : Nat
  rxOut : Nat

/-- `Rx_interrupt` when `pc.readable()` finds up to `n` bytes. -/
def rxInterrupt : Nat → Rx → Except Fault Rx
  | 0, rx => .ok rx
  | n + 1, rx =>
    match rx.uart with
    | [] => .ok rx
    | b :: uart =>
      if (rx.rxIn + 1) % bufSize ≠ rx.rxOut then do
        let rxBuffer ← writeAt rx.rxBuffer rx.rxIn b
        rxInterrupt n
          { rx with uart := uart, rxBuffer := rxBuffer, rxIn := (rx.rxIn + 1) % bufSize }
      else
        .ok rx

/-- Between two calls at `idle`, else the next statement of `receive_message`:
`open_` and `close` are the window for the interrupt around the busy wait. -/
inductive Pc where
  | idle
  | disable
  | loop
  | testEmpty
  | open_
  | wait
  | close
  | take
  | store
  | advance
  | leave
  deriving DecidableEq, Repr

/-- The arguments and the local variables of `receive_message`. -/
structure Locals where
  msgBuf : List UInt8
  size : Int
  len : Int
  ret : Bool
  i : Nat
  c : UInt8

structure State where
  nvic : Bool
  rx : Rx
  pc : Pc
  loc : Locals

structure Return where
  ret : Bool
  msgBuf : List UInt8
  len : Int

def mainStep (s : State) : Except Fault (State × Option Return) :=
  match s.pc with
  | .idle =>
    .ok ({ s with pc := .disable, loc := { s.loc with ret := false, i := 0, len := 0 } }, none)
  | .disable => .ok ({ s with nvic := false, pc := .loop }, none)
  | .loop =>
    if (s.loc.i = 0 ∨ (s.loc.i : Int) ≠ s.loc.len) ∧ (s.loc.i : Int) < s.loc.size then
      .ok ({ s with pc := .testEmpty }, none)
    else
      .ok ({ s with pc := .leave }, none)
  | .testEmpty => .ok ({ s with pc := if s.rx.rxIn = s.rx.rxOut then .open_ else .take }, none)
  | .open_ => .ok ({ s with nvic := true, pc := .wait }, none)
  | .wait => .ok ({ s with pc := if s.rx.rxIn = s.rx.rxOut then .wait else .close }, none)
  | .close => .ok ({ s with nvic := false, pc := .take }, none)
  | .take => do
    let c ← readAt s.rx.rxBuffer s.rx.rxOut
    return ({ s with pc := .store, loc := { s.loc with c := c } }, none)
  | .store =>
    if s.loc.i = 0 then
      match getMessageSize s.loc.c s.loc.len with
      | (true, len) => do
        let msgBuf ← writeAt s.loc.msgBuf s.loc.i s.loc.c
        let loc := { s.loc with msgBuf := msgBuf, i := s.loc.i + 1, len := len }
        return ({ s with pc := .advance, loc := { loc with ret := len ≤ s.loc.size } }, none)
      | (false, len) =>
        -- `break` leaves the byte in the ring
        .ok ({ s with pc := .leave, loc := { s.loc with len := len, ret := false } }, none)
    else do
      let msgBuf ← writeAt s.loc.msgBuf s.loc.i s.loc.c
      let loc := { s.loc with msgBuf := msgBuf, i := s.loc.i + 1 }
      return ({ s with pc := .advance, loc := loc }, none)
  | .advance =>
    .ok ({ s with pc := .loop, rx := { s.rx with rxOut := (s.rx.rxOut + 1) % bufSize } }, none)
  | .leave =>
    .ok ({ s with nvic := true, pc := .idle }, some ⟨s.loc.ret, s.loc.msgBuf, s.loc.len⟩)

/-- Between two calls `main` may use `msg_buf` for its answers. -/
inductive Move where
  | main
  | rxInterrupt (n : Nat)
  | reuse (msgBuf : Bytes sizeofMessage)

def step (s : State) : Move → Except Fault (State × Option Return)
  | .main => mainStep s
  | .rxInterrupt n =>
    if s.nvic then do
      let rx ← rxInterrupt n s.rx
      return ({ s with rx := rx }, none)
    else
      .ok (s, none)
  | .reuse msgBuf =>
    if s.pc = .idle then .ok ({ s with loc := { s.loc with msgBuf := List.ofFn msgBuf } }, none)
    else .ok (s, none)

/-- Before the first call, with the bytes `uart` to come; the arrays and the local
variables hold anything. -/
def init (uart : List UInt8) (rxBuffer : Bytes bufSize) (msgBuf : Bytes sizeofMessage)
    (len : Int) (ret : Bool) (i : Nat) (c : UInt8) : State where
  nvic := true
  rx := ⟨uart, List.ofFn rxBuffer, 0, 0⟩
  pc := .idle
  loc := ⟨List.ofFn msgBuf, sizeofMessage, len, ret, i, c⟩

/-- What the caller gets to see: the result, the first `*len` bytes and `*len`. -/
def Return.message (r : Return) : Bool × List UInt8 × Int :=
  (r.ret, r.msgBuf.take r.len.toNat, r.len)

/-- The bytes of the current message that have left the ring. After the store the
byte is in `msg_buf` while its slot is not released yet. -/
def State.taken (s : State) : List UInt8 :=
  match s.pc with
  | .idle => []
  | .advance => s.loc.msgBuf.take (s.loc.i - 1)
  | _ => s.loc.msgBuf.take s.loc.i

/-- A byte string that starts with a type of the table and has exactly its length. -/
def WellSized (f : List UInt8) : Prop :=
  ∃ c, f.head? = some c ∧ getMessageSize c 0 = (true, (f.length : Int))

/-! ## The ring between the interrupt and the call -/

def Rx.Holds (rx : Rx) (l : List UInt8) : Prop := Stored rx.rxBuffer rx.rxIn rx.rxOut l

/-- The interrupt adds the bytes that it takes to the end of the ring. -/
theorem rxInterrupt_ok (n : Nat) {rx : Rx} {ring : List UInt8} (h : rx.Holds ring) :
    ∃ rx' bytes, rxInterrupt n rx = .ok rx' ∧ rx'.Holds (ring ++ bytes) ∧
      rx.uart = bytes ++ rx'.uart := by
  induction n generalizing rx ring with
  | zero => exact ⟨rx, [], rfl, by rwa [List.append_nil], rfl⟩
  | succ n ih =>
    cases huart : rx.uart with
    | nil =>
      exact ⟨rx, [], by simp only [rxInterrupt, huart], by rwa [List.append_nil], huart.symm⟩
    | cons b uart =>
      by_cases hroom : (rx.rxIn + 1) % bufSize = rx.rxOut
      · refine ⟨rx, [], ?_, by rwa [List.append_nil], huart.symm⟩
        simp only [rxInterrupt, huart, hroom, ne_eq, not_true_eq_false, if_false]
      · have hwrite := (h.write b).1
        have hnext : Rx.Holds ⟨uart, rx.rxBuffer.set rx.rxIn b, (rx.rxIn + 1) % bufSize,
            rx.rxOut⟩ (ring ++ [b]) := h.push hroom b
        obtain ⟨rx', bytes, hrest, hholds, hline⟩ := ih hnext
        refine ⟨rx', b :: bytes, ?_, ?_, ?_⟩
        · simp only [rxInterrupt, huart, ne_eq, hroom, not_false_eq_true, if_true, hwrite,
            ok_bind]
          exact hrest
        · rwa [List.append_assoc, List.singleton_append] at hholds
        · rw [List.cons_append, ← hline]

/-! ## One call and the stream of messages -/

theorem getMessageSize_bounds {b : UInt8} {len size : Int}
    (h : getMessageSize b len = (true, size)) : 2 ≤ size ∧ size ≤ 11 := by
  unfold getMessageSize at h
  split at h <;> cases h <;> decide

theorem getMessageSize_known {b : UInt8} {len size : Int}
    (h : getMessageSize b len = (true, size)) (len' : Int) :
    getMessageSize b len' = (true, size) := by
  unfold getMessageSize at h ⊢
  split at h <;> first | exact h | cases h

theorem WellSized.length_bounds {f : List UInt8} (h : WellSized f) :
    2 ≤ f.length ∧ f.length ≤ 11 := by
  obtain ⟨c, -, hsize⟩ := h
  have hbounds := getMessageSize_bounds hsize
  omega

/-- The call has the first `i` bytes of the message `f`, and its length. -/
structure Locals.Has (loc : Locals) (f : List UInt8) : Prop where
  len : loc.len = f.length
  ret : loc.ret = true
  count : loc.i ≤ f.length
  copied : loc.msgBuf.take loc.i = f.take loc.i

/-- The call still needs a byte of the first of the messages `rest`. -/
def Locals.More (loc : Locals) (rest : List (List UInt8)) : Prop :=
  loc.i = 0 ∨ ∃ f rest', rest = f :: rest' ∧ loc.Has f ∧ loc.i < f.length

theorem Locals.More.set_c {loc : Locals} {rest : List (List UInt8)} (h : loc.More rest)
    (c : UInt8) : Locals.More { loc with c := c } rest := by
  rcases h with hzero | ⟨f, rest', hrest, hhas, hlt⟩
  · exact .inl hzero
  · exact .inr ⟨f, rest', hrest, ⟨hhas.len, hhas.ret, hhas.count, hhas.copied⟩, hlt⟩

/-- What holds at each statement, when the messages `rest` are not returned yet and
the ring holds the bytes `ring`. -/
def At (loc : Locals) (rest : List (List UInt8)) (ring : List UInt8) : Pc → Prop
  | .idle => True
  | .disable => loc.i = 0
  | .loop => loc.i = 0 ∨ ∃ f rest', rest = f :: rest' ∧ loc.Has f
  | .testEmpty | .open_ | .wait => loc.More rest
  | .close | .take => loc.More rest ∧ ring ≠ []
  | .store => loc.More rest ∧ ring.head? = some loc.c
  | .advance => ring ≠ [] ∧ 0 < loc.i ∧ ∃ f rest', rest = f :: rest' ∧ loc.Has f
  | .leave => ∃ f rest', rest = f :: rest' ∧ loc.Has f ∧ loc.i = f.length

theorem At.more_bytes {loc : Locals} {rest : List (List UInt8)} {ring : List UInt8} {pc : Pc}
    (h : At loc rest ring pc) (bytes : List UInt8) : At loc rest (ring ++ bytes) pc := by
  cases pc with
  | close => exact ⟨h.1, by simp [h.2]⟩
  | take => exact ⟨h.1, by simp [h.2]⟩
  | store => exact ⟨h.1, by simp [h.2]⟩
  | advance => exact ⟨by simp [h.1], h.2⟩
  | _ => exact h

/-- The state before the messages `rest` are returned, with the bytes `ring` in the ring. -/
structure Reading (rest : List (List UInt8)) (ring : List UInt8) (s : State) : Prop where
  holds : s.rx.Holds ring
  room : s.loc.msgBuf.length = sizeofMessage
  size : s.loc.size = sizeofMessage
  stream : s.taken ++ ring ++ s.rx.uart = rest.flatten
  place : At s.loc rest ring s.pc

/-- What a step leaves of the messages `rest`: all of them, or all but the one it returns. -/
def Continues (rest : List (List UInt8)) (s : State) : Option Return → Prop
  | none => ∃ ring, Reading rest ring s
  | some r => ∃ f rest' ring, rest = f :: rest' ∧ r.message = (true, f, (f.length : Int)) ∧
      Reading rest' ring s

def Inv (frames : List (List UInt8)) (past : List (Option Return)) (s : State) : Prop :=
  ∃ received rest ring, frames = received ++ rest ∧
    (shown past).map Return.message = (received.map fun f => (true, f, (f.length : Int))) ∧
    Reading rest ring s

section Step
variable {rest : List (List UInt8)} {ring : List UInt8}
variable {nvic : Bool} {rx : Rx} {pc : Pc} {loc : Locals}

theorem Reading.goto (h : Reading rest ring ⟨nvic, rx, pc, loc⟩) {nvic' : Bool} {pc' : Pc}
    (htaken : State.taken ⟨nvic', rx, pc', loc⟩ = State.taken ⟨nvic, rx, pc, loc⟩)
    (hplace : At loc rest ring pc') : Continues rest ⟨nvic', rx, pc', loc⟩ none :=
  ⟨ring, h.holds, h.room, h.size, by rw [htaken]; exact h.stream, hplace⟩

theorem loop_ok (h : Reading rest ring ⟨nvic, rx, .loop, loc⟩)
    (hsized : ∀ f ∈ rest, WellSized f) :
    ∃ s' out, mainStep ⟨nvic, rx, .loop, loc⟩ = .ok (s', out) ∧ Continues rest s' out := by
  have hsize : loc.size = 14 := h.size
  have hplace : At loc rest ring .loop := h.place
  by_cases hcond : (loc.i = 0 ∨ (loc.i : Int) ≠ loc.len) ∧ (loc.i : Int) < loc.size
  · refine ⟨⟨nvic, rx, .testEmpty, loc⟩, none, by simp only [mainStep, if_pos hcond],
      h.goto rfl ?_⟩
    rcases hplace with hzero | ⟨f, rest', rfl, hhas⟩
    · exact .inl hzero
    · have hlen := hhas.len
      have hcount := hhas.count
      by_cases hzero : loc.i = 0
      · exact .inl hzero
      · exact .inr ⟨f, rest', rfl, hhas, by omega⟩
  · refine ⟨⟨nvic, rx, .leave, loc⟩, none, by simp only [mainStep, if_neg hcond],
      h.goto rfl ?_⟩
    rcases hplace with hzero | ⟨f, rest', rfl, hhas⟩
    · omega
    · have hlen := hhas.len
      have hcount := hhas.count
      have hbounds := (hsized f List.mem_cons_self).length_bounds
      exact ⟨f, rest', rfl, hhas, by omega⟩

theorem take_ok (h : Reading rest ring ⟨nvic, rx, .take, loc⟩) :
    ∃ s' out, mainStep ⟨nvic, rx, .take, loc⟩ = .ok (s', out) ∧ Continues rest s' out := by
  obtain ⟨hmore, hne⟩ : At loc rest ring .take := h.place
  cases ring with
  | nil => exact absurd rfl hne
  | cons x ring =>
    have hread : readAt rx.rxBuffer rx.rxOut = .ok x := h.holds.read
    refine ⟨⟨nvic, rx, .store, { loc with c := x }⟩, none, ?_, x :: ring, h.holds, h.room,
      h.size, h.stream, hmore.set_c x, rfl⟩
    simp only [mainStep, hread, ok_bind]
    rfl

/-- The byte at the front of the ring is the next one of the first message. -/
theorem take_succ_of_stream {f r q : List UInt8} {j : Nat} {x : UInt8} (hj : j < f.length)
    (h : f.take j ++ x :: r = f ++ q) : f.take (j + 1) = f.take j ++ [x] := by
  have hlen : (f.take j ++ [x]).length = j + 1 := by simp; omega
  calc f.take (j + 1) = (f ++ q).take (j + 1) :=
        (List.take_append_of_le_length (by omega)).symm
    _ = (f.take j ++ [x] ++ r).take (j + 1) := by rw [← h, List.append_assoc]; rfl
    _ = f.take j ++ [x] := List.take_left' hlen

/-- The message that the byte `c` belongs to, and its length once `c` is stored. -/
theorem store_message {c : UInt8} (h : Reading rest (c :: ring) ⟨nvic, rx, .store, loc⟩)
    (hsized : ∀ f ∈ rest, WellSized f) :
    ∃ f rest', rest = f :: rest' ∧ loc.i < f.length ∧
      f.take (loc.i + 1) = loc.msgBuf.take loc.i ++ [c] ∧
      if loc.i = 0 then ∀ len, getMessageSize c len = (true, (f.length : Int))
      else loc.Has f := by
  have hstream : loc.msgBuf.take loc.i ++ c :: ring ++ rx.uart = rest.flatten := h.stream
  have hmore : loc.More rest := h.place.1
  by_cases hzero : loc.i = 0
  · rw [hzero, List.take_zero, List.nil_append, List.cons_append] at hstream
    cases rest with
    | nil => cases hstream
    | cons f rest' =>
      obtain ⟨x, hhead, hsize⟩ := hsized f List.mem_cons_self
      match f, hhead with
      | x :: f, rfl =>
        rw [List.flatten_cons, List.cons_append, List.cons.injEq] at hstream
        obtain ⟨rfl, -⟩ := hstream
        refine ⟨c :: f, rest', rfl, by simp [hzero], by simp [hzero], ?_⟩
        rw [if_pos hzero]
        exact fun len => getMessageSize_known hsize len
  · obtain ⟨f, rest', rfl, hhas, hlt⟩ := hmore.resolve_left hzero
    rw [hhas.copied, List.append_assoc, List.cons_append, List.flatten_cons] at hstream
    refine ⟨f, rest', rfl, hlt, ?_, ?_⟩
    · rw [hhas.copied]
      exact take_succ_of_stream hlt hstream
    · rwa [if_neg hzero]

theorem store_ok {c : UInt8} (h : Reading rest (c :: ring) ⟨nvic, rx, .store, loc⟩)
    (hsized : ∀ f ∈ rest, WellSized f) (hc : loc.c = c) :
    ∃ s' out, mainStep ⟨nvic, rx, .store, loc⟩ = .ok (s', out) ∧ Continues rest s' out := by
  subst hc
  obtain ⟨f, rest', rfl, hlt, hcopied, hcall⟩ := store_message h hsized
  have hbounds := (hsized f List.mem_cons_self).length_bounds
  have hsize : loc.size = 14 := h.size
  have hroom : loc.i < loc.msgBuf.length := by
    have hlength : loc.msgBuf.length = 14 := h.room
    omega
  have hwrite := writeAt_ok hroom loc.c
  have htake := set_take_succ hroom loc.c
  have htaken : (loc.msgBuf.set loc.i loc.c).take (loc.i + 1 - 1) = loc.msgBuf.take loc.i := by
    rw [Nat.add_sub_cancel, List.take_set_of_le (Nat.le_refl _)]
  have hnext : Reading (f :: rest') (loc.c :: ring) ⟨nvic, rx, .advance, { loc with
      msgBuf := loc.msgBuf.set loc.i loc.c, i := loc.i + 1, len := f.length, ret := true }⟩ := by
    refine ⟨h.holds, by rw [List.length_set]; exact h.room, h.size, ?_, by simp, by simp, f, rest',
      rfl, rfl, rfl, hlt, htake.trans hcopied.symm⟩
    simp only [State.taken, htaken]
    exact h.stream
  refine ⟨_, none, ?_, loc.c :: ring, hnext⟩
  split at hcall
  · rename_i hzero
    have hfits : (f.length : Int) ≤ loc.size := by omega
    simp only [mainStep, if_pos hzero, hcall, hwrite, ok_bind, hfits, decide_true]
    rfl
  · rename_i hne
    simp only [mainStep, if_neg hne, hwrite, ok_bind, ← hcall.len, ← hcall.ret]
    rfl

theorem advance_ok (h : Reading rest ring ⟨nvic, rx, .advance, loc⟩) :
    ∃ s' out, mainStep ⟨nvic, rx, .advance, loc⟩ = .ok (s', out) ∧ Continues rest s' out := by
  obtain ⟨hne, hpos, f, rest', rfl, hhas⟩ : At loc rest ring .advance := h.place
  cases ring with
  | nil => exact absurd rfl hne
  | cons x ring =>
    have hstream : loc.msgBuf.take (loc.i - 1) ++ x :: ring ++ rx.uart = f ++ rest'.flatten :=
      h.stream
    have hi : loc.i - 1 + 1 = loc.i := by omega
    have hcount := hhas.count
    have hbefore : loc.msgBuf.take (loc.i - 1) = f.take (loc.i - 1) := by
      have htake := congrArg (List.take (loc.i - 1)) hhas.copied
      simpa [List.take_take, Nat.min_eq_left (Nat.sub_le loc.i 1)] using htake
    have hnext : loc.msgBuf.take loc.i = loc.msgBuf.take (loc.i - 1) ++ [x] := by
      rw [hbefore, List.append_assoc, List.cons_append] at hstream
      have hlast := take_succ_of_stream (by omega) hstream
      rwa [hi, ← hhas.copied, ← hbefore] at hlast
    refine ⟨_, none, rfl, ring, h.holds.pop, h.room, h.size, ?_, .inr ⟨f, rest', rfl, hhas⟩⟩
    simp only [State.taken, hnext, List.append_assoc, List.cons_append,
      List.flatten_cons] at hstream ⊢
    exact hstream

theorem leave_ok (h : Reading rest ring ⟨nvic, rx, .leave, loc⟩) :
    ∃ s' out, mainStep ⟨nvic, rx, .leave, loc⟩ = .ok (s', out) ∧ Continues rest s' out := by
  obtain ⟨f, rest', rfl, hhas, hi⟩ : At loc rest ring .leave := h.place
  have hcopied : loc.msgBuf.take f.length = f := by
    rw [← hi, hhas.copied, hi, List.take_length]
  have hstream : loc.msgBuf.take loc.i ++ ring ++ rx.uart = f ++ rest'.flatten := h.stream
  rw [hi, hcopied, List.append_assoc, List.append_cancel_left_eq] at hstream
  refine ⟨_, some ⟨loc.ret, loc.msgBuf, loc.len⟩, rfl, f, rest', ring, rfl, ?_, h.holds, h.room,
    h.size, hstream, trivial⟩
  simp only [Return.message, hhas.ret, hhas.len, Int.toNat_natCast, hcopied]

theorem mainStep_ok {s : State} (h : Reading rest ring s) (hsized : ∀ f ∈ rest, WellSized f) :
    ∃ s' out, mainStep s = .ok (s', out) ∧ Continues rest s' out := by
  obtain ⟨nvic, rx, pc, loc⟩ := s
  have hempty : rx.rxIn = rx.rxOut ↔ ring = [] := h.holds.empty_iff
  cases pc with
  | idle =>
    exact ⟨_, none, rfl, ring, h.holds, h.room, h.size, h.stream, rfl⟩
  | disable => exact ⟨_, none, rfl, h.goto rfl (.inl h.place)⟩
  | loop => exact loop_ok h hsized
  | testEmpty =>
    refine ⟨_, none, rfl, h.goto (by split <;> rfl) ?_⟩
    split
    · exact h.place
    · rename_i hne
      exact ⟨h.place, fun hnil => hne (hempty.mpr hnil)⟩
  | open_ => exact ⟨_, none, rfl, h.goto rfl h.place⟩
  | wait =>
    refine ⟨_, none, rfl, h.goto (by split <;> rfl) ?_⟩
    split
    · exact h.place
    · rename_i hne
      exact ⟨h.place, fun hnil => hne (hempty.mpr hnil)⟩
  | close => exact ⟨_, none, rfl, h.goto rfl h.place⟩
  | take => exact take_ok h
  | store =>
    obtain ⟨-, hhead⟩ : At loc rest ring .store := h.place
    cases ring with
    | nil => cases hhead
    | cons c ring => exact store_ok h hsized (Option.some.inj hhead).symm
  | advance => exact advance_ok h
  | leave => exact leave_ok h

theorem step_ok {s : State} (h : Reading rest ring s) (hsized : ∀ f ∈ rest, WellSized f)
    (move : Move) : ∃ s' out, step s move = .ok (s', out) ∧ Continues rest s' out := by
  cases move with
  | main => exact mainStep_ok h hsized
  | rxInterrupt n =>
    by_cases hnvic : s.nvic = true
    · obtain ⟨rx', bytes, hrun, hholds, huart⟩ := rxInterrupt_ok n h.holds
      refine ⟨{ s with rx := rx' }, none, ?_, ring ++ bytes, hholds, h.room, h.size, ?_,
        h.place.more_bytes bytes⟩
      · simp only [step, if_pos hnvic, hrun, ok_bind]
        rfl
      · have hstream := h.stream
        rw [huart, ← List.append_assoc, List.append_assoc s.taken] at hstream
        exact hstream
    · exact ⟨s, none, by simp only [step, if_neg hnvic], ring, h⟩
  | reuse msgBuf =>
    obtain ⟨nvic, rx, pc, loc⟩ := s
    by_cases hidle : pc = .idle
    · subst hidle
      exact ⟨_, none, rfl, ring, h.holds, List.length_ofFn, h.size, h.stream, trivial⟩
    · exact ⟨⟨nvic, rx, pc, loc⟩, none, by simp only [step, if_neg hidle], ring, h⟩

end Step

theorem inv_init (frames : List (List UInt8)) (rxBuffer : Bytes bufSize)
    (msgBuf : Bytes sizeofMessage) (len : Int) (ret : Bool) (i : Nat) (c : UInt8) :
    Inv frames [] (init frames.flatten rxBuffer msgBuf len ret i c) := by
  have hsize : (List.ofFn rxBuffer).length = bufSize := List.length_ofFn
  unfold init
  generalize List.ofFn rxBuffer = buffer at hsize ⊢
  exact ⟨[], frames, [], rfl, rfl, stored_nil hsize, List.length_ofFn, rfl, rfl, trivial⟩

theorem Inv.step {frames : List (List UInt8)} (hsized : ∀ f ∈ frames, WellSized f)
    {past : List (Option Return)} {s : State} (h : Inv frames past s) (move : Move) :
    ∃ s' out, step s move = .ok (s', out) ∧ Inv frames (past ++ [out]) s' := by
  obtain ⟨received, rest, ring, rfl, hreturned, hreading⟩ := h
  obtain ⟨s', out, hstep, hnext⟩ :=
    step_ok hreading (fun f hf => hsized f (List.mem_append_right received hf)) move
  refine ⟨s', out, hstep, ?_⟩
  cases out with
  | none =>
    obtain ⟨ring', hreading'⟩ := hnext
    exact ⟨received, rest, ring', rfl, by rwa [shown_snoc_none], hreading'⟩
  | some r =>
    obtain ⟨f, rest', ring', rfl, hmessage, hreading'⟩ := hnext
    refine ⟨received ++ [f], rest', ring', by simp, ?_, hreading'⟩
    rw [shown_snoc_some, List.map_append, List.map_append, hreturned, List.map_singleton,
      List.map_singleton, hmessage]

/-- The calls return the byte strings that come in, one a call and in order,
whatever the interrupt does. In every state reached the indices are in range, and
the bytes on the way stand where they belong: after what was returned come the
bytes of the current call, those of the ring and those still in the UART. -/
theorem receives_in_order (frames : List (List UInt8)) (hsized : ∀ f ∈ frames, WellSized f)
    (rxBuffer : Bytes bufSize) (msgBuf : Bytes sizeofMessage) (len : Int) (ret : Bool) (i : Nat)
    (c : UInt8) (moves : List Move) :
    ∃ t outs, run step (init frames.flatten rxBuffer msgBuf len ret i c) moves = .ok (t, outs) ∧
      t.rx.rxIn < bufSize ∧ t.rx.rxOut < bufSize ∧
      ∃ received rest ring, frames = received ++ rest ∧
        (shown outs).map Return.message = (received.map fun f => (true, f, (f.length : Int))) ∧
        t.rx.Holds ring ∧
        received.flatten ++ t.taken ++ ring ++ t.rx.uart = frames.flatten := by
  obtain ⟨t, outs, hrun, received, rest, ring, rfl, hreturned, hreading⟩ :=
    run_invariant (Inv frames) (fun _ _ move hinv => hinv.step hsized move)
      (inv_init frames rxBuffer msgBuf len ret i c) moves
  refine ⟨t, outs, hrun, hreading.holds.in_lt, hreading.holds.out_lt, received, rest, ring, rfl,
    hreturned, hreading.holds, ?_⟩
  rw [List.flatten_append, ← hreading.stream]
  simp only [List.append_assoc]

/-- `MSG_GET_VERSION` and `MSG_ABORT`, the second while the first is read. -/
def twoMessages : List Move :=
  .rxInterrupt 1 :: List.replicate 11 .main ++ .rxInterrupt 9 :: List.replicate 21 .main

set_option maxRecDepth 2000 in
theorem receives_in_order_two :
    WellSized [4, 251] ∧ WellSized [2, 253] ∧
      ∃ t outs, run step (init [4, 251, 2, 253] (fun _ => 0) (fun _ => 0) 0 false 0 0)
          twoMessages = .ok (t, outs) ∧
        (shown outs).map Return.message = [(true, [4, 251], 2), (true, [2, 253], 2)] ∧
        t.rx.rxIn < bufSize ∧ t.rx.rxOut < bufSize ∧
        ∃ received rest ring, [[4, 251], [2, 253]] = received ++ rest ∧
          (shown outs).map Return.message =
            (received.map fun f => (true, f, (f.length : Int))) ∧
          t.rx.Holds ring ∧
          received.flatten ++ t.taken ++ ring ++ t.rx.uart = [4, 251, 2, 253] := by
  have hfirst : WellSized [4, 251] := ⟨4, rfl, rfl⟩
  have hsecond : WellSized [2, 253] := ⟨2, rfl, rfl⟩
  have hsized : ∀ f ∈ [[4, 251], [2, 253]], WellSized f := by
    intro f hf
    rcases List.mem_cons.mp hf with rfl | hf
    · exact hfirst
    · rw [List.mem_singleton.mp hf]
      exact hsecond
  have hreturns : (run step (init [4, 251, 2, 253] (fun _ => 0) (fun _ => 0) 0 false 0 0)
      twoMessages).map (fun r => (shown r.2).map Return.message) =
        .ok [(true, [4, 251], 2), (true, [2, 253], 2)] := rfl
  obtain ⟨t, outs, hrun, hrest⟩ := receives_in_order [[4, 251], [2, 253]] hsized
    (fun _ => 0) (fun _ => 0) 0 false 0 0 twoMessages
  have hinput : [[4, 251], [2, 253]].flatten = ([4, 251, 2, 253] : List UInt8) := rfl
  rw [hinput] at hrun
  rw [hrun] at hreturns
  exact ⟨hfirst, hsecond, t, outs, hrun, Except.ok.inj hreturns, hrest⟩

end Prgsem.Firmware.Receive
