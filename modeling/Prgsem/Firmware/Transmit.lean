import Prgsem.Firmware.Buffers
import Prgsem.Firmware.Messages
import Prgsem.Shared.Run

/-!
# The transmit path of the firmware

`send_message` encodes a message, `send_buffer` moves its bytes to the ring
`tx_buffer`, `Tx_interrupt` takes them to the UART one at a time. The interrupt
comes between any two statements while it is enabled both in the NVIC and by
`TXEIE`, the interrupt on an empty transmit register. It switches `TXEIE` off when
it finds the ring empty, also while `send_buffer` waits for space.
-/

namespace Prgsem.Firmware.Transmit

open CMemory Run
set_option autoImplicit false

/-- The bytes put on the UART so far, the bit `TXEIE` and the transmit ring. -/
structure Tx where
  uart : List UInt8
  txeie : Bool
  txBuffer : List UInt8
  txIn : Nat
  txOut : Nat

def txInterrupt (tx : Tx) : Except Fault Tx :=
  if tx.txIn ≠ tx.txOut then do
    let b ← readAt tx.txBuffer tx.txOut
    return { tx with uart := tx.uart ++ [b], txOut := (tx.txOut + 1) % bufSize }
  else
    .ok { tx with txeie := false }

/-- Between two calls at `idle`, else the next statement of `send_buffer`: `open_`
and `close` are the window for the interrupt around the busy wait, `restart` is
the second setting of `TXEIE`. -/
inductive Pc where
  | idle
  | disable
  | enable
  | loop
  | testFull
  | open_
  | wait
  | close
  | store
  | count
  | advance
  | restart
  | leave
  deriving DecidableEq, Repr

/-- The arguments and the local variable of `send_buffer`. -/
structure Locals where
  msg : List UInt8
  size : Nat
  i : Nat

/-- A call of `send_message` with the message and what the buffer holds before. -/
structure Call where
  msg : Message
  buf : Bytes sizeofMessage

/-- `calls` are the calls of `send_message` that `main` still makes. -/
structure State where
  nvic : Bool
  tx : Tx
  pc : Pc
  loc : Locals
  calls : List Call

/-- `send_buffer` never gets a null pointer, so it does not return early. Its
variable `empty` is never read. -/
def mainStep (s : State) : Except Fault (State × Option Bool) :=
  match s.pc with
  | .idle =>
    match s.calls with
    | [] => .ok (s, none)
    | call :: calls => do
      let (ret, buf, len) ← fillMessageBuf call.msg (List.ofFn call.buf) sizeofMessage 0
      if ret then
        return ({ s with pc := .disable, loc := ⟨buf, toSizeT len, 0⟩, calls := calls }, none)
      else
        return ({ s with calls := calls }, some false)
  | .disable => .ok ({ s with nvic := false, pc := .enable }, none)
  | .enable => .ok ({ s with tx := { s.tx with txeie := true }, pc := .loop }, none)
  | .loop =>
    .ok ({ s with pc := if s.loc.i = 0 ∨ s.loc.i < s.loc.size then .testFull else .restart }, none)
  | .testFull =>
    .ok ({ s with pc := if (s.tx.txIn + 1) % bufSize = s.tx.txOut then .open_ else .store }, none)
  | .open_ => .ok ({ s with nvic := true, pc := .wait }, none)
  | .wait =>
    .ok ({ s with pc := if (s.tx.txIn + 1) % bufSize = s.tx.txOut then .wait else .close }, none)
  | .close => .ok ({ s with nvic := false, pc := .store }, none)
  | .store => do
    let b ← readAt s.loc.msg s.loc.i
    let txBuffer ← writeAt s.tx.txBuffer s.tx.txIn b
    return ({ s with tx := { s.tx with txBuffer := txBuffer }, pc := .count }, none)
  | .count => .ok ({ s with loc := { s.loc with i := s.loc.i + 1 }, pc := .advance }, none)
  | .advance =>
    .ok ({ s with tx := { s.tx with txIn := (s.tx.txIn + 1) % bufSize }, pc := .loop }, none)
  | .restart => .ok ({ s with tx := { s.tx with txeie := true }, pc := .leave }, none)
  | .leave => .ok ({ s with nvic := true, pc := .idle }, some true)

inductive Move where
  | main
  | txInterrupt

def step (s : State) : Move → Except Fault (State × Option Bool)
  | .main => mainStep s
  | .txInterrupt =>
    if s.nvic ∧ s.tx.txeie then do
      let tx ← txInterrupt s.tx
      return ({ s with tx := tx }, none)
    else
      .ok (s, none)

/-- Before the first call; `TXEIE`, the array and the local variables hold anything. -/
def init (calls : List Call) (txeie : Bool) (txBuffer : Bytes bufSize) (loc : Locals) :
    State where
  nvic := true
  tx := ⟨[], txeie, List.ofFn txBuffer, 0, 0⟩
  pc := .idle
  loc := loc
  calls := calls

/-- The frame that a call sends, nothing for a message that cannot be encoded. -/
def Call.frame (call : Call) : List UInt8 :=
  match payload call.msg with
  | some p => p.frame
  | none => []

/-- The bytes of the current frame that are not in the ring yet: until `tx_in`
advances, also the one that is copied already. -/
def State.rest (s : State) : List UInt8 :=
  match s.pc with
  | .idle => []
  | .advance => (s.loc.msg.take s.loc.size).drop (s.loc.i - 1)
  | _ => (s.loc.msg.take s.loc.size).drop s.loc.i

/-- The bytes that `send_buffer` is called with. -/
def State.frame (s : State) : List UInt8 := s.loc.msg.take s.loc.size

/-- Of the calls that have begun all but the one under way have returned, `true` when
the message can be encoded, and their frames are on the UART and in the ring. Of the
frame under way `copied` is there, and the rest follows. -/
def Answered (begun : List Call) (ring : List UInt8) (s : State) (answers : List Bool) : Prop :=
  ∃ returned current copied, begun = returned ++ current.toList ∧
    (current = none ↔ s.pc = .idle) ∧
    answers = returned.map (fun call => (payload call.msg).isSome) ∧
    s.tx.uart ++ ring = returned.flatMap Call.frame ++ copied ∧
    copied ++ s.rest = current.toList.flatMap Call.frame

/-! ## The invariant of a call -/

/-- The longest frame; every frame is much shorter than the ring. -/
def maxFrame : Nat := 11

/-- What holds at each statement of `send_buffer`. -/
def At (tx : Tx) (loc : Locals) : Pc → Prop
  | .idle => True
  | .disable | .enable => loc.i = 0
  | .loop => loc.i ≤ loc.size
  | .testFull | .wait => loc.i < loc.size
  | .open_ => loc.i < loc.size ∧ (tx.txIn + 1) % bufSize = tx.txOut
  | .close | .store => loc.i < loc.size ∧ (tx.txIn + 1) % bufSize ≠ tx.txOut
  | .count => loc.i < loc.size ∧ (tx.txIn + 1) % bufSize ≠ tx.txOut ∧
      tx.txBuffer[tx.txIn]? = loc.msg[loc.i]?
  | .advance => 0 < loc.i ∧ loc.i ≤ loc.size ∧ (tx.txIn + 1) % bufSize ≠ tx.txOut ∧
      tx.txBuffer[tx.txIn]? = loc.msg[loc.i - 1]?
  | .restart => loc.i = loc.size
  | .leave => loc.i = loc.size ∧ tx.txeie = true

/-- The statements at which the NVIC lets the interrupt through. -/
def Pc.open : Pc → Bool
  | .idle | .disable | .wait | .close => true
  | _ => false

/-- The statements after the first setting of `TXEIE`. -/
def Pc.copying : Pc → Bool
  | .idle | .disable | .enable => false
  | _ => true

/-- The state with the bytes `ring` in the ring. `TXEIE` goes off in the middle of a
frame only when the ring is empty, and then the rest of the frame cannot fill it. -/
structure Sending (ring : List UInt8) (s : State) : Prop where
  stored : Stored s.tx.txBuffer s.tx.txIn s.tx.txOut ring
  fits : s.pc ≠ .idle → 0 < s.loc.size ∧ s.loc.size ≤ maxFrame ∧ s.loc.size ≤ s.loc.msg.length
  place : At s.tx s.loc s.pc
  masked : s.nvic = s.pc.open
  awake : s.nvic = true → ring ≠ [] → s.tx.txeie = true
  drained : s.pc.copying = true → s.tx.txeie = true ∨ ring.length + s.rest.length ≤ maxFrame

/-- What a step does with the stream: the bytes on the UART, in the ring and in the
rest of the frame stay as they are, but for the frames of the calls that begin. -/
def Continues (ring : List UInt8) (s s' : State) : Prop :=
  ∃ begun ring', s.calls = begun ++ s'.calls ∧ Sending ring' s' ∧
    s'.tx.uart ++ ring' ++ s'.rest = s.tx.uart ++ ring ++ s.rest ++ begun.flatMap Call.frame

theorem rest_length_le (s : State) : s.rest.length ≤ s.loc.size := by
  unfold State.rest
  split <;> simp only [List.length_nil, List.length_drop, List.length_take] <;> omega

section Step
variable {ring : List UInt8} {nvic : Bool} {tx : Tx} {pc : Pc} {loc : Locals} {calls : List Call}

/-- Full at `open_` means more bytes than a frame has, so that `TXEIE` was not cleared. -/
theorem Sending.open_awake {s : State} (h : Sending ring s) (hpc : s.pc = .open_) :
    s.tx.txeie = true := by
  have hplace := h.place
  have hdrained := h.drained
  rw [hpc] at hplace hdrained
  have hfull := h.stored.full_iff.mp hplace.2
  have hmax : maxFrame = 11 := rfl
  have hbuf : bufSize = 255 := rfl
  rcases hdrained rfl with hon | hshort
  · exact hon
  · omega

theorem txInterrupt_ok {s : State} (h : Sending ring s) (hnvic : s.nvic = true)
    (htxeie : s.tx.txeie = true) :
    ∃ tx', txInterrupt s.tx = .ok tx' ∧ Continues ring s { s with tx := tx' } := by
  obtain ⟨nvic, tx, pc, loc, calls⟩ := s
  simp only at hnvic htxeie
  have hopen : pc.open = true := h.masked.symm.trans hnvic
  cases ring with
  | nil =>
    have hempty : tx.txIn = tx.txOut := h.stored.empty_iff.mpr rfl
    refine ⟨{ tx with txeie := false }, ?_, [], [], rfl, ?_, by simp [State.rest]⟩
    · simp only [txInterrupt, hempty, ne_eq, not_true_eq_false, if_false]
    · refine ⟨h.stored, h.fits, ?_, h.masked, fun _ hne => absurd rfl hne, ?_⟩
      · have hplace := h.place
        cases pc with
        | idle => trivial
        | disable => exact hplace
        | wait => exact hplace
        | close => exact hplace
        | _ => cases hopen
      · intro hcopying
        have hidle : pc ≠ .idle := by
          rintro rfl
          cases hcopying
        have hrest := rest_length_le ⟨nvic, { tx with txeie := false }, pc, loc, calls⟩
        have hfits := (h.fits hidle).2.1
        simp only [List.length_nil] at hrest hfits ⊢
        omega
  | cons x ring =>
    have hne : tx.txIn ≠ tx.txOut := h.stored.in_ne_out
    have hread : readAt tx.txBuffer tx.txOut = .ok x := h.stored.read
    have hpop := h.stored.pop
    have hroom : (tx.txIn + 1) % bufSize ≠ (tx.txOut + 1) % bufSize := by
      intro hfull
      have hlen := hpop.full_iff.mp hfull
      have hlt := h.stored.length_lt
      rw [List.length_cons] at hlt
      omega
    refine ⟨{ tx with uart := tx.uart ++ [x], txOut := (tx.txOut + 1) % bufSize }, ?_, [], ring,
      rfl, ?_, by simp [State.rest]⟩
    · simp only [txInterrupt, if_pos hne, hread, ok_bind]
      rfl
    · refine ⟨hpop, h.fits, ?_, h.masked, fun _ _ => htxeie, fun _ => .inl htxeie⟩
      have hplace := h.place
      cases pc with
      | idle => trivial
      | disable => exact hplace
      | wait => exact hplace
      | close => exact ⟨hplace.1, hroom⟩
      | _ => cases hopen

/-- A statement that moves no byte. -/
theorem Sending.goto (h : Sending ring ⟨nvic, tx, pc, loc, calls⟩) (pc' : Pc) (txeie' : Bool)
    (hrest : State.rest ⟨pc'.open, tx, pc', loc, calls⟩ = State.rest ⟨nvic, tx, pc, loc, calls⟩)
    (hidle : pc = .idle → pc' = .idle) (hplace : At { tx with txeie := txeie' } loc pc')
    (hawake : pc'.open = true → ring ≠ [] → txeie' = true)
    (hdrained : pc'.copying = true → txeie' = true ∨ pc.copying = true ∧ txeie' = tx.txeie) :
    Continues ring ⟨nvic, tx, pc, loc, calls⟩
      ⟨pc'.open, { tx with txeie := txeie' }, pc', loc, calls⟩ := by
  have hrest' : State.rest ⟨pc'.open, { tx with txeie := txeie' }, pc', loc, calls⟩ =
      State.rest ⟨nvic, tx, pc, loc, calls⟩ := hrest
  refine ⟨[], ring, rfl, ⟨h.stored, ?_, hplace, rfl, hawake, ?_⟩, ?_⟩
  · exact fun hne => h.fits fun heq => hne (hidle heq)
  · intro hcopying
    rw [hrest']
    rcases hdrained hcopying with hon | ⟨hbefore, hsame⟩
    · exact .inl hon
    · rw [hsame]
      exact h.drained hbefore
  · rw [hrest', List.flatMap_nil, List.append_nil]

/-- A call is refused, or `send_buffer` is called with the frame. -/
theorem mainStep_call (nvic : Bool) (tx : Tx) (loc : Locals) (call : Call) (calls : List Call) :
    (payload call.msg = none ∧ mainStep ⟨nvic, tx, .idle, loc, call :: calls⟩ =
      .ok (⟨nvic, tx, .idle, loc, calls⟩, some false)) ∨
    ∃ p, payload call.msg = some p ∧ mainStep ⟨nvic, tx, .idle, loc, call :: calls⟩ =
      .ok (⟨nvic, tx, .disable, ⟨p.frame ++ (List.ofFn call.buf).drop p.frame.length,
        p.frame.length, 0⟩, calls⟩, none) := by
  cases hp : payload call.msg with
  | none =>
    have hfill := fillMessageBuf_unknown call.msg (List.ofFn call.buf) 0 hp
    refine .inl ⟨rfl, ?_⟩
    simp only [mainStep, hfill, ok_bind]
    rfl
  | some p =>
    have hle := p.length_frame_le
    have hlen : (List.ofFn call.buf).length = 14 := List.length_ofFn
    have hfill := fillMessageBuf_eq call.msg p (List.ofFn call.buf) 0 hp (by omega)
    have hsize : toSizeT (p.frame.length : Int) = p.frame.length := by
      rw [toSizeT, if_pos (Int.natCast_nonneg _), Int.toNat_natCast]
    refine .inr ⟨p, rfl, ?_⟩
    simp only [mainStep, hfill, ok_bind, if_true, hsize]
    rfl

theorem call_ok (h : Sending ring ⟨nvic, tx, .idle, loc, calls⟩) :
    ∃ s' out, mainStep ⟨nvic, tx, .idle, loc, calls⟩ = .ok (s', out) ∧
      Continues ring ⟨nvic, tx, .idle, loc, calls⟩ s' := by
  have hnvic : nvic = true := h.masked
  cases calls with
  | nil => exact ⟨_, none, rfl, [], ring, rfl, h, by simp⟩
  | cons call calls =>
    rcases mainStep_call nvic tx loc call calls with ⟨hp, hstep⟩ | ⟨p, hp, hstep⟩
    · refine ⟨_, _, hstep, [call], ring, rfl, ?_, ?_⟩
      · exact ⟨h.stored, h.fits, trivial, h.masked, h.awake, h.drained⟩
      · simp [Call.frame, hp, State.rest]
    · have hle := p.length_frame_le
      have hpos := p.length_frame
      refine ⟨_, _, hstep, [call], ring, rfl, ?_, ?_⟩
      · refine ⟨h.stored, fun _ => ⟨by simp only; omega, hle, by simp⟩, rfl, hnvic, h.awake, ?_⟩
        exact fun hcopying => by cases hcopying
      · simp [Call.frame, hp, State.rest]

theorem store_ok (h : Sending ring ⟨nvic, tx, .store, loc, calls⟩) :
    ∃ s' out, mainStep ⟨nvic, tx, .store, loc, calls⟩ = .ok (s', out) ∧
      Continues ring ⟨nvic, tx, .store, loc, calls⟩ s' := by
  obtain ⟨hlt, hroom⟩ : At tx loc .store := h.place
  obtain ⟨-, -, hsize⟩ := h.fits (by simp)
  have hi : loc.i < loc.msg.length := Nat.lt_of_lt_of_le hlt hsize
  have hread := readAt_ok hi
  obtain ⟨hwrite, hstored⟩ := h.stored.write loc.msg[loc.i]
  refine ⟨⟨nvic, { tx with txBuffer := tx.txBuffer.set tx.txIn loc.msg[loc.i] }, .count, loc,
    calls⟩, none, ?_, [], ring, rfl, ?_, by simp [State.rest]⟩
  · simp only [mainStep, hread, ok_bind, hwrite]
    rfl
  · refine ⟨hstored, fun _ => h.fits (by simp), ⟨hlt, hroom, ?_⟩, h.masked, h.awake, h.drained⟩
    rw [List.getElem?_set_self h.stored.ring.in_lt, List.getElem?_eq_getElem hi]

theorem advance_ok (h : Sending ring ⟨nvic, tx, .advance, loc, calls⟩) :
    ∃ s' out, mainStep ⟨nvic, tx, .advance, loc, calls⟩ = .ok (s', out) ∧
      Continues ring ⟨nvic, tx, .advance, loc, calls⟩ s' := by
  obtain ⟨hpos, hle, hroom, hslot⟩ : At tx loc .advance := h.place
  have hsize : loc.size ≤ loc.msg.length := (h.fits (by simp)).2.2
  have hi : loc.i - 1 < loc.msg.length := by omega
  have hslot' : tx.txBuffer[tx.txIn]? = some loc.msg[loc.i - 1] :=
    hslot.trans (List.getElem?_eq_getElem hi)
  have hstored := h.stored.advance_in hroom hslot'
  have hrest : (loc.msg.take loc.size).drop (loc.i - 1) =
      loc.msg[loc.i - 1] :: (loc.msg.take loc.size).drop loc.i := by
    have hdrop := List.drop_eq_getElem_cons (l := loc.msg.take loc.size) (i := loc.i - 1)
      (by simp; omega)
    rwa [List.getElem_take, Nat.sub_add_cancel hpos] at hdrop
  refine ⟨_, none, rfl, [], ring ++ [loc.msg[loc.i - 1]], rfl, ?_, ?_⟩
  · refine ⟨hstored, fun _ => h.fits (by simp), hle, h.masked, ?_, ?_⟩
    · intro hnvic
      have hopen : nvic = false := h.masked
      rw [hopen] at hnvic
      cases hnvic
    · intro _
      have hdrained := h.drained rfl
      simp only [State.rest, hrest, List.length_cons, List.length_append,
        List.length_nil] at hdrained ⊢
      rcases hdrained with hon | hshort
      · exact .inl hon
      · exact .inr (by omega)
  · simp only [State.rest, hrest, List.flatMap_nil, List.append_nil, List.append_assoc,
      List.singleton_append]

theorem mainStep_ok {s : State} (h : Sending ring s) :
    ∃ s' out, mainStep s = .ok (s', out) ∧ Continues ring s s' := by
  obtain ⟨nvic, tx, pc, loc, calls⟩ := s
  have hmasked : nvic = pc.open := h.masked
  subst hmasked
  cases pc with
  | idle => exact call_ok h
  | disable =>
    exact ⟨_, none, rfl, h.goto .enable tx.txeie rfl (by simp) h.place (by simp [Pc.open])
      (by simp [Pc.copying])⟩
  | enable =>
    have hzero : loc.i = 0 := h.place
    exact ⟨_, none, rfl, h.goto .loop true rfl (by simp) (by simp [At, hzero]) (fun _ _ => rfl)
      fun _ => .inl rfl⟩
  | loop =>
    have hle : loc.i ≤ loc.size := h.place
    have hpos : 0 < loc.size := (h.fits (by simp)).1
    simp only [mainStep]
    by_cases hmore : loc.i = 0 ∨ loc.i < loc.size
    · have hlt : loc.i < loc.size := by omega
      rw [if_pos hmore]
      exact ⟨_, none, rfl, h.goto .testFull tx.txeie rfl (by simp) hlt (by simp [Pc.open])
        fun _ => .inr ⟨rfl, rfl⟩⟩
    · have heq : loc.i = loc.size := by omega
      rw [if_neg hmore]
      exact ⟨_, none, rfl, h.goto .restart tx.txeie rfl (by simp) heq (by simp [Pc.open])
        fun _ => .inr ⟨rfl, rfl⟩⟩
  | testFull =>
    simp only [mainStep]
    by_cases hfull : (tx.txIn + 1) % bufSize = tx.txOut
    · rw [if_pos hfull]
      exact ⟨_, none, rfl, h.goto .open_ tx.txeie rfl (by simp) ⟨h.place, hfull⟩
        (by simp [Pc.open]) fun _ => .inr ⟨rfl, rfl⟩⟩
    · rw [if_neg hfull]
      exact ⟨_, none, rfl, h.goto .store tx.txeie rfl (by simp) ⟨h.place, hfull⟩
        (by simp [Pc.open]) fun _ => .inr ⟨rfl, rfl⟩⟩
  | open_ =>
    have hawake : tx.txeie = true := h.open_awake rfl
    obtain ⟨hlt, -⟩ : At tx loc .open_ := h.place
    exact ⟨_, none, rfl, h.goto .wait tx.txeie rfl (by simp) hlt (fun _ _ => hawake)
      fun _ => .inl hawake⟩
  | wait =>
    simp only [mainStep]
    by_cases hfull : (tx.txIn + 1) % bufSize = tx.txOut
    · rw [if_pos hfull]
      exact ⟨_, none, rfl, h.goto .wait tx.txeie rfl (by simp) h.place h.awake
        fun _ => .inr ⟨rfl, rfl⟩⟩
    · rw [if_neg hfull]
      exact ⟨_, none, rfl, h.goto .close tx.txeie rfl (by simp) ⟨h.place, hfull⟩ h.awake
        fun _ => .inr ⟨rfl, rfl⟩⟩
  | close =>
    exact ⟨_, none, rfl, h.goto .store tx.txeie rfl (by simp) h.place (by simp [Pc.open])
      fun _ => .inr ⟨rfl, rfl⟩⟩
  | store => exact store_ok h
  | count =>
    obtain ⟨hlt, hroom, hslot⟩ : At tx loc .count := h.place
    refine ⟨_, none, rfl, [], ring, rfl, ?_, by simp [State.rest]⟩
    exact ⟨h.stored, fun _ => h.fits (by simp), ⟨by simp, hlt, hroom, hslot⟩, h.masked, h.awake,
      h.drained⟩
  | advance => exact advance_ok h
  | restart =>
    exact ⟨_, none, rfl, h.goto .leave true rfl (by simp) ⟨h.place, rfl⟩ (fun _ _ => rfl)
      fun _ => .inl rfl⟩
  | leave =>
    obtain ⟨hend, hon⟩ : At tx loc .leave := h.place
    refine ⟨_, some true, rfl, [], ring, rfl, ?_, by simp [State.rest, hend]⟩
    exact ⟨h.stored, fun hne => absurd rfl hne, trivial, rfl, fun _ _ => hon,
      fun hcopying => by cases hcopying⟩

theorem step_ok {s : State} (h : Sending ring s) (move : Move) :
    ∃ s' out, step s move = .ok (s', out) ∧ Continues ring s s' := by
  cases move with
  | main => exact mainStep_ok h
  | txInterrupt =>
    by_cases hon : s.nvic = true ∧ s.tx.txeie = true
    · obtain ⟨tx', hrun, hnext⟩ := txInterrupt_ok h hon.1 hon.2
      refine ⟨{ s with tx := tx' }, none, ?_, hnext⟩
      simp only [step, if_pos hon, hrun, ok_bind]
      rfl
    · exact ⟨s, none, by simp only [step, if_neg hon], [], ring, rfl, h, by simp⟩

end Step

/-! ## The calls that have returned -/

/-- What a step does with the calls, and what it returns. -/
inductive Serves (s s' : State) : Option Bool → Prop where
  | goesOn (hcalls : s'.calls = s.calls) (hpc : s'.pc = .idle ↔ s.pc = .idle)
      (hframe : s'.frame = s.frame) : Serves s s' none
  | begins {call : Call} (hidle : s.pc = .idle) (hcalls : s.calls = call :: s'.calls)
      (hpc : s'.pc ≠ .idle) (hmsg : (payload call.msg).isSome = true)
      (hframe : s'.frame = call.frame) : Serves s s' none
  | refuses {call : Call} (hidle : s.pc = .idle) (hcalls : s.calls = call :: s'.calls)
      (hpc : s'.pc = .idle) (hmsg : payload call.msg = none) : Serves s s' (some false)
  | returns (hbusy : s.pc ≠ .idle) (hcalls : s'.calls = s.calls) (hpc : s'.pc = .idle) :
      Serves s s' (some true)

theorem call_serves {nvic : Bool} {tx : Tx} {loc : Locals} {call : Call} {calls : List Call}
    {s' : State} {out : Option Bool}
    (h : mainStep ⟨nvic, tx, .idle, loc, call :: calls⟩ = .ok (s', out)) :
    Serves ⟨nvic, tx, .idle, loc, call :: calls⟩ s' out := by
  rcases mainStep_call nvic tx loc call calls with ⟨hp, hstep⟩ | ⟨p, hp, hstep⟩
  · rw [hstep] at h
    cases h
    exact .refuses rfl rfl rfl hp
  · rw [hstep] at h
    cases h
    refine .begins rfl rfl (by simp) (by rw [hp]; rfl) ?_
    simp [State.frame, Call.frame, hp]

theorem mainStep_serves {s s' : State} {out : Option Bool} (h : mainStep s = .ok (s', out)) :
    Serves s s' out := by
  obtain ⟨nvic, tx, pc, loc, calls⟩ := s
  cases pc with
  | idle =>
    cases calls with
    | nil =>
      cases h
      exact .goesOn rfl Iff.rfl rfl
    | cons call calls => exact call_serves h
  | loop | testFull | wait =>
    cases h
    refine .goesOn rfl ?_ rfl
    simp only
    split <;> simp
  | store =>
    obtain ⟨b, -, h⟩ := bind_ok_iff.mp h
    obtain ⟨txBuffer, -, h⟩ := bind_ok_iff.mp h
    cases h
    exact .goesOn rfl (by simp) rfl
  | leave =>
    cases h
    exact .returns (by simp) rfl rfl
  | disable | enable | open_ | close | count | advance | restart =>
    cases h
    exact .goesOn rfl (by simp) rfl

theorem step_serves {s s' : State} {move : Move} {out : Option Bool}
    (h : step s move = .ok (s', out)) : Serves s s' out := by
  cases move with
  | main => exact mainStep_serves h
  | txInterrupt =>
    simp only [step] at h
    split at h
    · obtain ⟨tx, -, h⟩ := bind_ok_iff.mp h
      cases h
      exact .goesOn rfl Iff.rfl rfl
    · cases h
      exact .goesOn rfl Iff.rfl rfl

/-- The calls up to now: `returned`, the one under way, and those to come. -/
structure Served (calls : List Call) (past : List (Option Bool)) (s : State)
    (returned : List Call) (current : Option Call) : Prop where
  calls : calls = returned ++ current.toList ++ s.calls
  answers : shown past = returned.map fun call => (payload call.msg).isSome
  idle : current = none ↔ s.pc = .idle
  frame : ∀ call, current = some call → (payload call.msg).isSome = true ∧ s.frame = call.frame

section Served
variable {calls returned : List Call} {past : List (Option Bool)} {s s' : State}
variable {current : Option Call} {out : Option Bool}

theorem Served.step (h : Served calls past s returned current) (hstep : Serves s s' out) :
    ∃ returned' current', Served calls (past ++ [out]) s' returned' current' := by
  have hbefore := h.calls
  cases hstep with
  | goesOn hcalls hpc hframe =>
    refine ⟨returned, current, ?_, ?_, h.idle.trans hpc.symm, ?_⟩
    · rw [hcalls]
      exact hbefore
    · rw [shown_snoc_none]
      exact h.answers
    · rw [hframe]
      exact h.frame
  | @begins call hidle hcalls hpc hmsg hframe =>
    obtain rfl := h.idle.mpr hidle
    refine ⟨returned, some call, ?_, ?_, by simp [hpc], ?_⟩
    · simpa [hcalls] using hbefore
    · rw [shown_snoc_none]
      exact h.answers
    · intro call' hcall
      cases hcall
      exact ⟨hmsg, hframe⟩
  | @refuses call hidle hcalls hpc hmsg =>
    obtain rfl := h.idle.mpr hidle
    refine ⟨returned ++ [call], none, ?_, ?_, by simp [hpc], by simp⟩
    · simpa [hcalls] using hbefore
    · simp [shown_snoc_some, h.answers, hmsg]
  | returns hbusy hcalls hpc =>
    cases current with
    | none => exact absurd (h.idle.mp rfl) hbusy
    | some call =>
      obtain ⟨hmsg, -⟩ := h.frame call rfl
      refine ⟨returned ++ [call], none, ?_, ?_, by simp [hpc], by simp⟩
      · simpa [hcalls] using hbefore
      · simp [shown_snoc_some, h.answers, hmsg]

/-- What is not copied yet is the end of the frame. -/
theorem exists_copied (s : State) : ∃ copied, s.frame = copied ++ s.rest := by
  unfold State.rest State.frame
  split
  · exact ⟨_, (List.append_nil _).symm⟩
  · exact ⟨_, (List.take_append_drop _ _).symm⟩
  · exact ⟨_, (List.take_append_drop _ _).symm⟩

theorem Served.answered (h : Served calls past s returned current) {begun : List Call}
    {ring : List UInt8} (hcalls : calls = begun ++ s.calls)
    (hstream : s.tx.uart ++ ring ++ s.rest = begun.flatMap Call.frame) :
    Answered begun ring s (shown past) := by
  have hbegun : begun = returned ++ current.toList :=
    List.append_cancel_right (hcalls.symm.trans h.calls)
  rw [hbegun, List.flatMap_append] at hstream
  cases current with
  | none =>
    have hrest : s.rest = [] := by rw [State.rest, h.idle.mp rfl]
    rw [hrest, List.append_nil] at hstream
    exact ⟨returned, none, [], hbegun, h.idle, h.answers, hstream, hrest⟩
  | some call =>
    obtain ⟨copied, hcopied⟩ := exists_copied s
    have hframe : copied ++ s.rest = (some call).toList.flatMap Call.frame := by
      rw [← hcopied, (h.frame call rfl).2]
      simp
    rw [← hframe, ← List.append_assoc] at hstream
    exact ⟨returned, some call, copied, hbegun, h.idle, h.answers,
      List.append_cancel_right hstream, hframe⟩

end Served

def Inv (calls : List Call) (s : State) : Prop :=
  ∃ begun ring, calls = begun ++ s.calls ∧ Sending ring s ∧
    s.tx.uart ++ ring ++ s.rest = begun.flatMap Call.frame

theorem inv_init (calls : List Call) (txeie : Bool) (txBuffer : Bytes bufSize) (loc : Locals) :
    Inv calls (init calls txeie txBuffer loc) := by
  have hsize : (List.ofFn txBuffer).length = bufSize := List.length_ofFn
  unfold init
  generalize List.ofFn txBuffer = buffer at hsize ⊢
  refine ⟨[], [], rfl, ⟨stored_nil hsize, ?_, trivial, rfl, ?_, ?_⟩, rfl⟩
  · exact fun hne => absurd rfl hne
  · exact fun _ hne => absurd rfl hne
  · exact fun hcopying => by cases hcopying

theorem Inv.step {calls : List Call} {s : State} (h : Inv calls s) (move : Move) :
    ∃ s' out, step s move = .ok (s', out) ∧ Inv calls s' := by
  obtain ⟨begun, ring, hcalls, hsending, hstream⟩ := h
  obtain ⟨s', out, hstep, begun', ring', hcalls', hsending', hstream'⟩ := step_ok hsending move
  refine ⟨s', out, hstep, begun ++ begun', ring', ?_, hsending', ?_⟩
  · rw [hcalls, hcalls', List.append_assoc]
  · rw [hstream', hstream, List.flatMap_append]

/-- Whatever `main` sends and whenever the interrupt comes, the UART, the ring and the
rest of the current frame make up the frames of the calls that have begun. When
`send_message` returns `true`, the frame is wholly on the UART and in the ring. While
the NVIC lets the interrupt through and the ring is not empty, `TXEIE` is set, and
it is set whenever the wait for space begins. -/
theorem sends_in_order (calls : List Call) (txeie : Bool) (txBuffer : Bytes bufSize)
    (loc : Locals) (moves : List Move) :
    ∃ t outs, run step (init calls txeie txBuffer loc) moves = .ok (t, outs) ∧
      (∃ begun ring, calls = begun ++ t.calls ∧ Stored t.tx.txBuffer t.tx.txIn t.tx.txOut ring ∧
        t.tx.uart ++ ring ++ t.rest = begun.flatMap Call.frame ∧
        Answered begun ring t (shown outs)) ∧
      (t.nvic = true → t.tx.txIn ≠ t.tx.txOut → t.tx.txeie = true) ∧
      (t.pc = .open_ → t.tx.txeie = true) ∧
      (t.pc = .wait → t.nvic = true ∧
        ((t.tx.txIn + 1) % bufSize = t.tx.txOut → t.tx.txeie = true)) := by
  have hstart : Served calls [] (init calls txeie txBuffer loc) [] none :=
    ⟨rfl, rfl, by simp [init], by simp⟩
  obtain ⟨t, outs, hrun, ⟨begun, ring, hcalls, hsending, hstream⟩, returned, current, hserved⟩ :=
    run_invariant
      (fun past s => Inv calls s ∧ ∃ returned current, Served calls past s returned current)
      (by
        rintro past s move ⟨hinv, returned, current, hserved⟩
        obtain ⟨s', out, hstep, hinv'⟩ := hinv.step move
        exact ⟨s', out, hstep, hinv', hserved.step (step_serves hstep)⟩)
      ⟨inv_init calls txeie txBuffer loc, [], none, hstart⟩ moves
  have hawake (hnvic : t.nvic = true) (hne : t.tx.txIn ≠ t.tx.txOut) : t.tx.txeie = true :=
    hsending.awake hnvic fun hnil => hne (hsending.stored.empty_iff.mpr hnil)
  refine ⟨t, outs, hrun, ⟨begun, ring, hcalls, hsending.stored, hstream,
    hserved.answered hcalls hstream⟩, hawake, hsending.open_awake, ?_⟩
  intro hwait
  have hnvic : t.nvic = true := by rw [hsending.masked, hwait]; rfl
  refine ⟨hnvic, fun hfull => hawake hnvic ?_⟩
  intro heq
  rw [hsending.stored.empty_iff.mp heq] at hsending
  have hlen := hsending.stored.full_iff.mp hfull
  simp [bufSize] at hlen

end Prgsem.Firmware.Transmit
