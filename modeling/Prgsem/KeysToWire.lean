import Prgsem.EventOwnership
import Prgsem.SendMessage

/-!
# From the keys to the wire

Both threads and the port: `keyboard_thread` queues the keys, `main_thread` takes
them one by one, and what it writes is one frame for each command key. The frames
carry their own lengths, so that the byte string can be cut into them again.
-/

namespace Prgsem.KeysToWire

open CMemory Run Ownership
set_option autoImplicit false

/-- `keyboard_thread` handles a key, or `main_thread` runs through the sending half
of its loop body. -/
inductive Move where
  | key (a : Addr) (junk : Option Addr) (c : UInt8)
  | main (env : Env)

/-- What a move shows: the key that was queued, the key that was taken off the
queue, the bytes that reached the port. -/
structure Traffic where
  typed : Option UInt8
  popped : Option UInt8
  bytes : List UInt8

def Traffic.silent : Traffic := ⟨none, none, []⟩

def step (abi : Abi) (q : EventQueue) : Move → Except Fault (EventQueue × Traffic)
  | .key a junk c =>
    if q.quit then .ok (q, .silent)
    else if c = 'q'.toUInt8 then .ok ({ q with quit := true }, .silent)
    else do
      let q ← keyboardPush a junk c q
      return (q, ⟨some c, none, []⟩)
  | .main env =>
    if q.quit then .ok (q, .silent)
    else do
      let (key, q, _) ← takeEvent q
      let sent ← handleEvent abi { env with key := key }
      return (q, ⟨none, key, (sent.map Transmission.bytes).getD []⟩)

/-- The buffer that is given to `send_message` can hold the frame of the command
that is handled, if one is, and `write` accepts all of it. -/
def Delivers (abi : Abi) (q : EventQueue) (env : Env) : Prop :=
  ∀ key q' log msg, takeEvent q = .ok (some key, q', log) →
    command abi key env.sendMsg = some msg →
    (getMessageSize msg.type 0).2 ≤ env.sendLen ∧ (getMessageSize msg.type 0).2 ≤ env.written

def Legal (abi : Abi) (q : EventQueue) : Move → Prop
  | .key a _ c => q.heap a = none ∧ c ≠ 'q'.toUInt8
  | .main env => Delivers abi q env

def Room (q : EventQueue) : Move → Prop
  | .key _ _ _ => q.size < intMax
  | .main _ => True

def typedKeys (moves : List Move) : List UInt8 :=
  moves.filterMap fun
    | .key _ _ c => some c
    | .main _ => none

def poppedKeys (traffic : List Traffic) : List UInt8 := traffic.filterMap Traffic.popped

def wireBytes (traffic : List Traffic) : List UInt8 := traffic.flatMap Traffic.bytes

/-! ## Frames -/

def commandKeys : List Char := ['g', 's', 'l', 'a', 'r', '1']

def isCommand (c : UInt8) : Bool := Char.ofNat c.toNat ∈ commandKeys

/-- The frame that `fill_message_buf` makes of the message that the `switch` sets
for the key `c` in `msg`. -/
def keyFrame (abi : Abi) (msg : Message) (c : UInt8) : List UInt8 :=
  ((command abi c msg).bind (frameOf abi)).getD []

/-- Cuts a byte string into frames by the sizes of their types and parses each. -/
def parseFrames (abi : Abi) (target : Message) : Nat → List UInt8 → Option (List Message)
  | _, [] => some []
  | 0, _ :: _ => none
  | fuel + 1, b :: bytes =>
    match getMessageSize b 0 with
    | (false, _) => none
    | (true, len) =>
      match parseMessageBuf abi ((b :: bytes).take len.toNat) len target with
      | .ok (true, msg) =>
        (parseFrames abi target fuel ((b :: bytes).drop len.toNat)).map (msg :: ·)
      | _ => none

theorem isCommand_eq (c : UInt8) : isCommand c = (commandPayload c).isSome := by
  unfold isCommand commandPayload commandKeys
  generalize Char.ofNat c.toNat = k
  split <;> simp_all

theorem keyFrame_eq (abi : Abi) (msg : Message) (c : UInt8) :
    keyFrame abi msg c = ((commandPayload c).map Payload.frame).getD [] := by
  rcases command_cases abi c msg with ⟨hp, hm⟩ | ⟨p, m, hp, hm, hpayload⟩
  · rw [keyFrame, hm, hp]
    rfl
  · rw [keyFrame, hm, hp, Option.bind_some, frameOf_eq, hpayload]

theorem keyFrames_eq (abi : Abi) (msg : Message) (keys : List UInt8) :
    (keys.filter isCommand).flatMap (keyFrame abi msg) =
      (keys.filterMap commandPayload).flatMap Payload.frame := by
  induction keys with
  | nil => rfl
  | cons c keys ih =>
    cases hc : commandPayload c with
    | none =>
      rw [List.filter_cons_of_neg (by simp [isCommand_eq, hc]), List.filterMap_cons_none hc, ih]
    | some p =>
      rw [List.filter_cons_of_pos (by simp [isCommand_eq, hc]), List.filterMap_cons_some hc,
        List.flatMap_cons, List.flatMap_cons, ih, keyFrame_eq, hc]
      rfl

theorem parseFrames_frames (abi : Abi) (target : Message) (ps : List Payload) {fuel : Nat}
    (hfuel : (ps.flatMap Payload.frame).length ≤ fuel) :
    parseFrames abi target fuel (ps.flatMap Payload.frame) =
      some (ps.map fun p => { target with type := p.type.toByte, data := p.store abi target.data }) := by
  induction ps generalizing fuel with
  | nil => cases fuel <;> rfl
  | cons p ps ih =>
    rw [List.flatMap_cons, List.length_append, Payload.length_frame] at hfuel
    obtain ⟨fuel, rfl⟩ : ∃ n, fuel = n + 1 := ⟨fuel - 1, by omega⟩
    have hsize := p.getMessageSize_type 0
    have hparse := parseMessageBuf_frame abi p [] target
    rw [List.append_nil] at hparse
    have hcons : p.frame ++ ps.flatMap Payload.frame =
        p.type.toByte :: (p.body ++ [255 - p.content.sum] ++ ps.flatMap Payload.frame) := rfl
    have hrest := ih (show (ps.flatMap Payload.frame).length ≤ fuel by omega)
    rw [List.flatMap_cons, List.map_cons, hcons, parseFrames, ← hcons]
    simp only [hsize, Int.toNat_natCast, List.take_left, hparse, List.drop_left, hrest,
      Option.map_some]

/-- A message that has the type and the payload fields that the `switch` sets for `c`. -/
def SetBy (abi : Abi) (msg : Message) (c : UInt8) (m : Message) : Prop :=
  ∃ set p, command abi c msg = some set ∧ m.type = set.type ∧ m.payload abi = some p ∧
    set.payload abi = some p

theorem setBy_frames (abi : Abi) (msg target : Message) (keys : List UInt8) :
    List.Forall₂ (SetBy abi msg) (keys.filter isCommand)
      ((keys.filterMap commandPayload).map fun p =>
        { target with type := p.type.toByte, data := p.store abi target.data }) := by
  induction keys with
  | nil => exact .nil
  | cons c keys ih =>
    rcases command_cases abi c msg with ⟨hp, -⟩ | ⟨p, m, hp, hm, hpayload⟩
    · rwa [List.filter_cons_of_neg (by simp [isCommand_eq, hp]), List.filterMap_cons_none hp]
    · rw [List.filter_cons_of_pos (by simp [isCommand_eq, hp]), List.filterMap_cons_some hp,
        List.map_cons]
      exact .cons ⟨m, p, hm, (type_of_payload hpayload).symm, p.payload_store abi _ _, hpayload⟩ ih

/-! ## Runs -/

/-- What was typed is what was handled followed by what is still queued, and the
port has got the frames of the commands handled. -/
structure Inv (moves : List Move) (past : List Traffic) (q : EventQueue) (l : List Item) :
    Prop where
  represents : Represents q l
  keyboard : ∀ x ∈ l, x.content.type = .keyboard
  typed : typedKeys moves = poppedKeys past ++ l.map fun x => x.content.param
  sent : wireBytes past = ((poppedKeys past).filterMap commandPayload).flatMap Payload.frame
  running : q.quit = false

theorem inv_start (heap : Heap) : Inv [] [] (.empty heap) [] :=
  ⟨represents_empty heap, by simp, rfl, rfl, rfl⟩

section Step
variable {abi : Abi} {moves : List Move} {past : List Traffic} {q : EventQueue} {l : List Item}

theorem Inv.key (h : Inv moves past q l) {a : Addr} {c : UInt8} (junk : Option Addr)
    (hlegal : Legal abi q (.key a junk c)) (hroom : q.size < intMax) :
    ∃ q', step abi q (.key a junk c) = .ok (q', ⟨some c, none, []⟩) ∧
      Inv (moves ++ [.key a junk c]) (past ++ [⟨some c, none, []⟩]) q'
        (l ++ [⟨a, keyContent c⟩]) := by
  obtain ⟨hfree, hc⟩ := hlegal
  obtain ⟨q', hpush, hrep, hquit, -⟩ := h.represents.keyboardPush junk c hroom hfree
  refine ⟨q', ?_, hrep, ?_, ?_, ?_, hquit.trans h.running⟩
  · simp only [step, h.running, Bool.false_eq_true, if_false, if_neg hc, hpush, ok_bind]
    rfl
  · intro x hx
    rcases List.mem_append.mp hx with hx | hx
    · exact h.keyboard x hx
    · cases List.mem_singleton.mp hx
      rfl
  · have htyped := h.typed
    simp only [typedKeys, poppedKeys] at htyped ⊢
    simp [htyped, keyContent]
  · have hsent := h.sent
    simp only [wireBytes, poppedKeys] at hsent ⊢
    simp [hsent]

theorem handleEvent_idle (abi : Abi) (env : Env) :
    handleEvent abi { env with key := none } = .ok none := rfl

/-- The bytes of one command, or none for another key. -/
theorem handleEvent_bytes (abi : Abi) {env : Env} {c : UInt8}
    (h : ∀ msg, command abi c env.sendMsg = some msg →
      (getMessageSize msg.type 0).2 ≤ env.sendLen ∧
        (getMessageSize msg.type 0).2 ≤ env.written) :
    ∃ sent, handleEvent abi { env with key := some c } = .ok sent ∧
      (sent.map Transmission.bytes).getD [] =
        ((commandPayload c).map Payload.frame).getD [] := by
  rcases command_cases abi c env.sendMsg with ⟨hp, -⟩ | ⟨p, m, hp, hm, hpayload⟩
  · have hfits : SendFits { env with key := some c } := by
      intro c' p' hkey hp'
      cases hkey
      rw [hp] at hp'
      cases hp'
    refine ⟨_, handleEvent_ok abi hfits, ?_⟩
    rw [Option.bind_some, hp]
    rfl
  · obtain ⟨hlen, hwritten⟩ := h m hm
    rw [type_of_payload hpayload, p.getMessageSize_type] at hlen hwritten
    have hfits : SendFits { env with key := some c } := by
      intro c' p' hkey hp'
      cases hkey
      rw [hp] at hp'
      cases hp'
      exact hlen
    refine ⟨_, handleEvent_ok abi hfits, ?_⟩
    rw [Option.bind_some, hp]
    exact List.take_of_length_le (by simp only at hwritten ⊢; omega)

theorem Inv.main (h : Inv moves past q l) {env : Env} (hlegal : Legal abi q (.main env)) :
    ∃ q' traffic l', step abi q (.main env) = .ok (q', traffic) ∧
      Inv (moves ++ [.main env]) (past ++ [traffic]) q' l' := by
  have htyped := h.typed
  have hsent := h.sent
  simp only [typedKeys, poppedKeys, wireBytes] at htyped hsent
  cases l with
  | nil =>
    refine ⟨q, .silent, [], ?_, h.represents, h.keyboard, ?_, ?_, h.running⟩
    · simp only [step, h.running, Bool.false_eq_true, if_false, takeEvent_nil h.represents,
        ok_bind, handleEvent_idle]
      rfl
    · simp only [typedKeys, poppedKeys]
      simp [htyped, Traffic.silent]
    · simp only [wireBytes, poppedKeys]
      simp [hsent, Traffic.silent]
  | cons x l =>
    obtain ⟨q', log, htake, hrep, hquit⟩ :=
      takeEvent_cons h.represents (h.keyboard x List.mem_cons_self)
    obtain ⟨sent, hevent, hbytes⟩ := handleEvent_bytes abi
      fun msg hmsg => hlegal _ q' log msg htake hmsg
    refine ⟨q', ⟨none, some x.content.param, (sent.map Transmission.bytes).getD []⟩, l, ?_, hrep,
      fun y hy => h.keyboard y (List.mem_cons_of_mem x hy), ?_, ?_, hquit.trans h.running⟩
    · simp only [step, h.running, Bool.false_eq_true, if_false, htake, ok_bind, hevent]
      rfl
    · simp only [typedKeys, poppedKeys]
      simp [htyped]
    · simp only [wireBytes, poppedKeys]
      simp only [List.flatMap_append, hsent, List.filterMap_append, List.flatMap_cons,
        List.flatMap_nil, List.append_nil, hbytes]
      cases hc : commandPayload x.content.param <;> simp [hc]

theorem Inv.step (h : Inv moves past q l) {m : Move} (hlegal : Legal abi q m) (hroom : Room q m) :
    ∃ q' traffic l', KeysToWire.step abi q m = .ok (q', traffic) ∧
      Inv (moves ++ [m]) (past ++ [traffic]) q' l' := by
  cases m with
  | key a junk c =>
    obtain ⟨q', hstep, hinv⟩ := h.key junk hlegal hroom
    exact ⟨q', _, _, hstep, hinv⟩
  | main env => exact h.main hlegal

end Step

/-- The keys that were handled are the first of those that were typed. The port has
got one frame for each command among them, and the frames can be told apart and
decoded again. -/
theorem keys_to_wire (abi : Abi) (heap : Heap) (moves : List Move)
    (h : Along (step abi) (fun q m => Legal abi q m ∧ Room q m) (.empty heap) moves)
    (msg target : Message) :
    ∃ q traffic keys, run (step abi) (.empty heap) moves = .ok (q, traffic) ∧
      keys = (typedKeys moves).take (poppedKeys traffic).length ∧
      poppedKeys traffic = keys ∧
      wireBytes traffic = (keys.filter isCommand).flatMap (keyFrame abi msg) ∧
      ∃ msgs, parseFrames abi target (wireBytes traffic).length (wireBytes traffic) = some msgs ∧
        List.Forall₂ (SetBy abi msg) (keys.filter isCommand) msgs := by
  obtain ⟨q, traffic, hrun, l, hinv⟩ := run_total_history
    (fun moves past q => ∃ l, Inv moves past q l) (by
      rintro moves past q m ⟨l, hinv⟩ ⟨hlegal, hroom⟩
      obtain ⟨q', traffic, l', hstep, hinv'⟩ := hinv.step hlegal hroom
      exact ⟨q', traffic, hstep, l', hinv'⟩)
    [] ⟨[], inv_start heap⟩ h
  rw [List.nil_append, List.nil_append] at hinv
  refine ⟨q, traffic, poppedKeys traffic, hrun, ?_, rfl, ?_, _, ?_,
    setBy_frames abi msg target (poppedKeys traffic)⟩
  · rw [hinv.typed, List.take_left]
  · rw [hinv.sent, keyFrames_eq]
  · rw [hinv.sent]
    exact parseFrames_frames abi target _ (Nat.le_refl _)

theorem keys_to_wire_abort :
    ∃ q traffic keys, run (step .sysV) (.empty fun _ => none)
        [.key 0 none 108, .key 1 none 120, .main { Env.zero with sendLen := 2, written := 2 },
          .main Env.zero] = .ok (q, traffic) ∧
      keys = [108, 120] ∧
      poppedKeys traffic = keys ∧
      wireBytes traffic = (keys.filter isCommand).flatMap (keyFrame .sysV Env.zero.sendMsg) ∧
      ∃ msgs, parseFrames .sysV Env.zero.recvMsg (wireBytes traffic).length (wireBytes traffic) =
          some msgs ∧
        List.Forall₂ (SetBy .sysV Env.zero.sendMsg) (keys.filter isCommand) msgs := by
  have halong : Along (step .sysV) (fun q m => Legal .sysV q m ∧ Room q m) (.empty fun _ => none)
      [.key 0 none 108, .key 1 none 120, .main { Env.zero with sendLen := 2, written := 2 },
        .main Env.zero] := by
    refine along_cons ⟨⟨rfl, by decide⟩, (by decide : (0 : Int) < intMax)⟩ rfl ?_
    refine along_cons ⟨⟨rfl, by decide⟩, (by decide : (1 : Int) < intMax)⟩ rfl ?_
    refine along_cons ⟨?_, trivial⟩ rfl (along_cons ⟨?_, trivial⟩ rfl trivial)
    · intro key q' log msg htake hmsg
      cases htake
      cases hmsg
      exact ⟨by decide, by decide⟩
    · intro key q' log msg htake hmsg
      cases htake
      cases hmsg
  obtain ⟨q, traffic, keys, hrun, hkeys, hpopped, hrest⟩ :=
    keys_to_wire .sysV _ _ halong Env.zero.sendMsg Env.zero.recvMsg
  refine ⟨q, traffic, keys, hrun, ?_, hpopped, hrest⟩
  cases hrun
  exact hkeys

/-! ## The limit of the counter -/

theorem typesKeys (abi : Abi) {c : UInt8} (hc : c ≠ 'q'.toUInt8) :
    TypesKeys (step abi) (Legal abi) id (fun a => .key a none c) c where
  legal_key := fun _ _ hfree => ⟨hfree, hc⟩
  push := by
    intro q a q' hquit hpush
    refine ⟨q', ⟨some c, none, []⟩, ?_, rfl⟩
    simp only [id_eq] at hquit hpush
    simp only [step, hquit, Bool.false_eq_true, if_false, if_neg hc, hpush, ok_bind]
    rfl
  fault := by
    intro q a e hquit hpush
    simp only [id_eq] at hquit hpush
    simp only [step, hquit, Bool.false_eq_true, if_false, if_neg hc, hpush, error_bind]

theorem run_keys_overflow (abi : Abi) {c : UInt8} (hc : c ≠ 'q'.toUInt8) {n : Nat}
    (hn : (n : Int) = intMax) (rest : List Move) :
    Along (step abi) (Legal abi) (.empty fun _ => none)
      ((List.range (n + 1)).map (fun a => .key a none c) ++ rest) ∧
    run (step abi) (.empty fun _ => none)
      ((List.range (n + 1)).map (fun a => .key a none c) ++ rest) = .error .overflow := by
  obtain ⟨halong, hrun⟩ := (typesKeys abi hc).run_overflow
    (s := .empty fun _ => none) rfl hn
  exact ⟨along_append_of_error halong hrun, run_error_append hrun⟩

/-- `INT_MAX + 1` times the key `g` before `main_thread` gets to the first: `size`
overflows, and no frame is written for it. -/
theorem keys_overflow_size :
    Along (step .sysV) (Legal .sysV) (.empty fun _ => none)
      ((List.range (intMax.toNat + 1)).map (fun a => .key a none 103) ++
        [.main { Env.zero with sendLen := 2, written := 2 }]) ∧
    run (step .sysV) (.empty fun _ => none)
      ((List.range (intMax.toNat + 1)).map (fun a => .key a none 103) ++
        [.main { Env.zero with sendLen := 2, written := 2 }]) = .error .overflow :=
  run_keys_overflow .sysV (by decide) rfl _

end Prgsem.KeysToWire
