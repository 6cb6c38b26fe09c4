import Prgsem.KeysToWire
import Prgsem.StreamFraming

/-!
# The application

Both threads, the port and the final `queue_cleanup` in one machine. What the port
delivers, what the uninitialised locals hold, how much `write` takes and the order of
the steps come from outside. A round of `main_thread` is three steps: the loop
condition, the event with its command, and the frame that is read.

The operations on the queue are whole here and never overlap: what `main_thread` does
from `event_queue.size > 0` to its `free` is one step, which stands for the single
steps of the interleaved model with no push between them. `queue_pop` takes no lock, so
that the code allows a push there, too. Such runs are none of this machine; the
interleaved model shows what they can break.
-/

namespace Prgsem.Application

open CMemory Run
set_option autoImplicit false

/-- `main_thread` is behind its dealings with the queue, about to read the port, where
`receiving`. -/
structure State where
  sys : Ownership.System
  receiving : Bool
  main : MainState

/-- A whole step of a thread, or of the port: `outcomes` are what its reads will return
next. -/
inductive Move where
  | opened (fd : Int)
  | key (a : Addr) (junk : Option Addr) (c : UInt8)
  | arrive (outcomes : List ReadOutcome)
  | main (env : Env)
  | cleanup

structure Shown where
  typed : Option UInt8 := none
  popped : Option UInt8 := none
  sent : Option Transmission := none
  arrived : List ReadOutcome := []
  pass : Option Pass := none
  log : List Ownership.Alloc := []

/-- A step that touches the queue alone. -/
def queueStep (s : State) (m : Ownership.Move) (typed : Option UInt8) :
    Except Fault (State × Shown) := do
  let (sys, log) ← Ownership.step s.sys m
  return ({ s with sys := sys }, { typed := typed, log := log })

/-- The event is taken, read and freed in one step, and no push comes in between. -/
def step (abi : Abi) (s : State) : Move → Except Fault (State × Shown)
  | .opened fd => queueStep s (.opened fd) none
  | .key a junk c =>
    queueStep s (.key a junk c) (if s.sys.q.quit ∨ c = 'q'.toUInt8 then none else some c)
  | .arrive outcomes =>
    .ok ({ s with main := { s.main with input := s.main.input ++ outcomes } },
      { arrived := outcomes })
  | .main env =>
    if s.receiving then do
      let (main, pass) ← receive abi env s.main
      return ({ s with receiving := false, main := main }, { pass := pass })
    else if s.sys.phase = .body then do
      let (key, q, log) ← Ownership.takeEvent s.sys.q
      let sent ← handleEvent abi { env with key := key }
      return ({ s with sys := ⟨q, .test⟩, receiving := true },
        { popped := key, sent := sent, log := log })
    else
      queueStep s .main none
  | .cleanup => queueStep s .cleanup none

def start (heap : Heap) (results : Matrix sizeX sizeY) : State :=
  ⟨Ownership.start heap, false, results, []⟩

/-- `malloc` returns the address of no event that is allocated. -/
def Fresh (s : State) : Move → Prop
  | .key a _ c => Ownership.Pushes s.sys c → s.sys.q.heap a = none
  | _ => True

/-- What the C standard leaves undefined of a whole step: the overflow of `size`, a frame longer
than the uninitialised length of its buffer, and an unknown type with an uninitialised length
that is none for a buffer or too long for `usleep`. -/
def Undefined (s : State) : Move → Prop
  | .key _ _ c => s.sys.q.quit = false ∧ c ≠ 'q'.toUInt8 ∧ s.sys.q.size = intMax
  | .main env =>
    if s.receiving then
      ∃ b rest, firstByte env.type s.main.input = some (b, rest) ∧
        (∀ t : MessageType, b ≠ t.toByte) ∧ (env.len ≤ 0 ∨ intMax < (env.len + 25) * 200)
    else
      s.sys.phase = .body ∧ ∃ key q log, Ownership.takeEvent s.sys.q = .ok (some key, q, log) ∧
        ¬ SendFits { env with key := some key }
  | _ => False

def typedKeys (shown : List Shown) : List UInt8 := shown.filterMap Shown.typed

def poppedKeys (shown : List Shown) : List UInt8 := shown.filterMap Shown.popped

def offered (shown : List Shown) : List UInt8 :=
  shown.flatMap fun x => (x.sent.map Transmission.offered).getD []

def arrived (shown : List Shown) : List ReadOutcome := shown.flatMap Shown.arrived

def passes (shown : List Shown) : List Pass := shown.filterMap Shown.pass

def allocs (shown : List Shown) : List Ownership.Alloc := shown.flatMap Shown.log

/-- The device sends whole messages. -/
def Framed (abi : Abi) (shown : List Shown) : Prop :=
  ∀ x ∈ shown, ∃ msgs : List Payload, x.arrived = wire abi (msgs.map .message)

/-- The messages of the device have been handled one by one up to those not read yet. -/
def Follows (abi : Abi) (results : Matrix sizeX sizeY) (shown : List Shown) (main : MainState) :
    Prop :=
  ∃ handled rest : List Payload, arrived shown = wire abi ((handled ++ rest).map .message) ∧
    main.input = wire abi (rest.map .message) ∧
    List.Forall₂ (Handled abi) (handled.map .message) (passes shown) ∧
    main.results = handled.foldl record results

/-- An unknown type with a stale length is all that `receive` can fail on. -/
theorem receive_error_iff (abi : Abi) (env : Env) (s : MainState) :
    (∃ e, receive abi env s = .error e) ↔ ∃ b rest, firstByte env.type s.input = some (b, rest) ∧
      (∀ t : MessageType, b ≠ t.toByte) ∧ (env.len ≤ 0 ∨ intMax < (env.len + 25) * 200) := by
  cases hfirst : firstByte env.type s.input with
  | none => simp [receive_idle abi hfirst]
  | some start =>
    obtain ⟨b, rest⟩ := start
    constructor
    · intro h
      obtain ⟨e, he⟩ := h
      by_cases hgood : 0 < env.lenFor b ∧ (env.lenFor b + 25) * 200 ≤ intMax
      · obtain ⟨pass, results, heq, -⟩ := receive_pass abi hfirst hgood.1 hgood.2 rfl
        rw [heq] at he
        cases he
      · have hunknown : ∀ t : MessageType, b ≠ t.toByte := by
          intro t ht
          apply hgood
          have hlen : env.lenFor b = t.bodyLength + 2 := by
            rw [Env.lenFor, ht, MessageType.getMessageSize_toByte]
            rfl
          have hbound : t.bodyLength ≤ 33 := by cases t <;> decide
          have hmax : intMax = 2147483647 := rfl
          omega
        have hlen : env.lenFor b = env.len := by rw [Env.lenFor, getMessageSize_unknown hunknown]
        rw [hlen] at hgood
        exact ⟨b, rest, rfl, hunknown, by omega⟩
    · intro h
      obtain ⟨b', rest', hsame, hunknown, hbad⟩ := h
      cases hsame
      have hlen : env.lenFor b = env.len := by rw [Env.lenFor, getMessageSize_unknown hunknown]
      by_cases hpos : 0 < env.lenFor b
      · exact ⟨_, receive_overflow abi hfirst hpos (by omega)⟩
      · exact ⟨_, receive_badLength abi hfirst (Int.not_lt.mp hpos)⟩

theorem wire_append (abi : Abi) (pieces pieces' : List Piece) :
    wire abi (pieces ++ pieces') = wire abi pieces ++ wire abi pieces' := by
  simp [wire]

theorem wire_message (abi : Abi) (p : Payload) (msgs : List Payload) :
    wire abi ((p :: msgs).map .message) = p.frame.map .byte ++ wire abi (msgs.map .message) := by
  rw [List.map_cons, wire_cons, Piece.bytes, encode_eq]

section Snoc
variable (past : List Shown) (x : Shown)

theorem typedKeys_snoc : typedKeys (past ++ [x]) = typedKeys past ++ x.typed.toList := by
  cases h : x.typed <;> simp [typedKeys, h]

theorem poppedKeys_snoc : poppedKeys (past ++ [x]) = poppedKeys past ++ x.popped.toList := by
  cases h : x.popped <;> simp [poppedKeys, h]

theorem offered_snoc : offered (past ++ [x]) =
    offered past ++ (x.sent.map Transmission.offered).getD [] := by
  simp [offered]

theorem arrived_snoc : arrived (past ++ [x]) = arrived past ++ x.arrived := by
  simp [arrived]

theorem passes_snoc : passes (past ++ [x]) = passes past ++ x.pass.toList := by
  cases h : x.pass <;> simp [passes, h]

theorem allocs_snoc : allocs (past ++ [x]) = allocs past ++ x.log := by
  simp [allocs]

theorem framed_snoc_iff {abi : Abi} : Framed abi (past ++ [x]) ↔
    Framed abi past ∧ ∃ msgs : List Payload, x.arrived = wire abi (msgs.map .message) := by
  simp only [Framed, List.forall_mem_append, List.mem_singleton, forall_eq]

end Snoc

/-! ## The invariant -/

structure Inv (abi : Abi) (heap : Heap) (results : Matrix sizeX sizeY) (past : List Shown)
    (s : State) (dropped : List UInt8) (l : List Item) : Prop where
  owned : Ownership.Inv heap (allocs past) s.sys l
  keyboard : ∀ x ∈ l, x.content.type = .keyboard
  bound : (l.length : Int) ≤ intMax
  keys : typedKeys past = poppedKeys past ++ dropped ++ l.map fun x => x.content.param
  ended : dropped ≠ [] → s.sys.phase = .ended ∨ s.sys.phase = .cleaned
  commands : offered past = ((poppedKeys past).filterMap commandPayload).flatMap Payload.frame
  messages : Framed abi past → Follows abi results past s.main
  receiving : s.receiving = true → s.sys.phase = .test

/-- A step fails exactly where its behaviour is undefined, and otherwise keeps the invariant. -/
def Behaves (abi : Abi) (heap : Heap) (results : Matrix sizeX sizeY) (past : List Shown)
    (s : State) (m : Move) : Prop :=
  (Undefined s m ∧ ∃ e, step abi s m = .error e) ∨
  ¬ Undefined s m ∧ ∃ s' x dropped l, step abi s m = .ok (s', x) ∧
    Inv abi heap results (past ++ [x]) s' dropped l

section Steps
variable {abi : Abi} {heap : Heap} {results : Matrix sizeX sizeY} {past : List Shown} {s : State}
  {dropped : List UInt8} {l : List Item}

theorem inv_start (abi : Abi) (heap : Heap) (results : Matrix sizeX sizeY) :
    Inv abi heap results [] (start heap results) [] [] where
  owned := Ownership.inv_start heap
  keyboard := by simp
  bound := by decide
  keys := rfl
  ended := by simp
  commands := rfl
  messages := fun _ => ⟨[], [], rfl, rfl, .nil, rfl⟩
  receiving := by simp [start]

/-- A step that neither delivers nor reads anything. -/
theorem Follows.silent {main : MainState} {x : Shown} (h : Follows abi results past main)
    (harrived : x.arrived = []) (hpass : x.pass = none) :
    Follows abi results (past ++ [x]) main := by
  obtain ⟨handled, rest, hall, hinput, hpasses, hresults⟩ := h
  refine ⟨handled, rest, ?_, hinput, ?_, hresults⟩
  · rw [arrived_snoc, harrived, List.append_nil]
    exact hall
  · rw [passes_snoc, hpass, Option.toList_none, List.append_nil]
    exact hpasses

/-- A step that shows at most a key and what it did to the heap. -/
theorem Inv.sys (h : Inv abi heap results past s dropped l) (sys : Ownership.System)
    (typed : Option UInt8) (log : List Ownership.Alloc) {dropped' : List UInt8} {l' : List Item}
    (howned : Ownership.Inv heap (allocs past ++ log) sys l')
    (hkeyboard : ∀ x ∈ l', x.content.type = .keyboard) (hbound : (l'.length : Int) ≤ intMax)
    (hkeys : typedKeys past ++ typed.toList =
      poppedKeys past ++ dropped' ++ l'.map fun x => x.content.param)
    (hended : dropped' ≠ [] → sys.phase = .ended ∨ sys.phase = .cleaned)
    (hreceiving : s.receiving = true → sys.phase = .test) :
    Inv abi heap results (past ++ [{ typed := typed, log := log }]) { s with sys := sys } dropped'
      l' where
  owned := by
    rw [allocs_snoc]
    exact howned
  keyboard := hkeyboard
  bound := hbound
  keys := by
    rw [typedKeys_snoc, poppedKeys_snoc, Option.toList_none, List.append_nil]
    exact hkeys
  ended := hended
  commands := by
    rw [offered_snoc, poppedKeys_snoc, Option.toList_none, List.append_nil]
    exact (List.append_nil _).trans h.commands
  messages := fun hframed => (h.messages ((framed_snoc_iff _ _).mp hframed).1).silent rfl rfl
  receiving := hreceiving

/-- A step of the port or of `receive`. -/
theorem Inv.port (h : Inv abi heap results past s dropped l) (outcomes : List ReadOutcome)
    (pass : Option Pass) {receiving : Bool} {main : MainState}
    (hmessages : Framed abi (past ++ [{ arrived := outcomes, pass := pass }]) →
      Follows abi results (past ++ [{ arrived := outcomes, pass := pass }]) main)
    (hreceiving : receiving = true → s.sys.phase = .test) :
    Inv abi heap results (past ++ [{ arrived := outcomes, pass := pass }])
      { s with receiving := receiving, main := main } dropped l where
  owned := by
    rw [allocs_snoc, List.append_nil]
    exact h.owned
  keyboard := h.keyboard
  bound := h.bound
  keys := by
    rw [typedKeys_snoc, poppedKeys_snoc, Option.toList_none, List.append_nil, List.append_nil]
    exact h.keys
  ended := h.ended
  commands := by
    rw [offered_snoc, poppedKeys_snoc, Option.toList_none, List.append_nil]
    exact (List.append_nil _).trans h.commands
  messages := hmessages
  receiving := hreceiving

/-- A step to another phase. -/
theorem Inv.phase (h : Inv abi heap results past s dropped l) {phase : Ownership.Phase}
    (hcleaned : phase = .cleaned → s.sys.q.quit = true ∧ l = [])
    (hended : dropped ≠ [] → phase = .ended ∨ phase = .cleaned)
    (hreceiving : s.receiving = true → phase = .test) :
    Inv abi heap results (past ++ [{ typed := none, log := [] }])
      { s with sys := ⟨s.sys.q, phase⟩ } dropped l := by
  refine h.sys ⟨s.sys.q, phase⟩ none [] ?_ h.keyboard h.bound ?_ hended hreceiving
  · rw [List.append_nil]
    exact h.owned.idle hcleaned
  · rw [Option.toList_none, List.append_nil]
    exact h.keys

theorem Inv.still (h : Inv abi heap results past s dropped l) :
    Inv abi heap results (past ++ [{ typed := none, log := [] }]) s dropped l :=
  h.phase h.owned.quit h.ended h.receiving

theorem queueStep_eq {m : Ownership.Move} {sys : Ownership.System} {log : List Ownership.Alloc}
    (h : Ownership.step s.sys m = .ok (sys, log)) (typed : Option UInt8) :
    queueStep s m typed = .ok ({ s with sys := sys }, { typed := typed, log := log }) := by
  simp only [queueStep, h, ok_bind]
  rfl

theorem Inv.opened (h : Inv abi heap results past s dropped l) (fd : Int) :
    Behaves abi heap results past s (.opened fd) := by
  obtain ⟨⟨q, phase⟩, receiving, main⟩ := s
  refine .inr ⟨id, ?_⟩
  cases phase with
  | opening =>
    refine ⟨_, _, dropped, l, queueStep_eq rfl none, h.phase ?_ ?_ ?_⟩
    · intro hcleaned
      split at hcleaned <;> cases hcleaned
    · intro hdropped
      rcases h.ended hdropped with hphase | hphase <;> cases hphase
    · intro hreceiving
      cases h.receiving hreceiving
  | test | body | ended | cleaned => exact ⟨_, _, dropped, l, queueStep_eq rfl none, h.still⟩

theorem Inv.arrive (h : Inv abi heap results past s dropped l) (outcomes : List ReadOutcome) :
    Behaves abi heap results past s (.arrive outcomes) := by
  refine .inr ⟨id, _, _, dropped, l, rfl, h.port outcomes none ?_ h.receiving⟩
  intro hframed
  obtain ⟨hbefore, msgs, hmsgs⟩ := (framed_snoc_iff _ _).mp hframed
  obtain ⟨handled, rest, harrived, hinput, hpasses, hresults⟩ := h.messages hbefore
  simp only at hmsgs
  refine ⟨handled, rest ++ msgs, ?_, ?_, ?_, hresults⟩
  · rw [arrived_snoc, harrived, hmsgs, ← wire_append, ← List.map_append, List.append_assoc]
  · rw [List.map_append, wire_append, ← hmsgs, hinput]
  · rw [passes_snoc, Option.toList_none, List.append_nil]
    exact hpasses

/-- A key overflows `size`, or it is queued, ends the program or comes too late. -/
theorem Inv.key (h : Inv abi heap results past s dropped l) {a : Addr} (junk : Option Addr)
    (c : UInt8) (hfresh : Ownership.Pushes s.sys c → s.sys.q.heap a = none) :
    Behaves abi heap results past s (.key a junk c) := by
  have hcount := h.owned.represents.count
  have hbound := h.bound
  by_cases hquit : s.sys.q.quit = true
  · refine .inr ⟨fun hundef => ?_, s, _, dropped, l, ?_, h.still⟩
    · have hrunning := hundef.1
      rw [hquit] at hrunning
      cases hrunning
    · have hstep : Ownership.step s.sys (.key a junk c) = .ok (s.sys, []) := by
        simp only [Ownership.step, if_pos hquit]
      simp only [step, hquit, true_or, if_true]
      exact queueStep_eq hstep none
  · by_cases hc : c = 'q'.toUInt8
    · have hstep : Ownership.step s.sys (.key a junk c) =
          .ok ({ s.sys with q := { s.sys.q with quit := true } }, []) := by
        simp only [Ownership.step, if_neg hquit, if_pos hc]
      refine .inr ⟨fun hundef => hundef.2.1 hc, _, _, dropped, l, ?_,
        h.sys { s.sys with q := { s.sys.q with quit := true } } none [] ?_ h.keyboard h.bound ?_
          h.ended h.receiving⟩
      · simp only [step, hc, or_true, if_true]
        rw [← hc]
        exact queueStep_eq hstep none
      · rw [List.append_nil]
        exact ⟨h.owned.represents.withQuit true, h.owned.sound, h.owned.balance, h.owned.fresh,
          h.owned.rest, fun hcleaned => ⟨rfl, (h.owned.quit hcleaned).2⟩⟩
      · rw [Option.toList_none, List.append_nil]
        exact h.keys
    · have hrunning : s.sys.q.quit = false := by simpa using hquit
      have hfree := hfresh ⟨hrunning, hc⟩
      by_cases hroom : s.sys.q.size < intMax
      · obtain ⟨q', hpush, howned⟩ := h.owned.push hrunning junk c hfree hroom
        have hstep : Ownership.step s.sys (.key a junk c) =
            .ok ({ s.sys with q := q' }, [.malloc a]) := by
          simp only [Ownership.step, if_neg hquit, if_neg hc, hpush, ok_bind]
          rfl
        refine .inr ⟨fun hundef => ?_, _, _, dropped, l ++ [⟨a, keyContent c⟩], ?_,
          h.sys { s.sys with q := q' } (some c) [.malloc a] howned ?_ ?_ ?_ h.ended h.receiving⟩
        · have hfull := hundef.2.2
          omega
        · have hnot : ¬ (s.sys.q.quit = true ∨ c = 'q'.toUInt8) := not_or_intro hquit hc
          simp only [step, if_neg hnot]
          exact queueStep_eq hstep (some c)
        · rw [List.forall_mem_append]
          exact ⟨h.keyboard, by simp [keyContent]⟩
        · rw [List.length_append, List.length_singleton]
          omega
        · rw [h.keys]
          simp [keyContent]
      · have hfull : s.sys.q.size = intMax := by omega
        have hne : l ≠ [] := by
          intro hnil
          rw [hnil, List.length_nil] at hcount
          rw [hcount] at hfull
          cases hfull
        refine .inl ⟨⟨hrunning, hc, hfull⟩, .overflow, ?_⟩
        have hpush := keyboardPush_overflow junk c h.owned.represents.toLinked hne hfull hfree
        simp only [step, queueStep, Ownership.step, if_neg hquit, if_neg hc, hpush, error_bind]

/-- A round of `queue_cleanup` drops the oldest key. -/
theorem Inv.cleanup (h : Inv abi heap results past s dropped l) :
    Behaves abi heap results past s .cleanup := by
  obtain ⟨⟨q, phase⟩, receiving, main⟩ := s
  refine .inr ⟨id, ?_⟩
  by_cases hjoined : phase = .ended ∧ q.quit = true
  · obtain ⟨rfl, hquit⟩ := hjoined
    have hnot : receiving ≠ true := fun hreceiving => by cases h.receiving hreceiving
    cases l with
    | nil =>
      have hsize : ¬ 0 < q.size := fun hpos => h.owned.represents.size_pos_iff.mp hpos rfl
      have hstep : Ownership.step ⟨q, .ended⟩ .cleanup = .ok (⟨q, .cleaned⟩, []) := by
        simp only [Ownership.step, hquit, and_self, if_true, if_neg hsize]
      exact ⟨_, _, dropped, [], queueStep_eq hstep none, h.phase (fun _ => ⟨hquit, rfl⟩)
        (fun _ => .inr rfl) fun hreceiving => absurd hreceiving hnot⟩
    | cons y l =>
      have hsize : 0 < q.size := h.owned.represents.size_pos_iff.mpr (List.cons_ne_nil y l)
      obtain ⟨q', -, heap', hpop, -, hfree, howned⟩ := h.owned.pop_free
      have hstep : Ownership.step ⟨q, .ended⟩ .cleanup =
          .ok (⟨{ q' with heap := heap' }, .ended⟩, [.free (some y.addr) q']) := by
        simp only [Ownership.step, hquit, and_self, if_true, if_pos hsize, hpop, ok_bind, hfree]
        rfl
      refine ⟨_, _, dropped ++ [y.content.param], l, queueStep_eq hstep none,
        h.sys ⟨{ q' with heap := heap' }, .ended⟩ none [.free (some y.addr) q']
          (howned .ended (by decide)) ?_ ?_ ?_ (fun _ => .inl rfl)
          fun hreceiving => absurd hreceiving hnot⟩
      · exact fun x hx => h.keyboard x (List.mem_cons_of_mem y hx)
      · have hbound := h.bound
        rw [List.length_cons] at hbound
        omega
      · rw [h.keys, Option.toList_none, List.append_nil, List.map_cons, List.append_assoc,
          List.append_assoc, List.append_assoc, List.singleton_append]
  · have hstep : Ownership.step ⟨q, phase⟩ .cleanup = .ok (⟨q, phase⟩, []) := by
      simp only [Ownership.step, if_neg hjoined]
    exact ⟨_, _, dropped, l, queueStep_eq hstep none, h.still⟩

/-- The event that `main_thread` takes, and what is left. -/
theorem Inv.take {y : Item} (h : Inv abi heap results past s dropped (y :: l)) :
    ∃ q' log, Ownership.takeEvent s.sys.q = .ok (some y.content.param, q', log) ∧
      Ownership.Inv heap (allocs past ++ log) ⟨q', .test⟩ l := by
  have hsize : 0 < s.sys.q.size := h.owned.represents.size_pos_iff.mpr (List.cons_ne_nil y l)
  obtain ⟨hstart, first, hfirst, hcontent, -⟩ := h.owned.represents.uncons
  obtain ⟨q', e, hpop, -, -, -, -, he, hparam, hfree, -⟩ := h.owned.represents.pop_free
  obtain ⟨q'', e', heap', hpop', he', hfree', howned⟩ := h.owned.pop_free
  rw [hpop] at hpop'
  cases hpop'
  rw [hfree] at hfree'
  cases hfree'
  have htype : first.type = .keyboard :=
    (congrArg Content.type hcontent).trans (h.keyboard y List.mem_cons_self)
  have hkey : e.param = y.content.param := congrArg Content.param hparam
  refine ⟨_, _, ?_, howned .test (by decide)⟩
  simp only [Ownership.takeEvent, if_pos hsize, hstart, deref_some hfirst, ok_bind, if_pos htype,
    hpop, deref_some he, hfree, hkey]
  rfl

/-- The next message is handled, or nothing is there to read. -/
theorem Follows.received {main main' : MainState} {env : Env} {pass : Option Pass}
    (h : Follows abi results past main) (hreceive : receive abi env main = .ok (main', pass)) :
    Follows abi results (past ++ [{ pass := pass }]) main' := by
  obtain ⟨handled, rest, harrived, hinput, hpasses, hresults⟩ := h
  obtain ⟨table, input⟩ := main
  simp only at hinput hresults
  subst hinput hresults
  cases rest with
  | nil =>
    have hidle : receive abi env ⟨handled.foldl record results, wire abi (List.map .message [])⟩ =
        .ok (⟨handled.foldl record results, []⟩, none) := receive_idle abi rfl
    rw [hidle] at hreceive
    cases hreceive
    have hbefore : Follows abi results past ⟨handled.foldl record results, []⟩ :=
      ⟨handled, [], harrived, rfl, hpasses, rfl⟩
    exact hbefore.silent rfl rfl
  | cons p rest =>
    obtain ⟨pass', heq, hhandled⟩ := receive_message abi (handled.foldl record results) env p
      (wire abi (rest.map .message))
    rw [wire_message, heq] at hreceive
    cases hreceive
    refine ⟨handled ++ [p], rest, ?_, rfl, ?_, ?_⟩
    · rw [arrived_snoc, List.append_nil, harrived, List.append_assoc, List.singleton_append]
    · rw [passes_snoc, Option.toList_some, List.map_append]
      exact List.rel_append hpasses (.cons hhandled .nil)
    · rw [List.foldl_append]
      rfl

theorem Inv.received (h : Inv abi heap results past s dropped l) {env : Env} {main' : MainState}
    {pass : Option Pass} (hreceive : receive abi env s.main = .ok (main', pass)) :
    Inv abi heap results (past ++ [{ pass := pass }])
      { s with receiving := false, main := main' } dropped l := by
  refine h.port [] pass ?_ (by simp)
  intro hframed
  exact (h.messages ((framed_snoc_iff _ _).mp hframed).1).received hreceive

/-- The command of the event that was taken is sent, if it has one. -/
theorem Inv.sent (h : Inv abi heap results past s dropped l) (hphase : s.sys.phase = .body)
    (key : Option UInt8) (written : Int) {q' : EventQueue} {log : List Ownership.Alloc}
    {l' : List Item} (howned : Ownership.Inv heap (allocs past ++ log) ⟨q', .test⟩ l')
    (hl : l.map (fun x => x.content.param) = key.toList ++ l'.map fun x => x.content.param)
    (hsub : ∀ x ∈ l', x ∈ l) (hlen : l'.length ≤ l.length) :
    Inv abi heap results
      (past ++ [{ popped := key, log := log,
                  sent := (key.bind commandPayload).map fun p => ⟨p.frame, written⟩ }])
      { s with sys := ⟨q', .test⟩, receiving := true } dropped l' := by
  have hbound := h.bound
  have hnone : dropped = [] := by
    by_contra hdropped
    rcases h.ended hdropped with hended | hended
    · rw [hphase] at hended
      cases hended
    · rw [hphase] at hended
      cases hended
  refine ⟨?_, fun x hx => h.keyboard x (hsub x hx), by omega, ?_, ?_, ?_, ?_, fun _ => rfl⟩
  · rw [allocs_snoc]
    exact howned
  · rw [typedKeys_snoc, poppedKeys_snoc, Option.toList_none, List.append_nil, h.keys, hl, hnone,
      List.append_nil, List.append_nil, List.append_assoc]
  · intro hdropped
    exact absurd hnone hdropped
  · rw [offered_snoc, poppedKeys_snoc, List.filterMap_append, List.flatMap_append, h.commands]
    cases key with
    | none => rfl
    | some c => cases hp : commandPayload c <;> simp [hp]
  · intro hframed
    exact (h.messages ((framed_snoc_iff _ _).mp hframed).1).silent rfl rfl

theorem Inv.mainReceive (h : Inv abi heap results past s dropped l)
    (hreceiving : s.receiving = true) (env : Env) :
    Behaves abi heap results past s (.main env) := by
  cases hreceive : receive abi env s.main with
  | error e =>
    refine .inl ⟨?_, e, ?_⟩
    · simp only [Undefined, if_pos hreceiving]
      exact (receive_error_iff abi env s.main).mp ⟨e, hreceive⟩
    · simp only [step, if_pos hreceiving, hreceive, error_bind]
  | ok out =>
    obtain ⟨main', pass⟩ := out
    refine .inr ⟨fun hundef => ?_, _, _, dropped, l, ?_, h.received hreceive⟩
    · simp only [Undefined, if_pos hreceiving] at hundef
      obtain ⟨e, he⟩ := (receive_error_iff abi env s.main).mpr hundef
      rw [hreceive] at he
      cases he
    · simp only [step, if_pos hreceiving, hreceive, ok_bind]
      rfl

/-- The command of the event fits into its buffer, or the round fails there. -/
theorem Inv.mainBody (h : Inv abi heap results past s dropped l)
    (hreceiving : ¬ s.receiving = true) (hbody : s.sys.phase = .body) (env : Env) :
    Behaves abi heap results past s (.main env) := by
  cases l with
  | nil =>
    have htake := Ownership.takeEvent_nil h.owned.represents
    have howned : Ownership.Inv heap (allocs past ++ []) ⟨s.sys.q, .test⟩ [] := by
      rw [List.append_nil]
      exact h.owned.idle (by simp)
    refine .inr ⟨fun hundef => ?_, _, _, dropped, [], ?_,
      h.sent hbody none 0 howned rfl (fun _ hx => hx) (Nat.le_refl _)⟩
    · simp only [Undefined, if_neg hreceiving] at hundef
      obtain ⟨-, key, q, log, htake', -⟩ := hundef
      rw [htake] at htake'
      cases htake'
    · simp only [step, if_neg hreceiving, if_pos hbody, htake, ok_bind, KeysToWire.handleEvent_idle]
      rfl
  | cons y l =>
    obtain ⟨q', log, htake, howned⟩ := h.take
    by_cases hfits : SendFits { env with key := some y.content.param }
    · refine .inr ⟨fun hundef => ?_, _, _, dropped, l, ?_,
        h.sent hbody (some y.content.param) env.written howned rfl
          (fun x hx => List.mem_cons_of_mem y hx) (by simp)⟩
      · simp only [Undefined, if_neg hreceiving] at hundef
        obtain ⟨-, key, q, log', htake', hnot⟩ := hundef
        rw [htake] at htake'
        cases htake'
        exact hnot hfits
      · simp only [step, if_neg hreceiving, if_pos hbody, htake, ok_bind,
          handleEvent_ok abi hfits]
        rfl
    · refine .inl ⟨?_, ?_⟩
      · simp only [Undefined, if_neg hreceiving]
        exact ⟨hbody, _, q', log, htake, hfits⟩
      · simp only [step, if_neg hreceiving, if_pos hbody, htake, ok_bind]
        rcases handleEvent_fault abi hfits with hfault | hfault
        · exact ⟨.badLength, by rw [hfault, error_bind]⟩
        · exact ⟨.outOfBounds, by rw [hfault, error_bind]⟩

theorem Inv.main (h : Inv abi heap results past s dropped l) (env : Env) :
    Behaves abi heap results past s (.main env) := by
  by_cases hreceiving : s.receiving = true
  · exact h.mainReceive hreceiving env
  by_cases hbody : s.sys.phase = .body
  · exact h.mainBody hreceiving hbody env
  obtain ⟨⟨q, phase⟩, receiving, main⟩ := s
  have hdefined : ¬ Undefined ⟨⟨q, phase⟩, receiving, main⟩ (.main env) := by
    simp only [Undefined, if_neg hreceiving]
    exact fun hundef => hbody hundef.1
  have hstep : step abi ⟨⟨q, phase⟩, receiving, main⟩ (.main env) =
      queueStep ⟨⟨q, phase⟩, receiving, main⟩ .main none := by
    simp only [step, if_neg hreceiving, if_neg hbody]
  unfold Behaves
  rw [hstep]
  refine .inr ⟨hdefined, ?_⟩
  cases phase with
  | test =>
    refine ⟨_, _, dropped, l, queueStep_eq rfl none, h.phase ?_ ?_ ?_⟩
    · intro hcleaned
      split at hcleaned <;> cases hcleaned
    · intro hdropped
      rcases h.ended hdropped with hphase | hphase <;> cases hphase
    · exact fun hboth => absurd hboth hreceiving
  | body => exact absurd rfl hbody
  | opening | ended | cleaned => exact ⟨_, _, dropped, l, queueStep_eq rfl none, h.still⟩

theorem Inv.step (h : Inv abi heap results past s dropped l) {m : Move} (hfresh : Fresh s m) :
    Behaves abi heap results past s m := by
  cases m with
  | opened fd => exact h.opened fd
  | key a junk c => exact h.key junk c hfresh
  | arrive outcomes => exact h.arrive outcomes
  | main env => exact h.main env
  | cleanup => exact h.cleanup

theorem Behaves.keeps {m : Move} {s' : State} {x : Shown}
    (h : Behaves abi heap results past s m)
    (hstep : Application.step abi s m = .ok (s', x)) :
    ∃ dropped l, Inv abi heap results (past ++ [x]) s' dropped l := by
  rcases h with ⟨-, e, he⟩ | ⟨-, s'', x', dropped, l, hok, hinv⟩
  · rw [hstep] at he
    cases he
  · rw [hstep] at hok
    cases hok
    exact ⟨dropped, l, hinv⟩

theorem inv_run (heap : Heap) (results : Matrix sizeX sizeY) {moves : List Move}
    {shown : List Shown}
    (halong : Along (Application.step abi) Fresh (start heap results) moves)
    (hrun : run (Application.step abi) (start heap results) moves = .ok (s, shown)) :
    ∃ dropped l, Inv abi heap results shown s dropped l := by
  refine run_history (P := Fresh) (fun past s => ∃ dropped l, Inv abi heap results past s dropped l)
    ?_ ⟨[], [], inv_start abi heap results⟩ halong hrun
  intro past s m s' x hinv hfresh hstep
  obtain ⟨dropped, l, hinv⟩ := hinv
  exact (hinv.step hfresh).keeps hstep

end Steps

end Prgsem.Application
