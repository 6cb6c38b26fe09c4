import Prgsem.Shared.CMemory
import Prgsem.Shared.Ring
import Prgsem.Shared.Run

/-!
# The earlier event queue

`event_queue.h` and `event_queue.c` of the earlier version: a ring of
`QUEUE_CAPACITY` events, every operation atomic under the mutex. A thread that
finds the ring full or empty waits and tries again. `queue_push` stores the event
at `in` but then advances `out`.
-/

namespace Prgsem.RingQueue

open CMemory Run
set_option autoImplicit false

inductive EventSource where
  | nucleo
  | keyboard
  | num
  deriving DecidableEq, Repr

inductive EventType where
  | compute
  | resetChunk
  | abort
  | getVersion
  | threadExit
  | quit
  | serial
  | setCompute
  | computeCpu
  | clearBuffer
  | refresh
  | typeNum
  deriving DecidableEq, Repr

/-- `data` is the union of a key and a pointer, as its bits. -/
structure Event where
  source : EventSource
  type : EventType
  data : UInt64
  deriving DecidableEq, Repr

/-- What static memory holds. -/
def Event.zero : Event := ⟨.nucleo, .compute, 0⟩

/-- `{ .type = EV_TYPE_NUM }`. -/
def Event.dummy : Event := { Event.zero with type := .typeNum }

/-- The static `q`, without the mutex and the condition variable. -/
structure Queue where
  queue : List Event
  in_ : Nat
  out : Nat
  quit : Bool

def init (capacity : Nat) : Queue := ⟨List.replicate capacity .zero, 0, 0, false⟩

inductive Move where
  | push (ev : Event)
  | pop
  | isQuit
  | setQuit

/-- What a thread gets from its attempt. -/
inductive Outcome where
  | waits
  | done
  | popped (ev : Event)
  | quit (b : Bool)

def queuePop (capacity : Nat) (q : Queue) : Except Fault (Queue × Outcome) :=
  if q.quit = false ∧ q.in_ = q.out then .ok (q, .waits)
  else if q.in_ ≠ q.out then
    match q.queue[q.out]? with
    | some ev => .ok ({ q with out := (q.out + 1) % capacity }, .popped ev)
    | none => .error .outOfBounds
  else .ok (q, .popped .dummy)

def queuePush (capacity : Nat) (ev : Event) (q : Queue) : Except Fault (Queue × Outcome) :=
  if (q.in_ + 1) % capacity = q.out then .ok (q, .waits)
  else if q.in_ < q.queue.length then
    .ok ({ q with queue := q.queue.set q.in_ ev, out := (q.out + 1) % capacity }, .done)
  else .error .outOfBounds

def queueStep (capacity : Nat) (q : Queue) : Move → Except Fault (Queue × Outcome)
  | .push ev => queuePush capacity ev q
  | .pop => queuePop capacity q
  | .isQuit => .ok (q, .quit q.quit)
  | .setQuit => .ok ({ q with quit := true }, .done)

/-! ## The queue as it is meant -/

/-- A queue of at most `QUEUE_CAPACITY - 1` events, oldest first. -/
structure Bounded where
  items : List Event
  quit : Bool

def Bounded.step (capacity : Nat) (b : Bounded) : Move → Bounded × Outcome
  | .push ev =>
    if b.items.length < capacity - 1 then ({ b with items := b.items ++ [ev] }, .done)
    else (b, .waits)
  | .pop =>
    match b.items with
    | ev :: items => ({ b with items := items }, .popped ev)
    | [] => if b.quit then (b, .popped .dummy) else (b, .waits)
  | .isQuit => (b, .quit b.quit)
  | .setQuit => ({ b with quit := true }, .done)

/-- The ring holds the events of the queue. -/
structure Matches (capacity : Nat) (q : Queue) (b : Bounded) : Prop where
  ring : Ring.Holds q.queue q.in_ q.out b.items
  size : q.queue.length = capacity
  quit : q.quit = b.quit

/-- Both queues side by side, with what each of them shows. -/
def step (capacity : Nat) (s : Queue × Bounded) (move : Move) :
    Except Fault ((Queue × Bounded) × Outcome × Outcome) := do
  let (q, out) ← queueStep capacity s.1 move
  let (b, meant) := s.2.step capacity move
  return ((q, b), out, meant)

def start (capacity : Nat) : Queue × Bounded := (init capacity, ⟨[], false⟩)

/-- The attempt shows what it is meant to show, and leaves what it is meant to leave. -/
def Refines (capacity : Nat) (s : Queue × Bounded) (move : Move) : Prop :=
  ∃ q b out, step capacity s move = .ok ((q, b), out, out) ∧ Matches capacity q b

/-- No event is pushed, or the ring has two slots and the other one holds the same
event already. -/
def Harmless (capacity : Nat) (s : Queue × Bounded) : Move → Prop
  | .push ev => (s.1.in_ + 1) % capacity = s.1.out ∨
      capacity = 2 ∧ s.1.queue[(s.1.out + 1) % 2]? = some ev
  | _ => True

theorem matches_start {capacity : Nat} (h : 0 < capacity) :
    Matches capacity (init capacity) ⟨[], false⟩ where
  ring := Ring.holds_empty (by simpa [init] using h)
  size := List.length_replicate
  quit := rfl

section Step
variable {capacity : Nat} {q : Queue} {b : Bounded}

theorem Matches.full_iff (h : Matches capacity q b) :
    (q.in_ + 1) % capacity = q.out ↔ b.items.length + 1 = capacity := by
  have hfull := h.ring.full_iff
  rwa [h.size] at hfull

theorem Matches.pop (h : Matches capacity q b) : Refines capacity (q, b) .pop := by
  have hquit := h.quit
  obtain ⟨items, quit⟩ := b
  cases items with
  | nil =>
    have hin : q.in_ = q.out := h.ring.in_eq_out_iff.mpr rfl
    cases quit with
    | false =>
      refine ⟨q, ⟨[], false⟩, .waits, ?_, h⟩
      simp only [step, queueStep, queuePop, hquit, hin, and_self, if_true, ok_bind, Bounded.step]
      rfl
    | true =>
      refine ⟨q, ⟨[], true⟩, .popped .dummy, ?_, h⟩
      simp only [step, queueStep, queuePop, hquit, hin, reduceCtorEq, and_true, ne_eq,
        not_true_eq_false, if_false, ok_bind, Bounded.step]
      rfl
  | cons ev items =>
    have hne : q.in_ ≠ q.out := h.ring.in_ne_out
    have hfront : q.queue[q.out]? = some ev := h.ring.front
    have hpop := h.ring.pop
    rw [h.size] at hpop
    refine ⟨{ q with out := (q.out + 1) % capacity }, ⟨items, quit⟩, .popped ev, ?_, hpop, h.size,
      hquit⟩
    simp only [step, queueStep, queuePop, hne, and_false, if_false, ne_eq, not_false_eq_true,
      if_true, hfront, ok_bind, Bounded.step]
    rfl

theorem Matches.push_full (h : Matches capacity q b) (hfull : (q.in_ + 1) % capacity = q.out)
    (ev : Event) : Refines capacity (q, b) (.push ev) := by
  have hlen := h.full_iff.mp hfull
  have hnot : ¬ b.items.length < capacity - 1 := by omega
  refine ⟨q, b, .waits, ?_, h⟩
  simp only [step, queueStep, queuePush, if_pos hfull, ok_bind, Bounded.step, if_neg hnot]
  rfl

/-- With room for the event both queues take it; only the places differ. -/
theorem Matches.step_push (h : Matches capacity q b) (hroom : (q.in_ + 1) % capacity ≠ q.out)
    (ev : Event) : step capacity (q, b) (.push ev) =
      .ok (({ q with queue := q.queue.set q.in_ ev, out := (q.out + 1) % capacity },
        { b with items := b.items ++ [ev] }), .done, .done) := by
  have hspare := h.ring.spare
  have hlen := mt h.full_iff.mpr hroom
  have hin : q.in_ < q.queue.length := h.ring.in_lt
  have hless : b.items.length < capacity - 1 := by
    rw [h.size] at hspare
    omega
  simp only [step, queueStep, queuePush, if_neg hroom, if_pos hin, ok_bind, Bounded.step,
    if_pos hless]
  rfl

/-- The other slot of a ring of two. -/
theorem Matches.pushed_two (h : Matches 2 q b) (hroom : (q.in_ + 1) % 2 ≠ q.out) (ev : Event) :
    b.items = [] ∧ q.in_ = q.out ∧
      (q.queue.set q.in_ ev)[((q.out + 1) % 2 + 0) % 2]? = q.queue[(q.out + 1) % 2]? := by
  have hsize := h.size
  have hout : q.out < 2 := hsize ▸ h.ring.out_lt
  have hspare : b.items.length < 2 := hsize ▸ h.ring.spare
  have hlen := mt h.full_iff.mpr hroom
  have hnil : b.items = [] := List.length_eq_zero_iff.mp (by omega)
  have hin := h.ring.in_eq_out_iff.mpr hnil
  refine ⟨hnil, hin, ?_⟩
  rw [Nat.add_zero, Nat.mod_mod, List.getElem?_set_ne (by omega)]

/-- The ring is right after a push only where the slot behind `out` holds the event. -/
theorem Matches.pushed_iff (h : Matches capacity q b) (hroom : (q.in_ + 1) % capacity ≠ q.out)
    (ev : Event) :
    Ring.Holds (q.queue.set q.in_ ev) q.in_ ((q.out + 1) % capacity) (b.items ++ [ev]) ↔
      capacity = 2 ∧ q.queue[(q.out + 1) % 2]? = some ev := by
  have hsize := h.size
  have hout : q.out < capacity := hsize ▸ h.ring.out_lt
  have hspare : b.items.length < capacity := hsize ▸ h.ring.spare
  have hin : q.in_ = (q.out + b.items.length) % capacity := hsize ▸ h.ring.in_eq
  have hlen := mt h.full_iff.mpr hroom
  constructor
  · intro hholds
    have hnext := hholds.in_eq
    rw [List.length_set, hsize, hin, Nat.mod_add_mod, List.length_append, List.length_singleton,
      Nat.add_assoc, Ring.slot_eq hout (by omega), Ring.slot_eq hout (by omega)] at hnext
    have htwo : capacity = 2 := by
      split at hnext <;> split at hnext <;> omega
    subst htwo
    obtain ⟨hnil, -, hslot⟩ := h.pushed_two hroom ev
    have hstored := hholds.stored 0 (by simp)
    rw [List.length_set, hsize, hslot, hnil] at hstored
    exact ⟨rfl, hstored⟩
  · rintro ⟨rfl, hevent⟩
    obtain ⟨hnil, hsame, hslot⟩ := h.pushed_two hroom ev
    refine ⟨?_, ?_, ?_, ?_⟩
    · rw [List.length_set, hsize]
      exact Nat.mod_lt _ (by decide)
    · rw [List.length_set, hsize, hnil, hsame]
      simp only [List.nil_append, List.length_singleton]
      omega
    · rw [List.length_set, hsize, hnil]
      exact Nat.lt_succ_self 1
    · intro k hk
      rw [hnil, List.nil_append, List.length_singleton] at hk
      obtain rfl : k = 0 := by omega
      rw [List.length_set, hsize, hslot, hevent, hnil]
      rfl

theorem Matches.push_iff (h : Matches capacity q b) (ev : Event) :
    Refines capacity (q, b) (.push ev) ↔ Harmless capacity (q, b) (.push ev) := by
  by_cases hroom : (q.in_ + 1) % capacity = q.out
  · exact iff_of_true (h.push_full hroom ev) (.inl hroom)
  · have hstep := h.step_push hroom ev
    have hpushed := h.pushed_iff hroom ev
    simp only [Harmless, hroom, false_or]
    rw [← hpushed]
    constructor
    · rintro ⟨q', b', out, heq, hmatches⟩
      rw [hstep] at heq
      cases heq
      exact hmatches.ring
    · intro hring
      exact ⟨_, _, _, hstep, hring, by rw [List.length_set]; exact h.size, h.quit⟩

theorem Matches.refines_iff (h : Matches capacity q b) (move : Move) :
    Refines capacity (q, b) move ↔ Harmless capacity (q, b) move := by
  cases move with
  | push ev => exact h.push_iff ev
  | pop => exact iff_of_true h.pop trivial
  | isQuit =>
    refine iff_of_true ⟨q, b, .quit q.quit, ?_, h⟩ trivial
    simp only [step, queueStep, ok_bind, Bounded.step, h.quit]
    rfl
  | setQuit => exact iff_of_true ⟨_, _, .done, rfl, h.ring, h.size, rfl⟩ trivial

theorem Refines.matches {s s' : Queue × Bounded} {move : Move} {outs : Outcome × Outcome}
    (h : Refines capacity s move) (hstep : step capacity s move = .ok (s', outs)) :
    Matches capacity s'.1 s'.2 := by
  obtain ⟨q, b, out, heq, hmatches⟩ := h
  rw [hstep] at heq
  cases heq
  exact hmatches

end Step

/-! ## Runs -/

/-- Without a push an empty ring stays as it is. -/
theorem step_idle (capacity : Nat) {s : Queue × Bounded} (h : s.1.in_ = s.1.out) {move : Move}
    (hmove : ∀ ev, move ≠ .push ev) :
    ∃ s' outs, step capacity s move = .ok (s', outs) ∧ s'.1.in_ = s.1.in_ ∧
      s'.1.out = s.1.out := by
  obtain ⟨q, b⟩ := s
  cases move with
  | push ev => exact absurd rfl (hmove ev)
  | pop =>
    by_cases hquit : q.quit = false
    · refine ⟨(q, (b.step capacity .pop).1), (.waits, (b.step capacity .pop).2), ?_, rfl, rfl⟩
      simp only [step, queueStep, queuePop, if_pos (And.intro hquit h), ok_bind]
      rfl
    · refine ⟨(q, (b.step capacity .pop).1), (.popped .dummy, (b.step capacity .pop).2), ?_, rfl,
        rfl⟩
      have hready : ¬ (q.quit = false ∧ q.in_ = q.out) := fun hwaits => hquit hwaits.1
      simp only [step, queueStep, queuePop, if_neg hready, if_neg (not_not_intro h), ok_bind]
      rfl
  | isQuit => exact ⟨_, _, rfl, rfl, rfl⟩
  | setQuit => exact ⟨_, _, rfl, rfl, rfl⟩

theorem along_harmless_iff {capacity : Nat} (h : 2 < capacity) {s : Queue × Bounded}
    (hempty : s.1.in_ = s.1.out) (hlt : s.1.out < capacity) (moves : List Move) :
    Along (step capacity) (Harmless capacity) s moves ↔ ∀ ev, .push ev ∉ moves := by
  induction moves generalizing s with
  | nil => simp [Along]
  | cons move moves ih =>
    by_cases hmove : ∃ ev, move = .push ev
    · obtain ⟨ev, rfl⟩ := hmove
      refine iff_of_false ?_ (fun hnone => hnone ev List.mem_cons_self)
      rintro ⟨hfull | ⟨htwo, -⟩, -⟩
      · have hslot := Ring.slot_eq hlt (by omega : 1 ≤ capacity)
        rw [hempty, hslot] at hfull
        split at hfull <;> omega
      · omega
    · have hother (ev : Event) : move ≠ .push ev := fun heq => hmove ⟨ev, heq⟩
      obtain ⟨s', outs, hstep, hin, hout⟩ := step_idle capacity hempty hother
      have hrest := ih (s := s') (by rw [hin, hout, hempty]) (by rwa [hout])
      have hharmless : Harmless capacity s move := by
        cases move with
        | push ev => exact absurd rfl (hother ev)
        | _ => trivial
      constructor
      · intro halong ev hmem
        rcases List.mem_cons.mp hmem with heq | hmem
        · exact hother ev heq.symm
        · exact hrest.mp (halong.2 s' outs hstep) ev hmem
      · intro hnone
        exact along_cons hharmless hstep
          (hrest.mpr fun ev hmem => hnone ev (List.mem_cons_of_mem move hmem))

/-- In every run, whatever the order of the attempts, the ring does what the queue is
meant to do exactly as long as nothing is pushed that its one wrong index can lose:
with more than two slots, as long as nothing is pushed at all. -/
theorem run_refines_iff {capacity : Nat} (h : 0 < capacity) (moves : List Move) :
    (Along (step capacity) (Refines capacity) (start capacity) moves ↔
      Along (step capacity) (Harmless capacity) (start capacity) moves) ∧
    (2 < capacity → (Along (step capacity) (Harmless capacity) (start capacity) moves ↔
      ∀ ev, .push ev ∉ moves)) :=
  ⟨along_congr_of_invariant (fun s => Matches capacity s.1 s.2)
    (fun _ move hmatches => hmatches.refines_iff move)
    (fun _ _ _ _ _ hrefines hstep => hrefines.matches hstep) (matches_start h) moves,
    fun hmany => along_harmless_iff hmany rfl h moves⟩

/-- Nothing is pushed before `quit`, or a key is. -/
theorem run_refines_quit :
    (Along (step 32) (Harmless 32) (start 32) [.pop, .setQuit, .pop] ∧
      Along (step 32) (Refines 32) (start 32) [.pop, .setQuit, .pop]) ∧
    ¬ Along (step 32) (Harmless 32) (start 32)
      [.push ⟨.keyboard, .compute, 103⟩, .setQuit, .pop] ∧
    ¬ Along (step 32) (Refines 32) (start 32)
      [.push ⟨.keyboard, .compute, 103⟩, .setQuit, .pop] := by
  obtain ⟨hrefines, hmany⟩ := run_refines_iff (by decide : 0 < 32) [.pop, .setQuit, .pop]
  obtain ⟨hrefines', hmany'⟩ := run_refines_iff (by decide : 0 < 32)
    [.push ⟨.keyboard, .compute, 103⟩, .setQuit, .pop]
  have hnone : Along (step 32) (Harmless 32) (start 32) [.pop, .setQuit, .pop] :=
    (hmany (by decide)).mpr (by simp)
  have hpush : ¬ Along (step 32) (Harmless 32) (start 32)
      [.push ⟨.keyboard, .compute, 103⟩, .setQuit, .pop] :=
    fun halong => (hmany' (by decide)).mp halong _ List.mem_cons_self
  exact ⟨⟨hnone, hrefines.mpr hnone⟩, hpush, fun halong => hpush (hrefines'.mp halong)⟩

/-- After the push of a key the pop returns what the array held before. -/
theorem pops_unpushed_event :
    (∃ q, run (queueStep 32) (init 32) [.push ⟨.keyboard, .compute, 103⟩, .pop] =
      .ok (q, [.done, .popped .zero])) ∧
    ¬ Along (step 32) (Refines 32) (start 32) [.push ⟨.keyboard, .compute, 103⟩, .pop] := by
  refine ⟨⟨_, rfl⟩, ?_⟩
  rintro ⟨⟨q, b, out, heq, hmatches⟩, -⟩
  cases heq
  exact absurd hmatches.ring.in_eq (by decide)

end Prgsem.RingQueue
