import Prgsem.RingLosses
import Prgsem.Shared.Calls

/-!
# The earlier event queue between threads

The functions of `event_queue.c` step by step: every operation on `mtx` and `cond`,
every test and every statement on `q` is a step of its own, and any number of threads
call them in any order. The ring with atomic attempts is what they see: each attempt
of a call takes effect at one of its steps under the mutex.
-/

namespace Prgsem.RingQueue.Concurrent

open Calls CMemory Run
open Monitor hiding Move
set_option autoImplicit false

inductive PopPc where
  | lock
  | test
  | wait
  | asleep
  | woken
  | testIn
  | take
  | advance
  | broadcast
  | unlock
  | leave
  deriving DecidableEq, Repr

inductive PushPc where
  | lock
  | test
  | wait
  | asleep
  | woken
  | store
  | advance
  | broadcast
  | unlock
  | leave
  deriving DecidableEq, Repr

inductive IsQuitPc where
  | lock
  | read
  | unlock
  | leave
  deriving DecidableEq, Repr

inductive SetQuitPc where
  | lock
  | store
  | unlock
  | leave
  deriving DecidableEq, Repr

/-- Where a thread is, with the local variable of the function. -/
inductive Place where
  | idle
  | queuePop (pc : PopPc) (ev : Event)
  | queuePush (pc : PushPc) (ev : Event)
  | isQuit (pc : IsQuitPc) (quit : Bool)
  | setQuit (pc : SetQuitPc)
  deriving DecidableEq, Repr

variable {T : Type}

abbrev Action (T : Type) := Monitor.Action CMemory.Fault Queue (T × Label Move Outcome) Place

/-- The call of a function; `quit` of `is_quit` is not read before it is set. -/
def enter : Move → Place
  | .pop => .queuePop .lock .dummy
  | .push ev => .queuePush .lock ev
  | .isQuit => .isQuit .lock false
  | .setQuit => .setQuit .lock

def queuePop (capacity : Nat) (t : T) (pc : PopPc) (ev : Event) : Action T :=
  match pc with
  | .lock => .lock (.queuePop .test ev)
  | .test => .commit fun q =>
    .ok (if q.quit = false ∧ q.in_ = q.out then
      (q, .queuePop .wait ev, some (t, .attempted .pop .waits))
    else (q, .queuePop .testIn ev, none))
  | .wait => .wait (.queuePop .asleep ev)
  -- in `pthread_cond_wait`
  | .asleep => .stop
  | .woken => .lock (.queuePop .test ev)
  | .testIn => .commit fun q =>
    .ok (if q.in_ ≠ q.out then (q, .queuePop .take ev, none)
    else (q, .queuePop .unlock ev, some (t, .attempted .pop (.popped ev))))
  | .take => .access fun q =>
    match q.queue[q.out]? with
    | some ev => .ok (q, .queuePop .advance ev)
    | none => .error .outOfBounds
  | .advance => .commit fun q =>
    .ok ({ q with out := (q.out + 1) % capacity }, .queuePop .broadcast ev,
      some (t, .attempted .pop (.popped ev)))
  | .broadcast => .broadcast (.queuePop .unlock ev)
  | .unlock => .unlock (.queuePop .leave ev)
  | .leave => .plain (.ok (.idle, some (t, .returned .pop (.popped ev))))

def queuePush (capacity : Nat) (t : T) (pc : PushPc) (ev : Event) : Action T :=
  match pc with
  | .lock => .lock (.queuePush .test ev)
  | .test => .commit fun q =>
    .ok (if (q.in_ + 1) % capacity = q.out then
      (q, .queuePush .wait ev, some (t, .attempted (.push ev) .waits))
    else (q, .queuePush .store ev, none))
  | .wait => .wait (.queuePush .asleep ev)
  | .asleep => .stop
  | .woken => .lock (.queuePush .test ev)
  | .store => .access fun q =>
    if q.in_ < q.queue.length then
      .ok ({ q with queue := q.queue.set q.in_ ev }, .queuePush .advance ev)
    else .error .outOfBounds
  -- the source advances `out`, not `in`
  | .advance => .commit fun q =>
    .ok ({ q with out := (q.out + 1) % capacity }, .queuePush .broadcast ev,
      some (t, .attempted (.push ev) .done))
  | .broadcast => .broadcast (.queuePush .unlock ev)
  | .unlock => .unlock (.queuePush .leave ev)
  | .leave => .plain (.ok (.idle, some (t, .returned (.push ev) .done)))

def isQuit (t : T) (pc : IsQuitPc) (quit : Bool) : Action T :=
  match pc with
  | .lock => .lock (.isQuit .read quit)
  | .read => .commit fun q =>
    .ok (q, .isQuit .unlock q.quit, some (t, .attempted .isQuit (.quit q.quit)))
  | .unlock => .unlock (.isQuit .leave quit)
  | .leave => .plain (.ok (.idle, some (t, .returned .isQuit (.quit quit))))

def setQuit (t : T) (pc : SetQuitPc) : Action T :=
  match pc with
  | .lock => .lock (.setQuit .store)
  | .store => .commit fun q =>
    .ok ({ q with quit := true }, .setQuit .unlock, some (t, .attempted .setQuit .done))
  | .unlock => .unlock (.setQuit .leave)
  | .leave => .plain (.ok (.idle, some (t, .returned .setQuit .done)))

/-- What a thread calls next comes from outside. -/
def program (capacity : Nat) :
    Program CMemory.Fault Move Queue (T × Label Move Outcome) T fun _ => Place where
  action op t
    | .idle => .plain (.ok (enter op, some (t, .called op)))
    | .queuePop pc ev => queuePop capacity t pc ev
    | .queuePush pc ev => queuePush capacity t pc ev
    | .isQuit pc quit => isQuit t pc quit
    | .setQuit pc => setQuit t pc
  woken _
    | .queuePop pc ev => if pc = .asleep then some (.queuePop .woken ev) else none
    | .queuePush pc ev => if pc = .asleep then some (.queuePush .woken ev) else none
    | .idle | .isQuit _ _ | .setQuit _ => none

abbrev State (T : Type) := Monitor.State Queue T fun _ => Place

def start (capacity : Nat) : State T := ⟨init capacity, none, fun _ => .idle⟩

/-! ## Where the calls take effect -/

def PopPc.critical : PopPc → Bool
  | .test | .wait | .testIn | .take | .advance | .broadcast | .unlock => true
  | .lock | .asleep | .woken | .leave => false

def PushPc.critical : PushPc → Bool
  | .test | .wait | .store | .advance | .broadcast | .unlock => true
  | .lock | .asleep | .woken | .leave => false

def IsQuitPc.critical : IsQuitPc → Bool
  | .read | .unlock => true
  | .lock | .leave => false

def SetQuitPc.critical : SetQuitPc → Bool
  | .store | .unlock => true
  | .lock | .leave => false

/-- The thread has the mutex. -/
def Place.holds : Place → Bool
  | .idle => false
  | .queuePop pc _ => pc.critical
  | .queuePush pc _ => pc.critical
  | .isQuit pc _ => pc.critical
  | .setQuit pc => pc.critical

def Place.status : Place → Status Move Outcome
  | .idle => .idle
  | .queuePop pc ev =>
    match pc with
    | .broadcast | .unlock | .leave => .answered .pop (.popped ev)
    | _ => .calling .pop
  | .queuePush pc ev =>
    match pc with
    | .broadcast | .unlock | .leave => .answered (.push ev) .done
    | _ => .calling (.push ev)
  | .isQuit pc quit =>
    match pc with
    | .unlock | .leave => .answered .isQuit (.quit quit)
    | _ => .calling .isQuit
  | .setQuit pc =>
    match pc with
    | .unlock | .leave => .answered .setQuit .done
    | _ => .calling .setQuit

/-- The attempts so far lead to the ring `q`. -/
structure Logged (capacity : Nat) (q : Queue) (log : List (Move × Outcome)) : Prop where
  lossy : Lossy capacity q
  follows : Follows (queueStep capacity) (init capacity) log q

def Full (capacity : Nat) (q : Queue) : Prop := (q.in_ + 1) % capacity = q.out

/-- Between the two statements of `queue_push` the ring is the one before it with the event
in its slot. -/
def Place.Knows (capacity : Nat) (q : Queue) (log : List (Move × Outcome)) : Place → Prop
  | .idle => True
  | .queuePop pc ev =>
    match pc with
    | .lock | .asleep | .woken => ev = .dummy
    | .test => ev = .dummy ∧ Logged capacity q log
    | .wait => ev = .dummy ∧ Logged capacity q log ∧ q.in_ = q.out
    | .testIn => ev = .dummy ∧ Logged capacity q log ∧ (q.in_ = q.out → q.quit = true)
    | .take => Logged capacity q log ∧ q.in_ ≠ q.out
    | .advance => Logged capacity q log ∧ q.in_ ≠ q.out ∧ q.queue[q.out]? = some ev
    | .broadcast | .unlock => Logged capacity q log
    | .leave => True
  | .queuePush pc ev =>
    match pc with
    | .test | .broadcast | .unlock => Logged capacity q log
    | .wait => Logged capacity q log ∧ Full capacity q
    | .store => Logged capacity q log ∧ ¬ Full capacity q
    | .advance => ∃ q', Logged capacity q' log ∧ ¬ Full capacity q' ∧
        q = { q' with queue := q'.queue.set q'.in_ ev }
    | .lock | .asleep | .woken | .leave => True
  | .isQuit pc _ => pc.critical = true → Logged capacity q log
  | .setQuit pc => pc.critical = true → Logged capacity q log

def linearization (capacity : Nat) : Linearization Queue Place Move Outcome where
  waits out := out = .waits
  holds := Place.holds
  status := Place.status
  inv q log := Logged capacity q log
  knows p q log := p.Knows capacity q log

section Logged
variable {capacity : Nat} {q : Queue} {log : List (Move × Outcome)}

theorem logged_init (h : 0 < capacity) : Logged capacity (init capacity) [] :=
  ⟨lossy_init h, follows_nil _ _⟩

theorem Logged.attempt {q' : Queue} {op : Move} {out : Outcome} (h : Logged capacity q log)
    (hstep : queueStep capacity q op = .ok (q', out)) :
    Logged capacity q' (log ++ [(op, out)]) := by
  obtain ⟨q'', out', heq, hlossy, -⟩ := h.lossy.step op
  rw [hstep] at heq
  cases heq
  exact ⟨hlossy, h.follows.snoc hstep⟩

theorem Logged.pop_waits (h : Logged capacity q log) (hwaits : q.quit = false ∧ q.in_ = q.out) :
    Logged capacity q (log ++ [(.pop, .waits)]) :=
  h.attempt (if_pos hwaits)

theorem Logged.pop_dummy (h : Logged capacity q log) (hempty : q.in_ = q.out)
    (hquit : q.quit = true) : Logged capacity q (log ++ [(.pop, .popped .dummy)]) := by
  apply h.attempt
  unfold queueStep RingQueue.queuePop
  rw [if_neg (fun hwaits => by rw [hquit] at hwaits; cases hwaits.1), if_neg (not_not_intro hempty)]

theorem Logged.pop_event {ev : Event} (h : Logged capacity q log) (hne : q.in_ ≠ q.out)
    (hev : q.queue[q.out]? = some ev) :
    Logged capacity { q with out := (q.out + 1) % capacity } (log ++ [(.pop, .popped ev)]) := by
  apply h.attempt
  unfold queueStep RingQueue.queuePop
  rw [if_neg (fun hwaits => hne hwaits.2), if_pos hne, hev]

theorem Logged.push_waits (h : Logged capacity q log) (hfull : Full capacity q) (ev : Event) :
    Logged capacity q (log ++ [(.push ev, .waits)]) :=
  h.attempt (if_pos hfull)

theorem Logged.in_lt (h : Logged capacity q log) : q.in_ < q.queue.length := by
  have hlt := h.lossy.out_lt
  rw [h.lossy.in_zero, h.lossy.size]
  omega

theorem Logged.push_done (h : Logged capacity q log) (hroom : ¬ Full capacity q) (ev : Event) :
    Logged capacity { q with queue := q.queue.set q.in_ ev, out := (q.out + 1) % capacity }
      (log ++ [(.push ev, .done)]) :=
  h.attempt ((if_neg hroom).trans (if_pos h.in_lt))

theorem Logged.quit_done (h : Logged capacity q log) :
    Logged capacity { q with quit := true } (log ++ [(.setQuit, .done)]) := h.attempt rfl

theorem Logged.getElem_out (h : Logged capacity q log) : ∃ ev, q.queue[q.out]? = some ev := by
  have hlt := h.lossy.out_lt
  rw [← h.lossy.size] at hlt
  exact ⟨_, List.getElem?_eq_getElem hlt⟩

end Logged

theorem pop_allows (capacity : Nat) (t : T) (pc : PopPc) (ev : Event) (hawake : pc ≠ .asleep) :
    (linearization capacity).Allows t (.queuePop pc ev) (queuePop capacity t pc ev) := by
  cases pc with
  | lock | woken =>
    refine ⟨rfl, rfl, rfl, ?_⟩
    intro q log hev hlogged
    exact ⟨hev, hlogged⟩
  | test =>
    refine ⟨rfl, ?_⟩
    intro q log h
    obtain ⟨hev, hlogged⟩ := h
    by_cases hwaits : q.quit = false ∧ q.in_ = q.out
    · refine ⟨_, _, _, congrArg Except.ok (if_pos hwaits), rfl, ⟨rfl, .wait rfl⟩, hev,
        hlogged.pop_waits hwaits, hwaits.2⟩
    · refine ⟨_, _, _, congrArg Except.ok (if_neg hwaits), rfl, rfl, hev, ?_, ?_⟩
      · rwa [attempts_none, List.append_nil]
      · intro hempty
        cases hquit : q.quit with
        | true => rfl
        | false => exact absurd ⟨hquit, hempty⟩ hwaits
  | wait =>
    refine ⟨rfl, rfl, rfl, ?_⟩
    intro q log h
    exact ⟨h.2.1, h.1⟩
  | asleep => exact absurd rfl hawake
  | testIn =>
    refine ⟨rfl, ?_⟩
    intro q log h
    obtain ⟨rfl, hlogged, hquit⟩ := h
    by_cases hne : q.in_ ≠ q.out
    · refine ⟨_, _, _, congrArg Except.ok (if_pos hne), rfl, rfl, ?_, hne⟩
      rwa [attempts_none, List.append_nil]
    · have hempty : q.in_ = q.out := not_not.mp hne
      exact ⟨_, _, _, congrArg Except.ok (if_neg hne), rfl,
        ⟨rfl, .answer (by simp [linearization])⟩, hlogged.pop_dummy hempty (hquit hempty)⟩
  | take =>
    refine ⟨rfl, ?_⟩
    intro q log h
    obtain ⟨hlogged, hne⟩ := h
    obtain ⟨ev', hev⟩ := hlogged.getElem_out
    refine ⟨q, .queuePop .advance ev', ?_, rfl, rfl, hlogged, hne, hev⟩
    simp only [hev]
  | advance =>
    refine ⟨rfl, ?_⟩
    intro q log h
    obtain ⟨hlogged, hne, hev⟩ := h
    exact ⟨_, _, _, rfl, rfl, ⟨rfl, .answer (by simp [linearization])⟩, hlogged.pop_event hne hev⟩
  | broadcast => exact ⟨rfl, rfl, fun q log h => h⟩
  | unlock => exact ⟨rfl, rfl, rfl, fun q log h => ⟨h, trivial⟩⟩
  | leave => exact ⟨_, _, rfl, rfl, ⟨rfl, .return⟩, rfl, fun q log h => trivial⟩

theorem push_allows (capacity : Nat) (t : T) (pc : PushPc) (ev : Event) (hawake : pc ≠ .asleep) :
    (linearization capacity).Allows t (.queuePush pc ev) (queuePush capacity t pc ev) := by
  cases pc with
  | lock | woken => exact ⟨rfl, rfl, rfl, fun q log _ hlogged => hlogged⟩
  | test =>
    refine ⟨rfl, ?_⟩
    intro q log hlogged
    by_cases hfull : Full capacity q
    · exact ⟨_, _, _, congrArg Except.ok (if_pos hfull), rfl, ⟨rfl, .wait rfl⟩,
        hlogged.push_waits hfull ev, hfull⟩
    · refine ⟨_, _, _, congrArg Except.ok (if_neg hfull), rfl, rfl, ?_, hfull⟩
      rwa [attempts_none, List.append_nil]
  | wait => exact ⟨rfl, rfl, rfl, fun q log h => ⟨h.1, trivial⟩⟩
  | asleep => exact absurd rfl hawake
  | store =>
    refine ⟨rfl, ?_⟩
    intro q log h
    obtain ⟨hlogged, hroom⟩ := h
    exact ⟨_, _, if_pos hlogged.in_lt, rfl, rfl, q, hlogged, hroom, rfl⟩
  | advance =>
    refine ⟨rfl, ?_⟩
    intro q log h
    obtain ⟨q', hlogged, hroom, rfl⟩ := h
    exact ⟨_, _, _, rfl, rfl, ⟨rfl, .answer (by simp [linearization])⟩, hlogged.push_done hroom ev⟩
  | broadcast => exact ⟨rfl, rfl, fun q log h => h⟩
  | unlock => exact ⟨rfl, rfl, rfl, fun q log h => ⟨h, trivial⟩⟩
  | leave => exact ⟨_, _, rfl, rfl, ⟨rfl, .return⟩, rfl, fun q log h => trivial⟩

theorem is_quit_allows (capacity : Nat) (t : T) (pc : IsQuitPc) (quit : Bool) :
    (linearization capacity).Allows t (.isQuit pc quit) (isQuit t pc quit) := by
  cases pc with
  | lock => exact ⟨rfl, rfl, rfl, fun q log _ hlogged _ => hlogged⟩
  | read =>
    refine ⟨rfl, ?_⟩
    intro q log h
    exact ⟨_, _, _, rfl, rfl, ⟨rfl, .answer (by simp [linearization])⟩,
      fun _ => (h rfl).attempt rfl⟩
  | unlock => exact ⟨rfl, rfl, rfl, fun q log h => ⟨h rfl, by simp [linearization, Place.Knows,
      IsQuitPc.critical]⟩⟩
  | leave => exact ⟨_, _, rfl, rfl, ⟨rfl, .return⟩, rfl, fun q log h => trivial⟩

theorem set_quit_allows (capacity : Nat) (t : T) (pc : SetQuitPc) :
    (linearization capacity).Allows t (.setQuit pc) (setQuit t pc) := by
  cases pc with
  | lock => exact ⟨rfl, rfl, rfl, fun q log _ hlogged _ => hlogged⟩
  | store =>
    refine ⟨rfl, ?_⟩
    intro q log h
    exact ⟨_, _, _, rfl, rfl, ⟨rfl, .answer (by simp [linearization])⟩, fun _ => (h rfl).quit_done⟩
  | unlock => exact ⟨rfl, rfl, rfl, fun q log h => ⟨h rfl, by simp [linearization, Place.Knows,
      SetQuitPc.critical]⟩⟩
  | leave => exact ⟨_, _, rfl, rfl, ⟨rfl, .return⟩, rfl, fun q log h => trivial⟩

theorem enter_allows (capacity : Nat) (op : Move) :
    (enter op).holds = false ∧ (enter op).status = .calling op ∧
      ∀ q log, (enter op).Knows capacity q log := by
  cases op with
  | pop => exact ⟨rfl, rfl, fun q log => rfl⟩
  | push ev => exact ⟨rfl, rfl, fun q log => trivial⟩
  | isQuit | setQuit =>
    refine ⟨rfl, rfl, ?_⟩
    intro q log hcritical
    cases hcritical

theorem woken_cases {capacity : Nat} {t : T} {p p' : Place}
    (h : (program capacity).woken t p = some p') :
    (∃ ev, p = .queuePop .asleep ev ∧ p' = .queuePop .woken ev) ∨
      ∃ ev, p = .queuePush .asleep ev ∧ p' = .queuePush .woken ev := by
  cases p with
  | queuePop pc ev =>
    simp only [program] at h
    split at h
    · rename_i hpc
      cases h
      exact .inl ⟨ev, by rw [hpc], rfl⟩
    · cases h
  | queuePush pc ev =>
    simp only [program] at h
    split at h
    · rename_i hpc
      cases h
      exact .inr ⟨ev, by rw [hpc], rfl⟩
    · cases h
  | idle | isQuit pc quit | setQuit pc => cases h

theorem linearization_valid (capacity : Nat) :
    (linearization capacity).Valid (program (T := T) capacity) := by
  refine ⟨?_, ?_, ?_⟩
  · intro op t p hawake
    cases p with
    | idle =>
      obtain ⟨hholds, hstatus, hknows⟩ := enter_allows capacity op
      refine ⟨_, _, rfl, hholds, ⟨rfl, ?_⟩, rfl, fun q log _ => hknows q log⟩
      rw [show (linearization capacity).status (enter op) = .calling op from hstatus]
      exact .call op
    | queuePop pc ev =>
      apply pop_allows
      intro hpc
      simp [program, hpc] at hawake
    | queuePush pc ev =>
      apply push_allows
      intro hpc
      simp [program, hpc] at hawake
    | isQuit pc quit => exact is_quit_allows capacity t pc quit
    | setQuit pc => exact set_quit_allows capacity t pc
  · intro t p p' hw
    rcases woken_cases hw with ⟨ev, rfl, rfl⟩ | ⟨ev, rfl, rfl⟩
    · exact ⟨rfl, rfl, rfl, fun q log h => h⟩
    · exact ⟨rfl, rfl, rfl, fun q log h => h⟩
  · intro p q q' log log' hholds h
    cases p with
    | idle => exact h
    | queuePop pc ev => cases pc <;> first | exact h | cases hholds
    | queuePush pc ev => cases pc <;> first | exact h | cases hholds
    | isQuit pc quit | setQuit pc =>
      intro hcritical
      rw [show pc.critical = false from hholds] at hcritical
      cases hcritical

/-! ## Every run -/

/-- The threads see the ring with atomic attempts: a thread makes one call after the other, and
the attempts, each between its call and its return, lead to the ring. -/
structure Linearized [DecidableEq T] (capacity : Nat) (s : State T)
    (past : List (T × Label Move Outcome)) : Prop where
  calls : ∀ t, History (fun out => out = .waits) (part t past) (s.place t).status
  attempts : ∃ q, Follows (queueStep capacity) (init capacity) (attempts past) q ∧
    (s.owner = none → s.data = q)
  owner : ∀ t, s.owner = some t ↔ (s.place t).holds = true

theorem Place.Knows.logged {capacity : Nat} {q : Queue} {log : List (Move × Outcome)} {p : Place}
    (h : p.Knows capacity q log) (hholds : p.holds = true) : ∃ q, Logged capacity q log := by
  cases p with
  | idle => cases hholds
  | queuePop pc ev =>
    cases pc with
    | test => exact ⟨q, h.2⟩
    | wait | testIn => exact ⟨q, h.2.1⟩
    | take | advance => exact ⟨q, h.1⟩
    | broadcast | unlock => exact ⟨q, h⟩
    | lock | asleep | woken | leave => cases hholds
  | queuePush pc ev =>
    cases pc with
    | test | broadcast | unlock => exact ⟨q, h⟩
    | wait | store => exact ⟨q, h.1⟩
    | advance =>
      obtain ⟨q', hlogged, -⟩ := h
      exact ⟨q', hlogged⟩
    | lock | asleep | woken | leave => cases hholds
  | isQuit pc quit | setQuit pc => exact ⟨q, h hholds⟩

section Runs
variable [DecidableEq T]

abbrev Inv (capacity : Nat) (s : State T) (past : List (T × Label Move Outcome)) : Prop :=
  (linearization capacity).outline (ε := CMemory.Fault).Inv s past

theorem inv_start {capacity : Nat} (h : 0 < capacity) :
    Inv capacity (start capacity : State T) [] :=
  Linearization.inv_idle rfl (fun _ => ⟨rfl, rfl, trivial⟩) (logged_init h)

theorem Inv.linearized {capacity : Nat} {s : State T} {past : List (T × Label Move Outcome)}
    (h : Inv capacity s past) : Linearized capacity s past where
  calls t := (h.asserts t).1
  attempts := by
    cases hown : s.owner with
    | none =>
      have hlogged : Logged capacity s.data (attempts past) := h.free hown
      exact ⟨s.data, hlogged.follows, fun _ => rfl⟩
    | some t =>
      have hknows : (s.place t).Knows capacity s.data (attempts past) := (h.asserts t).2
      obtain ⟨q, hlogged⟩ := hknows.logged ((h.owner t).mp hown)
      exact ⟨q, hlogged.follows, fun hfree => (by cases hfree)⟩
  owner := h.owner

variable [Fintype T]

/-- Any threads, any calls, any order of their steps and any spurious wake-up. -/
theorem linearizable {capacity : Nat} (h : 0 < capacity) (moves : List (Monitor.Move Move T)) :
    ∃ s outs, run (program capacity).step (start capacity) moves = .ok (s, outs) ∧
      Linearized capacity s (shown outs) := by
  obtain ⟨s, outs, hrun, hinv⟩ := (linearization_valid capacity).run_ok (inv_start h) moves
  exact ⟨s, outs, hrun, Inv.linearized hinv⟩

end Runs

/-- A pop that waits until the push of the other thread. -/
theorem linearizable_two : 0 < 32 ∧
    ∃ s outs, run (program 32).step (start 32)
        (List.replicate 4 (.turn false .pop fun _ => true) ++
          List.replicate 7 (.turn true (.push ⟨.keyboard, .compute, 103⟩) fun _ => true)) =
        .ok (s, outs) ∧
      Linearized 32 s (shown outs) :=
  ⟨by decide, linearizable (by decide) _⟩

end Prgsem.RingQueue.Concurrent
