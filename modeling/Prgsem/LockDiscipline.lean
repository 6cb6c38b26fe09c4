import Prgsem.KeyboardLoop

/-!
# The mutex of the event queue

The operations of `keyboard_thread` on `event_queue.mtx`; no other thread locks it.
Each round begins with an unlock and ends with a lock, so that the first unlock
finds the mutex free and the thread exits with the mutex locked.
-/

namespace Prgsem.KeyboardLoop

open CMemory Run
set_option autoImplicit false

/-- The thread holds the mutex after these operations. -/
def Held (ops : List MutexOp) : Prop := ops.getLast? = some .lock

/-- The mutex is unlocked only where it is held, and locked only where it is not. -/
structure Disciplined (ops : List MutexOp) : Prop where
  unlock_held : ∀ before after, ops = before ++ .unlock :: after → Held before
  lock_free : ∀ before after, ops = before ++ .lock :: after → ¬ Held before

def mutexOps (outs : List (Option Round)) : List MutexOp := (shown outs).flatMap Round.mutex

/-- The operations of every run are in order, and none is missing when the thread
exits, which it does once `quit` is set. -/
def LockDiscipline (input : List UInt8) : Prop :=
  ∀ moves, Along step Fresh (start input) moves →
    ∀ t outs, run step (start input) moves = .ok (t, outs) →
      Disciplined (mutexOps outs) ∧ (t.q.quit = true → ¬ Held (mutexOps outs))

theorem not_held_nil : ¬ Held [] := by
  intro h
  cases h

theorem body_ops {a : Addr} {junk : Option Addr} {s s' : State} {round : Round}
    (h : body a junk s = .ok (s', round)) : round.mutex = roundOps := by
  rcases hget : getchar s.input with ⟨ch, rest⟩
  simp only [body, hget] at h
  split at h
  · cases h
    rfl
  · obtain ⟨⟨q, ops⟩, hpush, hround⟩ := bind_ok_iff.mp h
    obtain ⟨q', -, hops⟩ := bind_ok_iff.mp hpush
    cases hops
    cases hround
    rfl

theorem step_ops {s s' : State} {move : Move} {out : Option Round}
    (h : step s move = .ok (s', out)) : ∀ round, out = some round → round.mutex = roundOps := by
  rintro round rfl
  cases move with
  | main =>
    obtain ⟨taken, -, hout⟩ := bind_ok_iff.mp h
    cases hout
  | keyboard a junk =>
    by_cases hquit : s.q.quit = true
    · rw [step, if_pos hquit] at h
      cases h
    · rw [step, if_neg hquit] at h
      obtain ⟨⟨s₁, round₁⟩, hbody, hout⟩ := bind_ok_iff.mp h
      cases hout
      exact body_ops hbody

/-- Every round does the same with the mutex. -/
theorem run_ops {s t : State} {moves : List Move} {outs : List (Option Round)}
    (h : run step s moves = .ok (t, outs)) :
    mutexOps outs = (List.replicate (shown outs).length roundOps).flatten := by
  have hall : ∀ round ∈ shown outs, round.mutex = roundOps := by
    intro round hmem
    obtain ⟨out, hout, hround⟩ := List.mem_filterMap.mp hmem
    exact run_outputs (fun _ _ _ _ => step_ops) h out hout round hround
  rw [mutexOps, List.flatMap_def, List.map_congr_left hall, List.map_const']

/-- After every round the thread holds the mutex, and its first unlock was of a free one. -/
theorem rounds_ops (n : Nat) :
    ¬ Disciplined (List.replicate (n + 1) roundOps).flatten ∧
      Held (List.replicate (n + 1) roundOps).flatten := by
  constructor
  · intro h
    exact not_held_nil (h.unlock_held [] _ rfl)
  · rw [List.replicate_succ', List.flatten_append, List.flatten_singleton, Held,
      List.getLast?_append_of_ne_nil _ (by simp [roundOps])]
    rfl

theorem first_round (input : List UInt8) :
    ∃ s' round, step (start input) (.keyboard 0 none) = .ok (s', some round) := by
  obtain ⟨ch, rest, hget, -⟩ := getchar_cases input
  by_cases hc : UInt8.ofInt ch = 'q'.toUInt8
  · exact ⟨_, _, step_quit none rfl hget hc⟩
  · have hroom : (EventQueue.empty fun _ => none).size < intMax := by decide
    obtain ⟨q', hstep, -⟩ := step_push none (represents_empty _) rfl hget hc hroom rfl
    exact ⟨_, _, hstep⟩

/-- The first round breaks the discipline whatever the keys, and when the thread
exits it holds the mutex that `main` destroys. -/
theorem never_disciplined (input : List UInt8) : ¬ LockDiscipline input ∧
    ∀ moves t outs, run step (start input) moves = .ok (t, outs) → shown outs ≠ [] →
      ¬ Disciplined (mutexOps outs) ∧ Held (mutexOps outs) := by
  have hbroken : ∀ moves t outs, run step (start input) moves = .ok (t, outs) →
      shown outs ≠ [] → ¬ Disciplined (mutexOps outs) ∧ Held (mutexOps outs) := by
    intro moves t outs hrun hne
    rw [run_ops hrun]
    cases hshown : shown outs with
    | nil => exact absurd hshown hne
    | cons round rounds => exact rounds_ops rounds.length
  refine ⟨?_, hbroken⟩
  intro h
  obtain ⟨s', round, hstep⟩ := first_round input
  have hrun : run step (start input) [.keyboard 0 none] = .ok (s', [some round]) :=
    run_cons hstep rfl
  have hfresh : Along step Fresh (start input) [.keyboard 0 none] := along_singleton rfl
  exact (hbroken _ s' _ hrun (by simp [shown])).1 (h _ hfresh s' _ hrun).1

/-- The keys `g` and `q`: the thread exits with the mutex locked. -/
theorem exits_locked : ¬ LockDiscipline [103, 113] := by
  intro h
  have hfresh : Along step Fresh (start [103, 113]) [.keyboard 0 none, .keyboard 1 none] :=
    along_cons rfl rfl (along_singleton rfl)
  exact (h _ hfresh _ _ rfl).2 rfl rfl

end Prgsem.KeyboardLoop
