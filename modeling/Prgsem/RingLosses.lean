import Prgsem.RingQueue

/-!
# What the earlier event queue loses

`queue_push` stores at `in` and advances `out`, and nothing advances `in`. So only the
first slot is ever written, and a pop reads any slot but that one: what is pushed is never
handed out, and `queue_cleanup` finds nothing to free.
-/

namespace Prgsem.RingQueue

open CMemory Run
set_option autoImplicit false

/-- The loop of `queue_cleanup` for at most `n` rounds; also the pointers it frees. -/
def cleanupLoop (capacity : Nat) : Nat → Queue → Except Fault (Queue × List UInt64)
  | 0, q => .ok (q, [])
  | n + 1, q =>
    if q.in_ ≠ q.out then do
      let (q, outcome) ← queuePop capacity q
      let freed := match outcome with
        | .popped ev => if ev.data ≠ 0 then [ev.data] else []
        | _ => []
      let (q, rest) ← cleanupLoop capacity n q
      return (q, freed ++ rest)
    else
      .ok (q, [])

/-- Every round advances `out`, so it meets `in` before it has gone around. -/
def queueCleanup (capacity : Nat) (q : Queue) : Except Fault (Queue × List UInt64) :=
  cleanupLoop capacity capacity q

/-- Only the first slot is used, and the pops skip it. -/
structure Lossy (capacity : Nat) (q : Queue) : Prop where
  size : q.queue.length = capacity
  in_zero : q.in_ = 0
  out_lt : q.out < capacity
  rest : ∀ k, 0 < k → k < capacity → q.queue[k]? = some .zero

theorem lossy_init {capacity : Nat} (h : 0 < capacity) : Lossy capacity (init capacity) where
  size := List.length_replicate
  in_zero := rfl
  out_lt := h
  rest := by
    intro k _ hk
    simp [init, hk]

section Step
variable {capacity : Nat} {q : Queue}

theorem Lossy.advance (h : Lossy capacity q) :
    Lossy capacity { q with out := (q.out + 1) % capacity } where
  size := h.size
  in_zero := h.in_zero
  out_lt := Nat.mod_lt _ (Nat.lt_of_le_of_lt (Nat.zero_le _) h.out_lt)
  rest := h.rest

/-- A pop that does not find the queue empty takes the content of a slot never written. -/
theorem Lossy.pop_ok (h : Lossy capacity q) (hne : q.in_ ≠ q.out) :
    queuePop capacity q = .ok ({ q with out := (q.out + 1) % capacity }, .popped .zero) := by
  have hzero := h.in_zero
  have hslot := h.rest q.out (by omega) h.out_lt
  unfold queuePop
  rw [if_neg (fun hwaits => hne hwaits.2), if_pos hne, hslot]

theorem Lossy.push_ok (h : Lossy capacity q) (ev : Event) :
    ∃ q' out, queuePush capacity ev q = .ok (q', out) ∧ Lossy capacity q' ∧
      ∀ ev', out ≠ .popped ev' := by
  unfold queuePush
  by_cases hfull : (q.in_ + 1) % capacity = q.out
  · exact ⟨q, .waits, if_pos hfull, h, by simp⟩
  · have hin : q.in_ < q.queue.length := by
      rw [h.in_zero, h.size]
      exact Nat.lt_of_le_of_lt (Nat.zero_le _) h.out_lt
    rw [if_neg hfull, if_pos hin]
    refine ⟨_, .done, rfl, ⟨?_, h.in_zero, h.advance.out_lt, ?_⟩, by simp⟩
    · rw [List.length_set, h.size]
    · intro k hpos hk
      rw [List.getElem?_set_ne (by rw [h.in_zero]; omega)]
      exact h.rest k hpos hk

theorem queuePop_empty (h : q.in_ = q.out) :
    ∃ out, queuePop capacity q = .ok (q, out) ∧ ∀ ev, out = .popped ev → ev = .dummy := by
  unfold queuePop
  by_cases hquit : q.quit = false
  · exact ⟨.waits, if_pos ⟨hquit, h⟩, by simp⟩
  · rw [if_neg (fun hwaits => hquit hwaits.1), if_neg (not_not_intro h)]
    exact ⟨.popped .dummy, rfl, fun ev hev => (Outcome.popped.inj hev).symm⟩

theorem Lossy.step (h : Lossy capacity q) (move : Move) :
    ∃ q' out, queueStep capacity q move = .ok (q', out) ∧ Lossy capacity q' ∧
      ∀ ev, out = .popped ev → ev = .zero ∨ ev = .dummy := by
  cases move with
  | push ev =>
    obtain ⟨q', out, hpush, hlossy, hnone⟩ := h.push_ok ev
    exact ⟨q', out, hpush, hlossy, fun ev' hev => absurd hev (hnone ev')⟩
  | pop =>
    by_cases hne : q.in_ = q.out
    · obtain ⟨out, hpop, hevent⟩ := queuePop_empty hne
      exact ⟨q, out, hpop, h, fun ev hev => .inr (hevent ev hev)⟩
    · exact ⟨_, _, h.pop_ok hne, h.advance, fun ev hev => .inl (Outcome.popped.inj hev).symm⟩
  | isQuit => exact ⟨q, .quit q.quit, rfl, h, by simp⟩
  | setQuit => exact ⟨_, .done, rfl, ⟨h.size, h.in_zero, h.out_lt, h.rest⟩, by simp⟩

theorem cleanupLoop_empty (h : q.in_ = q.out) (n : Nat) :
    cleanupLoop capacity n q = .ok (q, []) := by
  cases n with
  | zero => rfl
  | succ n => exact if_neg (not_not_intro h)

/-- The bound on the rounds is the distance from `out` around the end of the ring to `in`. -/
theorem Lossy.cleanup (h : Lossy capacity q) (n : Nat) (hn : capacity ≤ n + q.out) :
    ∃ q', cleanupLoop capacity n q = .ok (q', []) ∧ q'.in_ = q'.out := by
  induction n generalizing q with
  | zero =>
    have hlt := h.out_lt
    omega
  | succ n ih =>
    by_cases hne : q.in_ = q.out
    · exact ⟨q, cleanupLoop_empty hne _, hne⟩
    · have hlt := h.out_lt
      have hrest : ∃ q', cleanupLoop capacity n { q with out := (q.out + 1) % capacity } =
          .ok (q', []) ∧ q'.in_ = q'.out := by
        by_cases hlast : q.out + 1 = capacity
        · have hmeet : q.in_ = (q.out + 1) % capacity := by
            rw [hlast, Nat.mod_self, h.in_zero]
          exact ⟨_, cleanupLoop_empty hmeet n, hmeet⟩
        · have hnext : (q.out + 1) % capacity = q.out + 1 := Nat.mod_eq_of_lt (by omega)
          exact ih h.advance (by simp only [hnext]; omega)
      obtain ⟨q', hloop, hmeet⟩ := hrest
      refine ⟨q', ?_, hmeet⟩
      simp only [cleanupLoop, ne_eq, hne, not_false_eq_true, if_true, h.pop_ok hne, ok_bind, hloop]
      rfl

end Step

/-- In every run, whatever is pushed: a pop hands out an event that nobody pushed, the
content of static memory or the one made up for the end, and `queue_cleanup` ends
and frees nothing, so that every message still queued is lost with its memory. -/
theorem never_delivers {capacity : Nat} (h : 0 < capacity) (moves : List Move) :
    ∃ q outs, run (queueStep capacity) (init capacity) moves = .ok (q, outs) ∧
      (∀ ev, .popped ev ∈ outs → ev = .zero ∨ ev = .dummy) ∧
      ∃ q', queueCleanup capacity q = .ok (q', []) ∧ q'.in_ = q'.out := by
  obtain ⟨q, outs, hrun, hlossy, hevents⟩ := run_invariant
    (fun past q => Lossy capacity q ∧
      ∀ ev, Outcome.popped ev ∈ past → ev = Event.zero ∨ ev = Event.dummy)
    (fun past q move hinv => by
      obtain ⟨hlossy, hevents⟩ := hinv
      obtain ⟨q', out, hstep, hlossy', hevent⟩ := hlossy.step move
      refine ⟨q', out, hstep, hlossy', ?_⟩
      intro ev hmem
      rcases List.mem_append.mp hmem with hmem | hmem
      · exact hevents ev hmem
      · exact hevent ev (List.mem_singleton.mp hmem).symm)
    ⟨lossy_init h, by simp⟩ moves
  exact ⟨q, outs, hrun, hevents, hlossy.cleanup capacity (by omega)⟩

/-- A message is pushed, popped for and never seen. -/
theorem never_delivers_message : 0 < 32 ∧
    ∃ q outs, run (queueStep 32) (init 32) [.push ⟨.nucleo, .serial, 4096⟩, .pop] =
        .ok (q, outs) ∧
      (∀ ev, .popped ev ∈ outs → ev = .zero ∨ ev = .dummy) ∧
      ∃ q', queueCleanup 32 q = .ok (q', []) ∧ q'.in_ = q'.out :=
  ⟨by decide, never_delivers (by decide) _⟩

end Prgsem.RingQueue
