import Prgsem.QueueInterleaving

/-!
# The ownership of events

`keyboard_thread` allocates an event for every key, `main_thread` pops events and
frees them, and `main` frees what is left once both threads have ended. The log
of a run records the allocations and the calls of `free`, each with the queue at
that moment. Addresses may be used again after they have been freed.
-/

namespace Prgsem.Ownership

open CMemory Run
set_option autoImplicit false

/-- Where `main_thread` is: about to open the port, about to evaluate
`!event_queue.quit`, in the body of the loop before its dealings with the queue, or
returned. At `cleaned` `queue_cleanup` has returned, too. -/
inductive Phase where
  | opening
  | test
  | body
  | ended
  | cleaned
  deriving DecidableEq, Repr

structure System where
  q : EventQueue
  phase : Phase

/-- `open` in `main_thread` returns `fd`; `keyboard_thread` handles the key `c`, for
which an event would be allocated at `a`; `main_thread` tests its loop condition or
takes an event; `main` makes one round of `queue_cleanup` after joining the threads. -/
inductive Move where
  | opened (fd : Int)
  | key (a : Addr) (junk : Option Addr) (c : UInt8)
  | main
  | cleanup

inductive Alloc where
  | malloc (a : Addr)
  | free (ev : Option Addr) (q : EventQueue)

/-- The queue part of the loop body of `main_thread`: the key that is handled,
read before the event is freed. -/
def takeEvent (q : EventQueue) : Except Fault (Option UInt8 × EventQueue × List Alloc) :=
  if 0 < q.size then do
    let first ← deref q.heap q.start
    if first.type = .keyboard then
      let (ev, q) ← queuePop q
      let popped ← deref q.heap ev
      let heap ← free q.heap ev
      return (some popped.param, { q with heap := heap }, [.free ev q])
    else
      return (none, q, [])
  else
    return (none, q, [])

theorem takeEvent_nil {q : EventQueue} (h : Represents q []) : takeEvent q = .ok (none, q, []) := by
  have hsize : ¬ 0 < q.size := fun hpos => h.size_pos_iff.mp hpos rfl
  simp only [takeEvent, if_neg hsize]
  rfl

theorem takeEvent_cons {q : EventQueue} {x : Item} {l : List Item} (h : Represents q (x :: l))
    (htype : x.content.type = .keyboard) :
    ∃ q' log, takeEvent q = .ok (some x.content.param, q', log) ∧ Represents q' l ∧
      q'.quit = q.quit := by
  have hsize : 0 < q.size := h.size_pos_iff.mpr (List.cons_ne_nil x l)
  obtain ⟨hstart, first, hfirst, hcontent, -⟩ := h.uncons
  obtain ⟨q', e, hpop, hheap, hquit, -, -, he, hparam, hfree, hrep⟩ := h.pop_free
  have hfirsttype : first.type = .keyboard := (congrArg Content.type hcontent).trans htype
  have hkey : e.param = x.content.param := congrArg Content.param hparam
  refine ⟨_, [.free (some x.addr) q'], ?_, hrep, hquit⟩
  simp only [takeEvent, if_pos hsize, hstart, deref_some hfirst, ok_bind, if_pos hfirsttype, hpop,
    deref_some he, hfree, hkey]
  rfl

/-- With no push in between, the steps of the interleaved model do the same, and fail where
this fails. -/
theorem takeEvent_steps (q : EventQueue) :
    ∃ n, (run Interleaving.step ⟨q, .test⟩ (List.replicate n .main)).map Prod.fst =
      (takeEvent q).map fun taken => ⟨taken.2.1, .test⟩ := by
  by_cases hsize : 0 < q.size
  · cases hfirst : deref q.heap q.start with
    | error e =>
      refine ⟨2, ?_⟩
      simp only [List.replicate, run, Interleaving.step, takeEvent, if_pos hsize, hfirst,
        error_bind]
      rfl
    | ok first =>
      by_cases htype : first.type = .keyboard
      · refine ⟨7, ?_⟩
        simp only [List.replicate, run, Interleaving.step, takeEvent, queuePop, if_pos hsize,
          hfirst, ok_bind, if_pos htype, pure, Except.pure]
        cases hfree : free q.heap q.start with
        | error e => rfl
        | ok heap => rfl
      · refine ⟨2, ?_⟩
        simp only [List.replicate, run, Interleaving.step, takeEvent, if_pos hsize, hfirst, ok_bind,
          if_neg htype, pure, Except.pure]
        rfl
  · refine ⟨1, ?_⟩
    simp only [List.replicate, run, Interleaving.step, takeEvent, if_neg hsize]
    rfl

/-- A move that is not possible in a state leaves it as it is. Both threads end
because of `quit` alone, except for a `main_thread` that has no port. -/
def step (s : System) : Move → Except Fault (System × List Alloc)
  | .opened fd =>
    match s.phase with
    | .opening => .ok ({ s with phase := if fd < 0 then .ended else .test }, [])
    | _ => .ok (s, [])
  | .key a junk c =>
    if s.q.quit then .ok (s, [])
    else if c = 'q'.toUInt8 then .ok ({ s with q := { s.q with quit := true } }, [])
    else do
      let q ← keyboardPush a junk c s.q
      return ({ s with q := q }, [.malloc a])
  | .main =>
    match s.phase with
    | .test => .ok ({ s with phase := if s.q.quit then .ended else .body }, [])
    | .body => do
      let (_, q, log) ← takeEvent s.q
      return (⟨q, .test⟩, log)
    | _ => .ok (s, [])
  | .cleanup =>
    if s.phase = .ended ∧ s.q.quit then
      if 0 < s.q.size then do
        let (ev, q) ← queuePop s.q
        let heap ← free q.heap ev
        return (⟨{ q with heap := heap }, .ended⟩, [.free ev q])
      else
        .ok (⟨s.q, .cleaned⟩, [])
    else
      .ok (s, [])

def start (heap : Heap) : System := ⟨EventQueue.empty heap, .opening⟩

/-- The key makes an event: `quit` is not set, and the key does not set it. -/
def Pushes (s : System) (c : UInt8) : Prop := s.q.quit = false ∧ c ≠ 'q'.toUInt8

/-- `malloc` returns the address of no event that is allocated. -/
def Fresh (s : System) : Move → Prop
  | .key a _ c => Pushes s c → s.q.heap a = none
  | _ => True

/-- A push finds the counter of the queue below `INT_MAX`. -/
def Room (s : System) : Move → Prop
  | .key _ _ c => Pushes s c → s.q.size < intMax
  | _ => True

def mallocs (log : List Alloc) : List Addr :=
  log.filterMap fun
    | .malloc a => some a
    | .free _ _ => none

def frees (log : List Alloc) : List Addr :=
  log.filterMap fun
    | .malloc _ => none
    | .free ev _ => ev

/-- A call of `free` is right when the event is allocated and the queue no longer
leads to it. -/
def Alloc.Sound : Alloc → Prop
  | .malloc _ => True
  | .free ev q => ∃ a l, ev = some a ∧ (q.heap a).isSome ∧ Chain (link q.heap) q.start l ∧ a ∉ l

/-- The events allocated are, in order, the events freed followed by the events
that the queue leads to; all others are as they were at the start. -/
structure Owned (heap : Heap) (log : List Alloc) (s : System) : Prop where
  sound : ∀ entry ∈ log, entry.Sound
  accounted : ∃ queued, Chain (link s.q.heap) s.q.start queued ∧
    mallocs log = frees log ++ queued ∧ (∀ a ∈ queued, (s.q.heap a).isSome) ∧
    ∀ a, a ∉ queued → s.q.heap a = heap a
  cleaned : s.phase = .cleaned →
    s.q.size = 0 ∧ s.q.start = none ∧ mallocs log = frees log ∧ s.q.heap = heap

@[simp] theorem mallocs_append (log log' : List Alloc) :
    mallocs (log ++ log') = mallocs log ++ mallocs log' := by
  simp [mallocs]

@[simp] theorem frees_append (log log' : List Alloc) :
    frees (log ++ log') = frees log ++ frees log' := by
  simp [frees]

/-! ## The invariant -/

structure Inv (heap : Heap) (log : List Alloc) (s : System) (l : List Item) : Prop where
  represents : Represents s.q l
  sound : ∀ entry ∈ log, entry.Sound
  balance : mallocs log = frees log ++ addrs l
  fresh : ∀ a ∈ addrs l, heap a = none
  rest : ∀ a, a ∉ addrs l → s.q.heap a = heap a
  quit : s.phase = .cleaned → s.q.quit = true ∧ l = []

section Inv
variable {heap : Heap} {log : List Alloc} {s : System} {l : List Item}

theorem inv_start (heap : Heap) : Inv heap [] (start heap) [] where
  represents := represents_empty heap
  sound := by simp
  balance := rfl
  fresh := by simp [addrs]
  rest := by simp [start, EventQueue.empty]
  quit := by simp [start]

theorem Inv.owned (h : Inv heap log s l) : Owned heap log s where
  sound := h.sound
  accounted := by
    refine ⟨addrs l, h.represents.chain, h.balance, ?_, h.rest⟩
    intro a ha
    obtain ⟨x, hx, rfl⟩ := List.mem_map.mp ha
    obtain ⟨e, he, -⟩ := h.represents.exists_event hx
    rw [he]
    rfl
  cleaned := by
    intro hphase
    obtain ⟨-, rfl⟩ := h.quit hphase
    have hbalance := h.balance
    refine ⟨h.represents.count, h.represents.start_eq_none_iff.mpr rfl, ?_, ?_⟩
    · simpa [addrs] using hbalance
    · funext a
      exact h.rest a (by simp [addrs])

theorem Inv.idle (h : Inv heap log s l) {phase : Phase}
    (hphase : phase = .cleaned → s.q.quit = true ∧ l = []) : Inv heap log ⟨s.q, phase⟩ l :=
  ⟨h.represents, h.sound, h.balance, h.fresh, h.rest, hphase⟩

theorem Inv.push (h : Inv heap log s l) (hquit : s.q.quit = false) {a : Addr}
    (junk : Option Addr) (c : UInt8) (hfresh : s.q.heap a = none) (hroom : s.q.size < intMax) :
    ∃ q', keyboardPush a junk c s.q = .ok q' ∧
      Inv heap (log ++ [.malloc a]) ⟨q', s.phase⟩ (l ++ [⟨a, keyContent c⟩]) := by
  have hnotin := h.represents.not_mem_of_free hfresh
  obtain ⟨q', hpush, hrep, -, -, -, hframe⟩ := h.represents.keyboardPush junk c hroom hfresh
  refine ⟨q', hpush, hrep, ?_, ?_, ?_, ?_, ?_⟩
  · intro entry hentry
    rcases List.mem_append.mp hentry with hentry | hentry
    · exact h.sound entry hentry
    · cases List.mem_singleton.mp hentry
      trivial
  · rw [mallocs_append, frees_append, h.balance, addrs_append]
    simp [mallocs, frees, addrs]
  · intro b hb
    rw [addrs_append, List.mem_append] at hb
    rcases hb with hb | hb
    · exact h.fresh b hb
    · cases List.mem_singleton.mp hb
      rw [← h.rest a hnotin, hfresh]
  · intro b hb
    simp only [addrs_append, List.mem_append, not_or] at hb
    rw [hframe b hb.1 (by simpa [addrs] using hb.2), h.rest b hb.1]
  · intro hphase
    rw [(h.quit hphase).1] at hquit
    cases hquit

theorem Inv.pop_free {x : Item} (h : Inv heap log s (x :: l)) :
    ∃ q' e heap', queuePop s.q = .ok (some x.addr, q') ∧ q'.heap x.addr = some e ∧
      free q'.heap (some x.addr) = .ok heap' ∧ ∀ phase, phase ≠ .cleaned →
        Inv heap (log ++ [.free (some x.addr) q']) ⟨{ q' with heap := heap' }, phase⟩ l := by
  obtain ⟨q', e, hpop, hheap, -, hrep, hnotin, he, -, hfree, hrep'⟩ := h.represents.pop_free
  have hfresh : ∀ a ∈ x.addr :: addrs l, heap a = none := h.fresh
  have hrest : ∀ a, a ∉ x.addr :: addrs l → s.q.heap a = heap a := h.rest
  refine ⟨q', e, _, hpop, he, hfree, ?_⟩
  intro phase hphase
  refine ⟨hrep', ?_, ?_, ?_, ?_, fun hcleaned => absurd hcleaned hphase⟩
  · intro entry hentry
    rcases List.mem_append.mp hentry with hentry | hentry
    · exact h.sound entry hentry
    · cases List.mem_singleton.mp hentry
      exact ⟨x.addr, addrs l, rfl, by rw [he]; rfl, hrep.chain, hnotin⟩
  · rw [mallocs_append, frees_append, h.balance]
    simp [mallocs, frees, addrs]
  · exact fun a ha => hfresh a (List.mem_cons_of_mem _ ha)
  · intro a ha
    by_cases hax : a = x.addr
    · subst hax
      exact (Function.update_self _ _ _).trans (hfresh x.addr List.mem_cons_self).symm
    · have hne := Function.update_of_ne hax none q'.heap
      rw [hheap] at hne
      simp only [hheap, hne]
      exact hrest a (by simp [hax, ha])

theorem Inv.takeEvent (h : Inv heap log s l) (phase : Phase) (hphase : phase ≠ .cleaned) :
    ∃ got q' entries l', takeEvent s.q = .ok (got, q', entries) ∧
      Inv heap (log ++ entries) ⟨q', phase⟩ l' := by
  have idle : Inv heap (log ++ []) ⟨s.q, phase⟩ l := by
    rw [List.append_nil]
    exact h.idle fun hcleaned => absurd hcleaned hphase
  cases l with
  | nil =>
    exact ⟨none, s.q, [], [], takeEvent_nil h.represents, idle⟩
  | cons x l =>
    have hsize : 0 < s.q.size := h.represents.size_pos_iff.mpr (List.cons_ne_nil x l)
    obtain ⟨hstart, first, hfirst, -⟩ := h.represents.uncons
    by_cases htype : first.type = .keyboard
    · obtain ⟨q', e, heap', hpop, he, hfree, hinv⟩ := h.pop_free
      refine ⟨some e.param, _, _, l, ?_, hinv phase hphase⟩
      simp only [Ownership.takeEvent, if_pos hsize, hstart, deref_some hfirst, ok_bind,
        if_pos htype, hpop, deref_some he, hfree]
      rfl
    · refine ⟨none, s.q, [], x :: l, ?_, idle⟩
      simp only [Ownership.takeEvent, if_pos hsize, hstart, deref_some hfirst, ok_bind,
        if_neg htype]
      rfl

theorem Inv.stay (h : Inv heap log s l) : Inv heap (log ++ []) s l := by
  rw [List.append_nil]
  exact h

theorem Inv.key_step {q : EventQueue} {phase : Phase} (h : Inv heap log ⟨q, phase⟩ l) {a : Addr}
    (junk : Option Addr) (c : UInt8) (hfresh : Fresh ⟨q, phase⟩ (.key a junk c))
    (hroom : Room ⟨q, phase⟩ (.key a junk c)) :
    ∃ s' entries l', step ⟨q, phase⟩ (.key a junk c) = .ok (s', entries) ∧
      Inv heap (log ++ entries) s' l' := by
  by_cases hquit : q.quit = true
  · refine ⟨_, _, l, ?_, h.stay⟩
    simp only [Ownership.step, if_pos hquit]
  · by_cases hc : c = 'q'.toUInt8
    · refine ⟨⟨{ q with quit := true }, phase⟩, [], l, ?_, ?_⟩
      · simp only [Ownership.step, if_neg hquit, if_pos hc]
      · rw [List.append_nil]
        exact ⟨h.represents.withQuit true, h.sound, h.balance, h.fresh, h.rest,
          fun hcleaned => ⟨rfl, (h.quit hcleaned).2⟩⟩
    · have hpushes : Pushes ⟨q, phase⟩ c := ⟨by simpa using hquit, hc⟩
      obtain ⟨q', hpush, hinv⟩ := h.push hpushes.1 junk c (hfresh hpushes) (hroom hpushes)
      refine ⟨_, _, _, ?_, hinv⟩
      simp only [Ownership.step, if_neg hquit, if_neg hc, hpush, ok_bind]
      rfl

theorem Inv.cleanup_step {q : EventQueue} {phase : Phase} (h : Inv heap log ⟨q, phase⟩ l) :
    ∃ s' entries l', step ⟨q, phase⟩ .cleanup = .ok (s', entries) ∧
      Inv heap (log ++ entries) s' l' := by
  by_cases hjoined : phase = .ended ∧ q.quit
  · cases l with
    | nil =>
      have hsize : ¬ 0 < q.size := fun hpos => h.represents.size_pos_iff.mp hpos rfl
      refine ⟨⟨q, .cleaned⟩, [], [], ?_, ?_⟩
      · simp only [Ownership.step, if_pos hjoined, if_neg hsize]
      · rw [List.append_nil]
        exact h.idle fun _ => ⟨hjoined.2, rfl⟩
    | cons x l =>
      have hsize : 0 < q.size := h.represents.size_pos_iff.mpr (List.cons_ne_nil x l)
      obtain ⟨q', -, heap', hpop, -, hfree, hinv⟩ := h.pop_free
      refine ⟨_, _, l, ?_, hinv .ended (by decide)⟩
      simp only [Ownership.step, if_pos hjoined, if_pos hsize, hpop, ok_bind, hfree]
      rfl
  · refine ⟨_, _, l, ?_, h.stay⟩
    simp only [Ownership.step, if_neg hjoined]

theorem Inv.step (h : Inv heap log s l) {m : Move} (hfresh : Fresh s m) (hroom : Room s m) :
    ∃ s' entries l', step s m = .ok (s', entries) ∧ Inv heap (log ++ entries) s' l' := by
  obtain ⟨q, phase⟩ := s
  cases m with
  | opened fd =>
    cases phase with
    | opening =>
      refine ⟨_, _, l, rfl, ?_⟩
      rw [List.append_nil]
      apply h.idle
      intro hcleaned
      split at hcleaned <;> cases hcleaned
    | test => exact ⟨_, _, l, rfl, h.stay⟩
    | body => exact ⟨_, _, l, rfl, h.stay⟩
    | ended => exact ⟨_, _, l, rfl, h.stay⟩
    | cleaned => exact ⟨_, _, l, rfl, h.stay⟩
  | key a junk c => exact h.key_step junk c hfresh hroom
  | main =>
    cases phase with
    | test =>
      refine ⟨_, _, l, rfl, ?_⟩
      rw [List.append_nil]
      apply h.idle
      intro hcleaned
      split at hcleaned <;> cases hcleaned
    | body =>
      obtain ⟨got, q', entries, l', htake, hinv⟩ := h.takeEvent .test (by decide)
      refine ⟨_, _, l', ?_, hinv⟩
      simp only [Ownership.step, htake, ok_bind]
      rfl
    | opening => exact ⟨_, _, l, rfl, h.stay⟩
    | ended => exact ⟨_, _, l, rfl, h.stay⟩
    | cleaned => exact ⟨_, _, l, rfl, h.stay⟩
  | cleanup => exact h.cleanup_step

end Inv

theorem cleanup_ends {q : EventQueue} {l : List Item} (h : Represents q l) (hquit : q.quit = true) :
    ∃ s log, run step ⟨q, .ended⟩ (List.replicate (l.length + 1) .cleanup) = .ok (s, log) ∧
      s.phase = .cleaned := by
  induction l generalizing q with
  | nil =>
    have hsize : ¬ 0 < q.size := fun hpos => h.size_pos_iff.mp hpos rfl
    have hstep : step ⟨q, .ended⟩ .cleanup = .ok (⟨q, .cleaned⟩, []) := by
      simp only [step, hquit, and_self, if_true, if_neg hsize]
    exact ⟨_, _, run_cons hstep rfl, rfl⟩
  | cons x l ih =>
    have hsize : 0 < q.size := h.size_pos_iff.mpr (List.cons_ne_nil x l)
    obtain ⟨q', e, hpop, -, hquit', -, -, -, -, hfree, hrep⟩ := h.pop_free
    obtain ⟨s, log, hrun, hphase⟩ := ih hrep (hquit'.trans hquit)
    have hstep : step ⟨q, .ended⟩ .cleanup =
        .ok (⟨{ q' with heap := Function.update q'.heap x.addr none }, .ended⟩,
          [.free (some x.addr) q']) := by
      simp only [step, hquit, and_self, if_true, if_pos hsize, hpop, ok_bind, hfree]
      rfl
    exact ⟨s, _, run_cons hstep hrun, hphase⟩

/-- In every run the events are freed in the order of their allocation, each once
and after it has left the queue; no step dereferences or frees an event that is
not allocated. After `queue_cleanup`, which ends, none is left. -/
theorem every_event_freed_once (heap : Heap) (moves : List Move)
    (h : Along step (fun s m => Fresh s m ∧ Room s m) (start heap) moves) :
    ∃ s log, run step (start heap) moves = .ok (s, log) ∧ Owned heap log.flatten s ∧
      (s.phase = .ended → s.q.quit = true → ∃ s' log',
        run step s (List.replicate (s.q.size.toNat + 1) .cleanup) = .ok (s', log') ∧
          s'.phase = .cleaned) := by
  have hstart : ∃ l, Inv heap ([] : List (List Alloc)).flatten (start heap) l :=
    ⟨[], inv_start heap⟩
  obtain ⟨s, log, hrun, l, hinv⟩ := run_total
    (fun past s => ∃ l, Inv heap past.flatten s l) (by
      rintro past s m ⟨l, hinv⟩ ⟨hfresh, hroom⟩
      obtain ⟨s', entries, l', hstep, hinv'⟩ := hinv.step hfresh hroom
      refine ⟨s', entries, hstep, l', ?_⟩
      rwa [List.flatten_append, List.flatten_singleton])
    hstart h
  rw [List.nil_append] at hinv
  refine ⟨s, log, hrun, hinv.owned, ?_⟩
  intro hphase hquit
  obtain ⟨q, phase⟩ := s
  cases hphase
  have hsize : q.size.toNat = l.length := by
    rw [hinv.represents.count]
    rfl
  rw [hsize]
  exact cleanup_ends hinv.represents hquit

/-- Without a port two events are left for `queue_cleanup`. -/
theorem every_event_freed_once_no_port :
    ∃ s log s' log', run step (start fun _ => none)
        [.opened (-1), .key 0 none 103, .key 1 none 115, .key 2 none 113] = .ok (s, log) ∧
      Owned (fun _ => none) log.flatten s ∧
      run step s (List.replicate 3 .cleanup) = .ok (s', log') ∧ s'.phase = .cleaned := by
  have hends : (run step (start fun _ => none)
      [.opened (-1), .key 0 none 103, .key 1 none 115, .key 2 none 113]).map
        (fun r => (r.1.phase, r.1.q.quit, r.1.q.size)) = .ok (.ended, true, 2) := rfl
  obtain ⟨s, log, hrun, howned, hcleanup⟩ := every_event_freed_once (fun _ => none)
    [.opened (-1), .key 0 none 103, .key 1 none 115, .key 2 none 113] (by
      refine along_cons ⟨trivial, trivial⟩ rfl ?_
      refine along_cons ⟨fun _ => rfl, fun _ => (by decide : (0 : Int) < intMax)⟩ rfl ?_
      refine along_cons ⟨fun _ => rfl, fun _ => (by decide : (1 : Int) < intMax)⟩ rfl ?_
      exact along_cons ⟨fun _ => rfl, fun hpushes => absurd rfl hpushes.2⟩ rfl trivial)
  rw [hrun] at hends
  have hstate : (s.phase, s.q.quit, s.q.size) = (.ended, true, 2) := Except.ok.inj hends
  simp only [Prod.mk.injEq] at hstate
  obtain ⟨hphase, hquit, hsize⟩ := hstate
  obtain ⟨s', log', hrun', hcleaned⟩ := hcleanup hphase hquit
  rw [hsize] at hrun'
  exact ⟨s, log, s', log', hrun, howned, hrun', hcleaned⟩

/-! ## The limit of the counter -/

def keys (c : UInt8) (n : Nat) : List Move := (List.range n).map fun a => .key a none c

section Overflow
variable {c : UInt8} {n : Nat}

theorem typesKeys (hc : c ≠ 'q'.toUInt8) :
    TypesKeys step Fresh System.q (fun a => .key a none c) c where
  legal_key := fun _ _ hfree _ => hfree
  push := by
    intro s a q hquit hpush
    refine ⟨{ s with q := q }, [.malloc a], ?_, rfl⟩
    simp only [step, hquit, Bool.false_eq_true, if_false, if_neg hc, hpush, ok_bind]
    rfl
  fault := by
    intro s a e hquit hpush
    simp only [step, hquit, Bool.false_eq_true, if_false, if_neg hc, hpush, error_bind]

theorem run_no_port_overflow (hc : c ≠ 'q'.toUInt8) (hn : (n : Int) = intMax)
    (rest : List Move) :
    Along step Fresh (start fun _ => none) (.opened (-1) :: (keys c (n + 1) ++ rest)) ∧
    run step (start fun _ => none) (.opened (-1) :: (keys c (n + 1) ++ rest)) =
      .error .overflow := by
  obtain ⟨halong, hrun⟩ := (typesKeys hc).run_overflow
    (s := ⟨EventQueue.empty fun _ => none, .ended⟩) rfl hn
  have hopened : step (start fun _ => none) (.opened (-1)) =
      .ok (⟨EventQueue.empty fun _ => none, .ended⟩, []) := rfl
  exact ⟨along_cons trivial hopened (along_append_of_error halong hrun),
    run_cons_error hopened (run_error_append hrun)⟩

end Overflow

/-- The port cannot be opened and `INT_MAX + 1` keys are typed before `q`: the
last of them overflows `size`. -/
theorem size_overflows_without_port :
    Along step Fresh (start fun _ => none)
      (.opened (-1) :: (keys 97 (intMax.toNat + 1) ++ [.key 0 none 113, .cleanup])) ∧
    run step (start fun _ => none)
      (.opened (-1) :: (keys 97 (intMax.toNat + 1) ++ [.key 0 none 113, .cleanup])) =
        .error .overflow :=
  run_no_port_overflow (by decide) rfl _

end Prgsem.Ownership
