import Prgsem.OwnQueue
import Prgsem.Shared.Fifo
import Prgsem.Shared.Run

/-!
# Without overlap the linked queue is a FIFO list

Any sequence of whole pushes, pops and cleanups, with the callers free to change
the events that are not queued. The invariant links `end` and `size` to the
chain only as far as the code relies on them.
-/

namespace Prgsem

open CMemory Run
set_option autoImplicit false

inductive QueueOp where
  | push (ev : Addr)
  | pop
  | cleanup
  /-- A caller allocates, frees or rewrites an event of its own. -/
  | caller (a : Addr) (c : Option Event)

def itemAt (heap : Heap) (a : Addr) : Option Item := (heap a).map fun e => ⟨a, e.content⟩

/-- One operation and what it shows: the event pushed, popped or freed with its fields. -/
def queueStep (q : EventQueue) : QueueOp → Except Fault (EventQueue × Fifo.Action Item)
  | .push ev => do
    let e ← deref q.heap (some ev)
    let q ← queuePush ev q
    return (q, .push ⟨ev, e.content⟩)
  | .pop => do
    let (ev, q) ← queuePop q
    return (q, .pop (ev.bind (itemAt q.heap)))
  | .cleanup => do
    let (evs, q') ← queueCleanup q
    return (q', .drain (evs.filterMap fun ev => ev.bind (itemAt q.heap)))
  | .caller a c => .ok ({ q with heap := Function.update q.heap a c }, .idle)

def NotQueued (q : EventQueue) (a : Addr) : Prop :=
  ∀ l, Chain (link q.heap) q.start l → a ∉ l

/-- An event is pushed only while it is allocated and not queued, and callers
keep away from queued events. -/
def Legal (q : EventQueue) : QueueOp → Prop
  | .push ev => (q.heap ev).isSome ∧ NotQueued q ev
  | .caller a _ => NotQueued q a
  | _ => True

def Room (q : EventQueue) : QueueOp → Prop
  | .push _ => q.size < intMax
  | _ => True

theorem notQueued_iff_of_chain {q : EventQueue} {l : List Addr}
    (h : Chain (link q.heap) q.start l) {a : Addr} : NotQueued q a ↔ a ∉ l := by
  constructor
  · exact fun hn => hn l h
  · intro hn l' hl'
    rwa [hl'.unique h]

theorem Linked.notQueued_iff {q : EventQueue} {l : List Item} (h : Linked q l) {a : Addr} :
    NotQueued q a ↔ a ∉ addrs l :=
  notQueued_iff_of_chain h.chain

theorem Linked.itemAt_eq {q : EventQueue} {l : List Item} (h : Linked q l) {x : Item}
    (hx : x ∈ l) : itemAt q.heap x.addr = some x := by
  obtain ⟨e, he, hcontent⟩ := h.exists_event hx
  simp [itemAt, he, hcontent]

theorem filterMap_itemAt {heap : Heap} {l : List Item}
    (h : ∀ x ∈ l, itemAt heap x.addr = some x) :
    (l.map fun x => some x.addr).filterMap (fun ev => ev.bind (itemAt heap)) = l := by
  induction l with
  | nil => rfl
  | cons x l ih =>
    have hx := h x List.mem_cons_self
    have hl := ih fun y hy => h y (List.mem_cons_of_mem x hy)
    simp only [List.map_cons, List.filterMap_cons, Option.bind_some, hx, hl]

theorem queueStep_represents {q : EventQueue} {l : List Item} (h : Represents q l) {op : QueueOp}
    (hlegal : Legal q op) (hroom : Room q op) :
    ∃ q' act l', queueStep q op = .ok (q', act) ∧ Fifo.Step l act l' ∧ Represents q' l' := by
  cases op with
  | push ev =>
    obtain ⟨hlive, hfree⟩ := hlegal
    obtain ⟨e, he⟩ := Option.isSome_iff_exists.mp hlive
    obtain ⟨q', hpush, hrep, -, -⟩ := h.push hroom he (h.notQueued_iff.mp hfree)
    refine ⟨q', _, _, ?_, .push l ⟨ev, e.content⟩, hrep⟩
    simp only [queueStep, deref_some he, ok_bind, hpush]
    rfl
  | pop =>
    cases l with
    | nil =>
      refine ⟨q, _, _, ?_, .empty, h⟩
      simp only [queueStep, h.pop_nil, ok_bind]
      rfl
    | cons x l =>
      obtain ⟨q', hpop, hrep, hheap, -⟩ := h.pop_cons
      refine ⟨q', _, _, ?_, .pop x l, hrep⟩
      have hitem := h.itemAt_eq List.mem_cons_self
      rw [← hheap] at hitem
      simp only [queueStep, hpop, ok_bind, Option.bind_some, hitem]
      rfl
  | cleanup =>
    obtain ⟨q', hclean, hrep, -, -⟩ := h.cleanup
    refine ⟨q', _, _, ?_, .drain l, hrep⟩
    have hitems := filterMap_itemAt fun x hx => h.itemAt_eq hx
    simp only [queueStep, hclean, ok_bind, hitems]
    rfl
  | caller a c =>
    refine ⟨_, _, _, rfl, .idle l, h.frame ?_⟩
    intro b hb
    rw [Function.update_of_ne]
    rintro rfl
    exact h.notQueued_iff.mp hlegal hb

theorem queue_run_represents {q : EventQueue} {l : List Item} (h : Represents q l)
    {ops : List QueueOp}
    (hops : Along queueStep (fun q op => Legal q op ∧ Room q op) q ops) :
    ∃ q' acts l', run queueStep q ops = .ok (q', acts) ∧ Fifo.Accepts l acts l' ∧
      Represents q' l' := by
  obtain ⟨q', acts, hrun, l', haccepts, hrep⟩ := run_total
    (fun past q => ∃ m, Fifo.Accepts l past m ∧ Represents q m) (by
      rintro past q op ⟨m, haccepts, hrep⟩ ⟨hlegal, hroom⟩
      obtain ⟨q', act, m', hstep, hfifo, hrep'⟩ := queueStep_represents hrep hlegal hroom
      exact ⟨q', act, hstep, m', haccepts.snoc hfifo, hrep'⟩)
    ⟨l, .nil l, h⟩ hops
  exact ⟨q', acts, l', hrun, haccepts, hrep⟩

/-- Every sequence of operations behaves as on a FIFO list: a pop returns the
oldest event with the fields it was pushed with, and `NULL` exactly when there is
none; `size` and the chain agree with the list, and the chain ends in the event
pushed last. -/
theorem queue_refines_fifo (heap : Heap) (ops : List QueueOp)
    (hops : Along queueStep (fun q op => Legal q op ∧ Room q op) (EventQueue.empty heap) ops) :
    ∃ q acts l, run queueStep (EventQueue.empty heap) ops = .ok (q, acts) ∧
      Fifo.Accepts [] acts l ∧
      q.size = l.length ∧ Chain (link q.heap) q.start (addrs l) ∧
      (∀ x ∈ l, itemAt q.heap x.addr = some x) ∧
      (∀ x, l.getLast? = some x →
        q.end_ = some x.addr ∧ (Fifo.pushed acts).getLast? = some x) := by
  obtain ⟨q, acts, l, hrun, haccepts, hrep⟩ := queue_run_represents (represents_empty heap) hops
  refine ⟨q, acts, l, hrun, haccepts, hrep.count, hrep.chain, fun x hx => hrep.itemAt_eq hx, ?_⟩
  intro x hx
  refine ⟨hrep.last x hx, ?_⟩
  have hne : l ≠ [] := by
    rintro rfl
    cases hx
  rw [haccepts.getLast?_pushed hne, hx]

/-- Every address holds an event, with the address as its key. -/
def labelled : Heap := fun a => some ⟨some 3, .keyboard, UInt8.ofNat a, none⟩

def labelledItem (a : Addr) : Item := ⟨a, .keyboard, UInt8.ofNat a, none⟩

/-- Two events are queued and popped, and a third goes to the queue that is empty again. -/
theorem queue_refines_fifo_push_pop :
    ∃ q acts l, run queueStep (EventQueue.empty labelled)
        [.push 7, .push 8, .pop, .pop, .push 9] = .ok (q, acts) ∧
      acts = [.push (labelledItem 7), .push (labelledItem 8), .pop (some (labelledItem 7)),
        .pop (some (labelledItem 8)), .push (labelledItem 9)] ∧
      Fifo.Accepts [] acts l ∧
      q.size = l.length ∧ Chain (link q.heap) q.start (addrs l) ∧
      (∀ x ∈ l, itemAt q.heap x.addr = some x) ∧
      (∀ x, l.getLast? = some x →
        q.end_ = some x.addr ∧ (Fifo.pushed acts).getLast? = some x) := by
  have hacts : (run queueStep (EventQueue.empty labelled)
      [.push 7, .push 8, .pop, .pop, .push 9]).map Prod.snd =
        .ok [.push (labelledItem 7), .push (labelledItem 8), .pop (some (labelledItem 7)),
          .pop (some (labelledItem 8)), .push (labelledItem 9)] := rfl
  obtain ⟨q, acts, l, hrun, hrest⟩ := queue_refines_fifo labelled
    [.push 7, .push 8, .pop, .pop, .push 9] (by
      refine along_cons ⟨⟨rfl, (notQueued_iff_of_chain .nil).mpr (by decide)⟩,
        (by decide : (0 : Int) < intMax)⟩ rfl ?_
      refine along_cons ⟨⟨rfl, (notQueued_iff_of_chain (.cons rfl .nil)).mpr (by decide)⟩,
        (by decide : (1 : Int) < intMax)⟩ rfl ?_
      refine along_cons ⟨trivial, trivial⟩ rfl (along_cons ⟨trivial, trivial⟩ rfl ?_)
      exact along_singleton ⟨⟨rfl, (notQueued_iff_of_chain .nil).mpr (by decide)⟩,
        (by decide : (0 : Int) < intMax)⟩)
  rw [hrun] at hacts
  exact ⟨q, acts, l, hrun, Except.ok.inj hacts, hrest⟩

/-! ## The limit of the counter -/

def pushes (n : Nat) : List QueueOp := (List.range n).map QueueOp.push

theorem pushes_succ (n : Nat) : pushes (n + 1) = pushes n ++ [.push n] := by
  simp [pushes, List.range_succ]

section Overflow
variable (e : Event) {n : Nat}

def allAllocated : Heap := fun _ => some e

theorem run_pushes (hn : (n : Int) ≤ intMax) :
    Along queueStep Legal (EventQueue.empty (allAllocated e)) (pushes n) ∧
    ∃ q acts, run queueStep (EventQueue.empty (allAllocated e)) (pushes n) = .ok (q, acts) ∧
      Represents q ((List.range n).map fun a => ⟨a, e.content⟩) ∧
      ∀ a, (q.heap a).map Event.content = some e.content := by
  induction n with
  | zero => exact ⟨trivial, _, _, rfl, represents_empty _, fun _ => rfl⟩
  | succ n ih =>
    obtain ⟨halong, q, acts, hrun, hrep, hheap⟩ := ih (by omega)
    obtain ⟨en, hen, hcontent⟩ := Option.map_eq_some_iff.mp (hheap n)
    have hnotin : n ∉ addrs ((List.range n).map fun a => ⟨a, e.content⟩) := by simp [addrs]
    have hcount := hrep.count
    simp only [List.length_map, List.length_range] at hcount
    obtain ⟨q', hpush, hrep', -, hheap'⟩ := hrep.push (by omega) hen hnotin
    have hstep : queueStep q (.push n) = .ok (q', .push ⟨n, en.content⟩) := by
      simp only [queueStep, deref_some hen, ok_bind, hpush]
      rfl
    have hlegal : Legal q (.push n) := ⟨by rw [hen]; rfl, hrep.notQueued_iff.mpr hnotin⟩
    rw [pushes_succ]
    refine ⟨along_append_of_ok halong hrun (along_singleton hlegal), q', _,
      run_append hrun (run_cons hstep rfl), ?_, ?_⟩
    · rw [hcontent] at hrep'
      simpa [List.range_succ] using hrep'
    · intro a
      rw [hheap', hheap]

theorem run_pushes_overflow (hn : (n : Int) = intMax) :
    Along queueStep Legal (EventQueue.empty (allAllocated e)) (pushes (n + 1)) ∧
    run queueStep (EventQueue.empty (allAllocated e)) (pushes (n + 1)) = .error .overflow := by
  obtain ⟨halong, q, acts, hrun, hrep, hheap⟩ := run_pushes e (Int.le_of_eq hn)
  obtain ⟨en, hen, -⟩ := Option.map_eq_some_iff.mp (hheap n)
  have hnotin : n ∉ addrs ((List.range n).map fun a => ⟨a, e.content⟩) := by simp [addrs]
  have hcount := hrep.count
  simp only [List.length_map, List.length_range] at hcount
  have hne : (List.range n).map (fun a => (⟨a, e.content⟩ : Item)) ≠ [] := by
    intro hnil
    have hlen := congrArg List.length hnil
    simp only [List.length_map, List.length_range, List.length_nil] at hlen
    rw [hlen] at hn
    cases hn
  have hpush := queuePush_overflow hrep.toLinked hne (hcount.trans hn) hen hnotin
  have hstep : queueStep q (.push n) = .error .overflow := by
    simp only [queueStep, deref_some hen, ok_bind, hpush, error_bind]
  have hlegal : Legal q (.push n) := ⟨by rw [hen]; rfl, hrep.notQueued_iff.mpr hnotin⟩
  rw [pushes_succ]
  exact ⟨along_append_of_ok halong hrun (along_singleton hlegal),
    run_append_error hrun (by simp only [run, hstep])⟩

end Overflow

/-- `INT_MAX + 1` events pushed one after the other, all distinct and allocated:
the last push overflows `size`. -/
theorem queue_overflows_after_intMax :
    Along queueStep Legal (EventQueue.empty (allAllocated ⟨none, .keyboard, 97, none⟩))
      (pushes (intMax.toNat + 1)) ∧
    run queueStep (EventQueue.empty (allAllocated ⟨none, .keyboard, 97, none⟩))
      (pushes (intMax.toNat + 1)) = .error .overflow :=
  run_pushes_overflow _ rfl

end Prgsem
