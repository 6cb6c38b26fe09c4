import Prgsem.Shared.CMemory
import Prgsem.Shared.Chain

/-!
# The linked event queue

`own_queue.h` and `own_queue.c` on an explicit heap. Dereferencing a null
pointer or an event that is not allocated is a fault, and so is counting past
the largest `int`.
-/

namespace Prgsem

open CMemory
set_option autoImplicit false

abbrev Addr := Nat

inductive EventType where
  | keyboard
  | message
  | typeNum
  deriving DecidableEq, Repr

structure Event where
  next : Option Addr
  type : EventType
  param : UInt8
  msg : Option Addr
  deriving DecidableEq, Repr

/-- Events by address, `none` where no event is allocated. -/
abbrev Heap := Addr → Option Event

/-- The global `event_queue` and the heap its pointers lead into. -/
structure EventQueue where
  heap : Heap
  size : Int
  start : Option Addr
  end_ : Option Addr
  quit : Bool

namespace EventQueue

def empty (heap : Heap) : EventQueue := ⟨heap, 0, none, none, false⟩

end EventQueue

/-- `*p`. -/
def deref (heap : Heap) (p : Option Addr) : Except Fault Event :=
  match p with
  | none => .error .nullDeref
  | some a =>
    match heap a with
    | none => .error .useAfterFree
    | some e => .ok e

def assign (heap : Heap) (p : Option Addr) (f : Event → Event) : Except Fault Heap :=
  match p with
  | none => .error .nullDeref
  | some a =>
    match heap a with
    | none => .error .useAfterFree
    | some e => .ok (Function.update heap a (some (f e)))

/-- `free(p)`. -/
def free (heap : Heap) (p : Option Addr) : Except Fault Heap :=
  match p with
  | none => .ok heap
  | some a => if (heap a).isSome then .ok (Function.update heap a none) else .error .badFree

def queuePop (q : EventQueue) : Except Fault (Option Addr × EventQueue) :=
  if 0 < q.size then do
    let ret := q.start
    let first ← deref q.heap q.start
    return (ret, { q with start := first.next, size := q.size - 1 })
  else
    return (none, q)

def queuePush (ev : Addr) (q : EventQueue) : Except Fault EventQueue := do
  let heap ← assign q.heap (some ev) fun e => { e with next := none }
  let q ←
    if q.size ≤ 0 then
      pure { q with heap := heap, start := some ev }
    else do
      let heap ← assign heap q.end_ fun e => { e with next := some ev }
      pure { q with heap := heap }
  if q.size = intMax then
    throw .overflow
  else
    return { q with end_ := some ev, size := q.size + 1 }

/-- The loop of `queue_cleanup` for at most `n` rounds; also the events it frees. -/
def cleanupLoop : Nat → EventQueue → Except Fault (List (Option Addr) × EventQueue)
  | 0, q => .ok ([], q)
  | n + 1, q =>
    if 0 < q.size then do
      let (ev, q) ← queuePop q
      let heap ← free q.heap ev
      let (evs, q) ← cleanupLoop n { q with heap := heap }
      return (ev :: evs, q)
    else
      .ok ([], q)

/-- Every round takes one event off, so `size` rounds reach the end of the loop. -/
def queueCleanup (q : EventQueue) : Except Fault (List (Option Addr) × EventQueue) :=
  cleanupLoop q.size.toNat q

/-! ## What the structure represents -/

structure Content where
  type : EventType
  param : UInt8
  msg : Option Addr
  deriving DecidableEq, Repr

def Event.content (e : Event) : Content := ⟨e.type, e.param, e.msg⟩

structure Item where
  addr : Addr
  content : Content
  deriving DecidableEq, Repr

def link (heap : Heap) (a : Addr) : Option (Option Addr) := (heap a).map Event.next

def addrs (l : List Item) : List Addr := l.map Item.addr

/-- The nodes from `start` on hold the items `l`. The end pointer is meaningful
only when there are any; it dangles after the last node has been popped. -/
structure Linked (q : EventQueue) (l : List Item) : Prop where
  chain : Chain (link q.heap) q.start (addrs l)
  content : ∀ x ∈ l, (q.heap x.addr).map Event.content = some x.content
  last : ∀ x, l.getLast? = some x → q.end_ = some x.addr

/-- A queue between two operations: `size` counts the nodes. -/
structure Represents (q : EventQueue) (l : List Item) : Prop extends Linked q l where
  count : q.size = l.length

@[simp] theorem addrs_append (l l' : List Item) : addrs (l ++ l') = addrs l ++ addrs l' := by
  simp [addrs]

theorem mem_addrs {x : Item} {l : List Item} (h : x ∈ l) : x.addr ∈ addrs l :=
  List.mem_map_of_mem h

theorem deref_some {heap : Heap} {a : Addr} {e : Event} (h : heap a = some e) :
    deref heap (some a) = .ok e := by
  simp [deref, h]

theorem assign_some {heap : Heap} {a : Addr} {e : Event} (h : heap a = some e)
    (f : Event → Event) :
    assign heap (some a) f = .ok (Function.update heap a (some (f e))) := by
  simp [assign, h]

theorem free_some {heap : Heap} {a : Addr} (h : (heap a).isSome) :
    free heap (some a) = .ok (Function.update heap a none) := by
  simp [free, h]

theorem link_update_self (heap : Heap) (a : Addr) (e : Event) :
    link (Function.update heap a (some e)) a = some e.next := by
  simp [link]

theorem link_update_ne {heap : Heap} {a b : Addr} (c : Option Event) (h : b ≠ a) :
    link (Function.update heap a c) b = link heap b := by
  simp [link, h]

theorem content_update {heap : Heap} {a : Addr} {e : Event} (h : heap a = some e)
    (p : Option Addr) (b : Addr) :
    (Function.update heap a (some { e with next := p }) b).map Event.content =
      (heap b).map Event.content := by
  by_cases hb : b = a
  · subst hb
    simp [h, Event.content]
  · simp [hb]

theorem isSome_of_content {heap heap' : Heap} {a : Addr}
    (h : (heap' a).map Event.content = (heap a).map Event.content) :
    (heap' a).isSome = (heap a).isSome := by
  rw [← Option.isSome_map (f := Event.content), h, Option.isSome_map]

theorem Linked.exists_event {q : EventQueue} {l : List Item} (h : Linked q l) {x : Item}
    (hx : x ∈ l) : ∃ e, q.heap x.addr = some e ∧ e.content = x.content := by
  have hc := h.content x hx
  cases he : q.heap x.addr with
  | none => simp [he] at hc
  | some e => exact ⟨e, rfl, by simpa [he] using hc⟩

theorem Linked.start_eq_none_iff {q : EventQueue} {l : List Item} (h : Linked q l) :
    q.start = none ↔ l = [] := by
  cases l with
  | nil => simpa using Chain.nil_iff.mp h.chain
  | cons x l => simp [(Chain.cons_iff.mp h.chain).1]

theorem Linked.frame {q : EventQueue} {l : List Item} (h : Linked q l) {heap : Heap}
    (hheap : ∀ a ∈ addrs l, heap a = q.heap a) : Linked { q with heap := heap } l where
  chain := by
    apply h.chain.congr
    intro a ha
    simp only [link, hheap a ha]
  content := by
    intro x hx
    simp only [hheap _ (mem_addrs hx), h.content x hx]
  last := h.last

theorem linked_single {q : EventQueue} {ev : Addr} (e : Event) (size : Int) :
    Linked { q with
      heap := Function.update q.heap ev (some { e with next := none })
      start := some ev, end_ := some ev, size := size } [⟨ev, e.content⟩] where
  chain := .cons (link_update_self _ _ _) .nil
  content := by
    intro x hx
    cases List.mem_singleton.mp hx
    simp [Event.content]
  last := by
    intro x hx
    cases hx
    rfl

/-- The last event of the chain is linked to the new one. -/
theorem Linked.append {q : EventQueue} {l : List Item} {x : Item} {ev : Addr} {e ex : Event}
    (h : Linked q l) (hlast : l.getLast? = some x) (hev : q.heap ev = some e)
    (hfresh : ev ∉ addrs l)
    (hex : Function.update q.heap ev (some { e with next := none }) x.addr = some ex)
    (size : Int) :
    Linked { q with
      heap := Function.update (Function.update q.heap ev (some { e with next := none })) x.addr
        (some { ex with next := some ev })
      end_ := some ev, size := size } (l ++ [⟨ev, e.content⟩]) where
  chain := by
    have hxev : x.addr ≠ ev := fun heq => hfresh (heq ▸ mem_addrs (List.mem_of_getLast? hlast))
    rw [addrs_append]
    apply h.chain.snoc (b := x.addr)
    · simp [addrs, hlast]
    · rw [link_update_ne _ hxev.symm]
      exact link_update_self _ _ _
    · exact link_update_self _ _ _
    · intro c hc hcx
      rw [link_update_ne _ hcx, link_update_ne]
      rintro rfl
      exact hfresh hc
  content := by
    intro y hy
    rw [content_update hex (some ev), content_update hev none]
    rcases List.mem_append.mp hy with hy | hy
    · exact h.content y hy
    · cases List.mem_singleton.mp hy
      simp [hev]
  last := by
    intro y hy
    simp only [List.getLast?_concat, Option.some.injEq] at hy
    subst hy
    rfl

/-- What `queue_push` does: it appends the event, counts it and touches nothing
but next pointers of queued events. The branch on `size` is the right one when
`size` is positive exactly for a queue with nodes. -/
theorem queuePush_spec {q : EventQueue} {l : List Item} {ev : Addr} {e : Event}
    (h : Linked q l) (hsize : 0 < q.size ↔ l ≠ []) (hmax : q.size < intMax)
    (hev : q.heap ev = some e) (hfresh : ev ∉ addrs l) :
    ∃ q', queuePush ev q = .ok q' ∧ Linked q' (l ++ [⟨ev, e.content⟩]) ∧
      q'.size = q.size + 1 ∧ q'.quit = q.quit ∧
      (∀ a, (q'.heap a).map Event.content = (q.heap a).map Event.content) ∧
      ∀ a, a ∉ addrs l → a ≠ ev → q'.heap a = q.heap a := by
  have hne : ¬ q.size = intMax := by omega
  have hcontent := content_update hev none
  by_cases hl : l = []
  · subst hl
    have hpos : q.size ≤ 0 := by
      by_contra hgt
      exact hsize.mp (by omega) rfl
    refine ⟨_, ?_, linked_single e (q.size + 1), rfl, rfl, hcontent,
      fun a _ ha => Function.update_of_ne ha _ _⟩
    simp only [queuePush, assign_some hev, ok_bind, if_pos hpos, pure_bind, if_neg hne]
    rfl
  · obtain ⟨x, hlast⟩ : ∃ x, l.getLast? = some x :=
      ⟨l.getLast hl, List.getLast?_eq_some_getLast hl⟩
    have hx : x ∈ l := List.mem_of_getLast? hlast
    have hxev : x.addr ≠ ev := fun heq => hfresh (heq ▸ mem_addrs hx)
    obtain ⟨ex, hex, -⟩ := h.exists_event hx
    have hex' : Function.update q.heap ev (some { e with next := none }) x.addr = some ex := by
      simp [hxev, hex]
    have hpos : ¬ q.size ≤ 0 := by
      have := hsize.mpr hl
      omega
    refine ⟨_, ?_, h.append hlast hev hfresh hex' (q.size + 1), rfl, rfl, ?_, ?_⟩
    · simp only [queuePush, assign_some hev, ok_bind, if_neg hpos, h.last x hlast,
        assign_some hex', pure_bind, if_neg hne]
      rfl
    · intro a
      rw [content_update hex' (some ev), hcontent]
    · intro a ha hane
      have hax : a ≠ x.addr := fun heq => ha (heq ▸ mem_addrs hx)
      exact (Function.update_of_ne hax _ _).trans (Function.update_of_ne hane _ _)

theorem queuePush_overflow {q : EventQueue} {l : List Item} {ev : Addr} {e : Event}
    (h : Linked q l) (hl : l ≠ []) (hmax : q.size = intMax) (hev : q.heap ev = some e)
    (hfresh : ev ∉ addrs l) : queuePush ev q = .error .overflow := by
  have hlast := List.getLast?_eq_some_getLast hl
  have hxev : (l.getLast hl).addr ≠ ev := fun heq => hfresh (heq ▸ mem_addrs (List.getLast_mem hl))
  obtain ⟨ex, hex, -⟩ := h.exists_event (List.getLast_mem hl)
  have hex' : Function.update q.heap ev (some { e with next := none }) (l.getLast hl).addr =
      some ex := by
    simp [hxev, hex]
  have hpos : ¬ q.size ≤ 0 := by
    rw [hmax]
    decide
  simp only [queuePush, assign_some hev, ok_bind, if_neg hpos, h.last _ hlast, assign_some hex',
    pure_bind, if_pos hmax]
  rfl

theorem Represents.size_pos_iff {q : EventQueue} {l : List Item} (h : Represents q l) :
    0 < q.size ↔ l ≠ [] := by
  rw [h.count, ← List.length_pos_iff]
  omega

theorem Represents.push {q : EventQueue} {l : List Item} {ev : Addr} {e : Event}
    (h : Represents q l) (hmax : q.size < intMax) (hev : q.heap ev = some e)
    (hfresh : ev ∉ addrs l) :
    ∃ q', queuePush ev q = .ok q' ∧ Represents q' (l ++ [⟨ev, e.content⟩]) ∧ q'.quit = q.quit ∧
      ∀ a, (q'.heap a).map Event.content = (q.heap a).map Event.content := by
  obtain ⟨q', hpush, hlinked, hcount, hquit, hheap, -⟩ :=
    queuePush_spec h.toLinked h.size_pos_iff hmax hev hfresh
  refine ⟨q', hpush, ⟨hlinked, ?_⟩, hquit, hheap⟩
  rw [hcount, h.count, List.length_append, List.length_singleton]
  omega

theorem Represents.frame {q : EventQueue} {l : List Item} (h : Represents q l) {heap : Heap}
    (hheap : ∀ a ∈ addrs l, heap a = q.heap a) : Represents { q with heap := heap } l :=
  ⟨h.toLinked.frame hheap, h.count⟩

theorem Represents.withQuit {q : EventQueue} {l : List Item} (h : Represents q l) (quit : Bool) :
    Represents { q with quit := quit } l :=
  ⟨⟨h.chain, h.content, h.last⟩, h.count⟩

theorem Represents.pop_nil {q : EventQueue} (h : Represents q []) :
    queuePop q = .ok (none, q) := by
  have hsize : ¬ 0 < q.size := fun hpos => h.size_pos_iff.mp hpos rfl
  simp only [queuePop, if_neg hsize]
  rfl

theorem Linked.uncons {q : EventQueue} {x : Item} {l : List Item} (h : Linked q (x :: l)) :
    q.start = some x.addr ∧ ∃ e, q.heap x.addr = some e ∧ e.content = x.content ∧
      x.addr ∉ addrs l ∧ ∀ n, Linked { q with start := e.next, size := n } l := by
  obtain ⟨hstart, p, hlink, hchain⟩ := Chain.cons_iff.mp h.chain
  obtain ⟨e, he, hcontent⟩ := h.exists_event List.mem_cons_self
  have hp : e.next = p := by simpa [link, he] using hlink
  refine ⟨hstart, e, he, hcontent, (List.nodup_cons.mp h.chain.nodup).1, fun n => ⟨?_, ?_, ?_⟩⟩
  · rw [hp]
    exact hchain
  · intro y hy
    exact h.content y (List.mem_cons_of_mem x hy)
  · intro y hy
    apply h.last y
    cases l with
    | nil => cases hy
    | cons z l => rwa [List.getLast?_cons_cons]

theorem Represents.pop_cons {q : EventQueue} {x : Item} {l : List Item}
    (h : Represents q (x :: l)) :
    ∃ q', queuePop q = .ok (some x.addr, q') ∧ Represents q' l ∧ q'.heap = q.heap ∧
      q'.quit = q.quit := by
  obtain ⟨hstart, e, he, -, -, hlinked⟩ := h.uncons
  have hsize : 0 < q.size := h.size_pos_iff.mpr (List.cons_ne_nil x l)
  refine ⟨{ q with start := e.next, size := q.size - 1 }, ?_, ⟨hlinked _, ?_⟩, rfl, rfl⟩
  · simp only [queuePop, if_pos hsize, hstart, deref_some he, ok_bind]
    rfl
  · have hcount := h.count
    simp only [List.length_cons] at hcount ⊢
    omega

theorem Represents.pop_free {q : EventQueue} {x : Item} {l : List Item}
    (h : Represents q (x :: l)) :
    ∃ q' e, queuePop q = .ok (some x.addr, q') ∧ q'.heap = q.heap ∧ q'.quit = q.quit ∧
      Represents q' l ∧ x.addr ∉ addrs l ∧ q'.heap x.addr = some e ∧ e.content = x.content ∧
      free q'.heap (some x.addr) = .ok (Function.update q'.heap x.addr none) ∧
      Represents { q' with heap := Function.update q'.heap x.addr none } l := by
  obtain ⟨-, e, he, hcontent, hnotin, -⟩ := h.uncons
  obtain ⟨q', hpop, hrep, hheap, hquit⟩ := h.pop_cons
  have he' : q'.heap x.addr = some e := by rw [hheap, he]
  refine ⟨q', e, hpop, hheap, hquit, hrep, hnotin, he', hcontent, ?_, hrep.frame ?_⟩
  · exact free_some (by rw [he']; rfl)
  · intro a ha
    rw [Function.update_of_ne]
    rintro rfl
    exact hnotin ha

theorem cleanupLoop_spec {q : EventQueue} {l : List Item} (h : Represents q l) :
    ∃ q', cleanupLoop l.length q = .ok (l.map fun x => some x.addr, q') ∧ Represents q' [] ∧
      (∀ a, q'.heap a = if a ∈ addrs l then none else q.heap a) ∧ q'.quit = q.quit := by
  induction l generalizing q with
  | nil => exact ⟨q, rfl, h, by simp [addrs], rfl⟩
  | cons x l ih =>
    obtain ⟨q₁, -, hpop, hheap, hquit, -, -, -, -, hfree, hrep₁⟩ := h.pop_free
    have hsize : 0 < q.size := h.size_pos_iff.mpr (List.cons_ne_nil x l)
    obtain ⟨q', hloop, hrep', hheap', hquit'⟩ := ih hrep₁
    refine ⟨q', ?_, hrep', ?_, hquit'.trans hquit⟩
    · simp only [List.length_cons, cleanupLoop, if_pos hsize, hpop, ok_bind, hfree, hloop]
      rfl
    · intro a
      rw [hheap' a, hheap]
      by_cases hax : a = x.addr
      · subst hax
        simp [addrs]
      · simp [addrs, hax]

theorem Represents.cleanup {q : EventQueue} {l : List Item} (h : Represents q l) :
    ∃ q', queueCleanup q = .ok (l.map fun x => some x.addr, q') ∧ Represents q' [] ∧
      (∀ a, q'.heap a = if a ∈ addrs l then none else q.heap a) ∧ q'.quit = q.quit := by
  have hfuel : q.size.toNat = l.length := by
    rw [h.count]
    rfl
  rw [queueCleanup, hfuel]
  exact cleanupLoop_spec h

theorem represents_empty (heap : Heap) : Represents (EventQueue.empty heap) [] :=
  ⟨⟨.nil, by simp, by simp⟩, rfl⟩

end Prgsem
