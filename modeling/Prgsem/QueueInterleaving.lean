import Prgsem.Keyboard
import Prgsem.QueueRefinement

/-!
# The queue between its two threads

`queue_push` holds the mutex and is one step. `queue_pop` takes no lock, so that
pushes may come between its test of `size`, its read of `start`, its store to
`start` and its decrement of `size`. The only harmful place is after a store
that emptied the chain: `size` still counts the popped event and the push links
its event behind it, where nothing leads to.
-/

namespace Prgsem.Interleaving

open CMemory Run
set_option autoImplicit false

/-- Where `main_thread` is in its dealings with the queue: about to evaluate
`event_queue.size > 0` at `test` and `event_queue.start->type == EV_KEYBOARD` at
`type`; in `queue_pop` about to test `size`, to read `start`, to store `start->next`
to `start` and to decrement `size`; about to use and free the event at `popped`. -/
inductive Pc where
  | test
  | type
  | popTest
  | popRead
  | popStore (ret : Option Addr)
  | popSize (ret : Option Addr)
  | popped (ret : Option Addr)
  deriving DecidableEq, Repr

structure State where
  q : EventQueue
  pc : Pc

inductive Move where
  | key (a : Addr) (junk : Option Addr) (c : UInt8)
  | main

def step (s : State) : Move → Except Fault (State × Fifo.Action Item)
  | .key a junk c => do
    let q ← keyboardPush a junk c s.q
    return ({ s with q := q }, .push ⟨a, keyContent c⟩)
  | .main =>
    match s.pc with
    | .test => .ok ({ s with pc := if 0 < s.q.size then .type else .test }, .idle)
    | .type => do
      let first ← deref s.q.heap s.q.start
      return ({ s with pc := if first.type = .keyboard then .popTest else .test }, .idle)
    | .popTest =>
      if 0 < s.q.size then .ok ({ s with pc := .popRead }, .idle)
      else .ok ({ s with pc := .popped none }, .pop none)
    | .popRead => .ok ({ s with pc := .popStore s.q.start }, .idle)
    | .popStore ret => do
      let first ← deref s.q.heap s.q.start
      return ({ q := { s.q with start := first.next }, pc := .popSize ret }, .idle)
    | .popSize ret =>
      .ok ({ q := { s.q with size := s.q.size - 1 }, pc := .popped ret },
        .pop (ret.bind (itemAt s.q.heap)))
    | .popped ret => do
      let _ ← deref s.q.heap ret
      let heap ← free s.q.heap ret
      return ({ q := { s.q with heap := heap }, pc := .test }, .idle)

def init (heap : Heap) : State := ⟨EventQueue.empty heap, .test⟩

def Fresh (s : State) : Move → Prop
  | .key a _ _ => s.q.heap a = none
  | .main => True

def Room (s : State) : Move → Prop
  | .key _ _ _ => s.q.size < intMax
  | .main => True

/-- No push between a store that emptied the chain and the decrement. -/
def OutsideWindow (s : State) : Move → Prop
  | .key _ _ _ => ∀ ret, s.pc = .popSize ret → s.q.start ≠ none
  | .main => True

def Popping : Pc → Prop
  | .popTest | .popRead | .popStore _ | .popSize _ => True
  | _ => False

/-- What the two threads may rely on after the actions `past`. -/
structure Safe (past : List (Fifo.Action Item)) (s : State) : Prop where
  in_order : (Fifo.removed past).IsPrefix (Fifo.pushed past)
  counted : ¬ Popping s.pc → ∃ l, Chain (link s.q.heap) s.q.start (addrs l) ∧
    s.q.size = l.length ∧ Fifo.pushed past = Fifo.removed past ++ l
  guarded : s.pc = .type → s.q.start ≠ none

/-- The queue at each place of `main_thread`, when the abstract queue is `l`.
Between the store and the decrement the popped event is still its oldest one. -/
def At (q : EventQueue) (l : List Item) : Pc → Prop
  | .test => Represents q l
  | .type | .popTest | .popRead => Represents q l ∧ l ≠ []
  | .popStore ret => Represents q l ∧ ∃ x l', l = x :: l' ∧ ret = some x.addr
  | .popSize ret => ∃ x l', l = x :: l' ∧ ret = some x.addr ∧ Linked q l' ∧ q.size = l.length ∧
      itemAt q.heap x.addr = some x ∧ x.addr ∉ addrs l' ∧ (l' = [] → q.end_ = some x.addr)
  | .popped ret => Represents q l ∧ ∃ a, ret = some a ∧ (q.heap a).isSome ∧ a ∉ addrs l

def Inv (past : List (Fifo.Action Item)) (s : State) : Prop :=
  ∃ l, Fifo.Accepts [] past l ∧ At s.q l s.pc

theorem inv_init (heap : Heap) : Inv [] (init heap) := ⟨[], .nil [], represents_empty heap⟩

theorem Inv.safe {past : List (Fifo.Action Item)} {s : State} (h : Inv past s) : Safe past s := by
  obtain ⟨q, pc⟩ := s
  obtain ⟨l, haccepts, hat⟩ := h
  have counted (hrep : Represents q l) : ∃ l, Chain (link q.heap) q.start (addrs l) ∧
      q.size = l.length ∧ Fifo.pushed past = Fifo.removed past ++ l :=
    ⟨l, hrep.chain, hrep.count, haccepts.conserves⟩
  refine ⟨haccepts.removed_prefix, ?_, ?_⟩
  · intro hpop
    cases pc with
    | test => exact counted hat
    | type => exact counted hat.1
    | popped ret => exact counted hat.1
    | popTest => exact absurd trivial hpop
    | popRead => exact absurd trivial hpop
    | popStore ret => exact absurd trivial hpop
    | popSize ret => exact absurd trivial hpop
  · rintro rfl
    exact fun hnull => hat.2 (hat.1.start_eq_none_iff.mp hnull)

theorem itemAt_congr {heap heap' : Heap} {a : Addr}
    (h : (heap' a).map Event.content = (heap a).map Event.content) :
    itemAt heap' a = itemAt heap a := by
  simp only [itemAt]
  cases h₁ : heap a with
  | none => simpa [h₁] using h
  | some e =>
    rw [h₁, Option.map_some] at h
    obtain ⟨e', he', hcontent⟩ := Option.map_eq_some_iff.mp h
    rw [he', Option.map_some, Option.map_some, hcontent]

theorem At.push {q : EventQueue} {l : List Item} {pc : Pc} (h : At q l pc) {a : Addr}
    (junk : Option Addr) (c : UInt8) (hfresh : q.heap a = none) (hroom : q.size < intMax)
    (hwindow : ∀ ret, pc = .popSize ret → q.start ≠ none) :
    ∃ q', keyboardPush a junk c q = .ok q' ∧ At q' (l ++ [⟨a, keyContent c⟩]) pc := by
  have hne : l ++ [⟨a, keyContent c⟩] ≠ [] := by simp
  cases pc with
  | test =>
    obtain ⟨q', hpush, hrep, -⟩ := Represents.keyboardPush junk c h hroom hfresh
    exact ⟨q', hpush, hrep⟩
  | type =>
    obtain ⟨q', hpush, hrep, -⟩ := h.1.keyboardPush junk c hroom hfresh
    exact ⟨q', hpush, hrep, hne⟩
  | popTest =>
    obtain ⟨q', hpush, hrep, -⟩ := h.1.keyboardPush junk c hroom hfresh
    exact ⟨q', hpush, hrep, hne⟩
  | popRead =>
    obtain ⟨q', hpush, hrep, -⟩ := h.1.keyboardPush junk c hroom hfresh
    exact ⟨q', hpush, hrep, hne⟩
  | popStore ret =>
    obtain ⟨hrep, x, l', rfl, hret⟩ := h
    obtain ⟨q', hpush, hrep', -⟩ := hrep.keyboardPush junk c hroom hfresh
    exact ⟨q', hpush, hrep', x, _, rfl, hret⟩
  | popSize ret =>
    obtain ⟨x, l', rfl, hret, hlinked, hcount, hitem, hnotin, -⟩ := h
    have hl' : l' ≠ [] := fun hnil => hwindow ret rfl (hlinked.start_eq_none_iff.mpr hnil)
    simp only [List.length_cons] at hcount
    obtain ⟨q', hpush, hlinked', hcount', -, -, hheap, -⟩ :=
      keyboardPush_spec junk c hlinked ⟨fun _ => hl', fun _ => by omega⟩ hroom hfresh
    have hxa : x.addr ≠ a := by
      intro heq
      simp [itemAt, heq, hfresh] at hitem
    refine ⟨q', hpush, x, l' ++ [⟨a, keyContent c⟩], rfl, hret, hlinked', ?_, ?_, ?_, by simp⟩
    · simp only [hcount', hcount, List.length_cons, List.length_append, List.length_nil,
        List.cons_append]
      omega
    · rw [itemAt_congr (hheap _ hxa), hitem]
    · simp only [addrs_append, List.mem_append, not_or]
      exact ⟨hnotin, by simpa [addrs] using hxa⟩
  | popped ret =>
    obtain ⟨hrep, b, hret, hlive, hnotin⟩ := h
    obtain ⟨q', hpush, hrep', -, -, hheap, -⟩ := hrep.keyboardPush junk c hroom hfresh
    have hba : b ≠ a := by
      rintro rfl
      simp [hfresh] at hlive
    refine ⟨q', hpush, hrep', b, hret, ?_, ?_⟩
    · rw [isSome_of_content (hheap b hba), hlive]
    · simp only [addrs_append, List.mem_append, not_or]
      exact ⟨hnotin, by simpa [addrs] using hba⟩

theorem At.main {q : EventQueue} {l : List Item} {pc : Pc} (h : At q l pc) :
    ∃ q' pc' act l', step ⟨q, pc⟩ .main = .ok (⟨q', pc'⟩, act) ∧ Fifo.Step l act l' ∧
      At q' l' pc' := by
  cases pc with
  | test =>
    refine ⟨q, _, _, l, rfl, .idle l, ?_⟩
    by_cases hsize : 0 < q.size
    · rw [if_pos hsize]
      exact ⟨h, Represents.size_pos_iff h |>.mp hsize⟩
    · rw [if_neg hsize]
      exact h
  | type =>
    obtain ⟨hrep, hne⟩ := h
    obtain ⟨x, l', rfl⟩ := List.exists_cons_of_ne_nil hne
    obtain ⟨hstart, e, he, -⟩ := hrep.uncons
    refine ⟨q, if e.type = .keyboard then .popTest else .test, .idle, x :: l', ?_, .idle _, ?_⟩
    · simp only [step, hstart, deref_some he, ok_bind]
      rfl
    · split
      · exact ⟨hrep, hne⟩
      · exact hrep
  | popTest =>
    obtain ⟨hrep, hne⟩ := h
    refine ⟨q, .popRead, .idle, l, ?_, .idle l, hrep, hne⟩
    simp only [step, if_pos (hrep.size_pos_iff.mpr hne)]
  | popRead =>
    obtain ⟨hrep, hne⟩ := h
    obtain ⟨x, l', rfl⟩ := List.exists_cons_of_ne_nil hne
    exact ⟨q, _, _, _, rfl, .idle _, hrep, x, l', rfl, hrep.uncons.1⟩
  | popStore ret =>
    obtain ⟨hrep, x, l', rfl, rfl⟩ := h
    obtain ⟨hstart, e, he, -, hnotin, hlinked⟩ := hrep.uncons
    refine ⟨{ q with start := e.next }, .popSize (some x.addr), .idle, _, ?_, .idle _,
      x, l', rfl, rfl, hlinked q.size, hrep.count, hrep.itemAt_eq List.mem_cons_self, hnotin, ?_⟩
    · simp only [step, hstart, deref_some he, ok_bind]
      rfl
    · rintro rfl
      exact hrep.last x rfl
  | popSize ret =>
    obtain ⟨x, l', rfl, rfl, hlinked, hcount, hitem, hnotin, -⟩ := h
    obtain ⟨e, he, -⟩ := Option.map_eq_some_iff.mp hitem
    refine ⟨{ q with size := q.size - 1 }, .popped (some x.addr), .pop (some x), l', ?_, .pop x l',
      ⟨⟨hlinked.chain, hlinked.content, hlinked.last⟩, ?_⟩, x.addr, rfl, ?_, hnotin⟩
    · simp only [step, Option.bind_some, hitem]
    · simp only [List.length_cons] at hcount ⊢
      omega
    · simp only [he, Option.isSome_some]
  | popped ret =>
    obtain ⟨hrep, a, rfl, hlive, hnotin⟩ := h
    obtain ⟨e, he⟩ := Option.isSome_iff_exists.mp hlive
    refine ⟨{ q with heap := Function.update q.heap a none }, .test, .idle, l, ?_, .idle l,
      hrep.frame ?_⟩
    · simp only [step, deref_some he, ok_bind, free_some hlive]
      rfl
    · intro b hb
      rw [Function.update_of_ne]
      rintro rfl
      exact hnotin hb

theorem Inv.step {past : List (Fifo.Action Item)} {s : State} (h : Inv past s) {m : Move}
    (hfresh : Fresh s m) (hroom : Room s m) (hwindow : OutsideWindow s m) :
    ∃ s' act, step s m = .ok (s', act) ∧ Inv (past ++ [act]) s' := by
  obtain ⟨q, pc⟩ := s
  obtain ⟨l, haccepts, hat⟩ := h
  cases m with
  | key a junk c =>
    obtain ⟨q', hpush, hat'⟩ := hat.push junk c hfresh hroom hwindow
    refine ⟨⟨q', pc⟩, .push ⟨a, keyContent c⟩, ?_, _, haccepts.snoc (.push l _), hat'⟩
    simp only [Interleaving.step, hpush, ok_bind]
    rfl
  | main =>
    obtain ⟨q', pc', act, l', hstep, hfifo, hat'⟩ := hat.main
    exact ⟨⟨q', pc'⟩, act, hstep, l', haccepts.snoc hfifo, hat'⟩

/-- Every interleaving in which no push falls into the window is safe at its end,
and so at each of its states. -/
theorem safe_outside_window (heap : Heap) (moves : List Move)
    (h : Along step (fun s m => Fresh s m ∧ Room s m ∧ OutsideWindow s m) (init heap) moves) :
    ∃ s past, run step (init heap) moves = .ok (s, past) ∧ Safe past s := by
  obtain ⟨s, past, hrun, hinv⟩ := run_total Inv
    (fun past s m hinv hm => hinv.step hm.1 hm.2.1 hm.2.2) (inv_init heap) h
  exact ⟨s, past, hrun, hinv.safe⟩

theorem safe_outside_window_push_pop :
    ∃ s past, run step (init fun _ => none)
        [.key 7 none 103, .main, .main, .main, .main, .main, .main, .main, .key 7 none 115] =
          .ok (s, past) ∧ Safe past s := by
  have key (s : State) (a : Addr) (c : UInt8) (hfresh : s.q.heap a = none)
      (hroom : s.q.size < intMax) (hpc : ∀ ret, s.pc ≠ .popSize ret) :
      Fresh s (.key a none c) ∧ Room s (.key a none c) ∧ OutsideWindow s (.key a none c) :=
    ⟨hfresh, hroom, fun ret hret => absurd hret (hpc ret)⟩
  have main (s : State) : Fresh s .main ∧ Room s .main ∧ OutsideWindow s .main :=
    ⟨trivial, trivial, trivial⟩
  apply safe_outside_window
  refine along_cons (key _ _ _ rfl (by decide) (by intro _ h; cases h)) rfl ?_
  refine along_cons (main _) rfl (along_cons (main _) rfl (along_cons (main _) rfl ?_))
  refine along_cons (main _) rfl (along_cons (main _) rfl (along_cons (main _) rfl ?_))
  refine along_cons (main _) rfl ?_
  exact along_cons (key _ _ _ rfl (by decide) (by intro _ h; cases h)) rfl trivial

/-! ## In the window -/

theorem not_safe_of_start_eq_none {past : List (Fifo.Action Item)} {s : State}
    (hpop : ¬ Popping s.pc) (hsize : 0 < s.q.size) (hstart : s.q.start = none) : ¬ Safe past s := by
  intro hsafe
  obtain ⟨l, hchain, hcount, -⟩ := hsafe.counted hpop
  rw [hstart] at hchain
  cases l with
  | nil => simp [hcount] at hsize
  | cons x l => cases hchain

theorem queuePush_behind {q : EventQueue} {ev z : Addr} {e ez : Event} (hpos : 0 < q.size)
    (hmax : q.size < intMax) (hev : q.heap ev = some e) (hend : q.end_ = some z)
    (hz : q.heap z = some ez) (hne : z ≠ ev) :
    ∃ q', queuePush ev q = .ok q' ∧ q'.size = q.size + 1 ∧ q'.start = q.start := by
  have hz' : Function.update q.heap ev (some { e with next := none }) z = some ez := by
    rw [Function.update_of_ne hne, hz]
  have hsize : ¬ q.size ≤ 0 := by omega
  have hroom : ¬ q.size = intMax := by omega
  refine ⟨{ q with
    heap := Function.update (Function.update q.heap ev (some { e with next := none })) z
      (some { ez with next := some ev })
    end_ := some ev, size := q.size + 1 }, ?_, rfl, rfl⟩
  simp only [queuePush, assign_some hev, ok_bind, if_neg hsize, hend, assign_some hz', pure_bind,
    if_neg hroom]
  rfl

/-- A push in the window is lost with everything behind it: once the pop is done,
`size` is 1 and `start` is null. -/
theorem lost_in_window {past : List (Fifo.Action Item)} {q : EventQueue} {ret : Option Addr}
    (h : Inv past ⟨q, .popSize ret⟩) (hwindow : q.start = none) {a : Addr}
    (junk : Option Addr) (c : UInt8) (hfresh : q.heap a = none) :
    ∃ (s : State) (acts : List (Fifo.Action Item)),
      run step ⟨q, .popSize ret⟩ [.key a junk c, .main] = .ok (s, acts) ∧
        ¬ Safe (past ++ acts) s := by
  obtain ⟨l, -, hat⟩ := h
  obtain ⟨x, l', rfl, rfl, hlinked, hcount, hitem, -, hend⟩ : At q l (.popSize ret) := hat
  have hl' : l' = [] := hlinked.start_eq_none_iff.mp hwindow
  subst hl'
  obtain ⟨e, he, -⟩ := Option.map_eq_some_iff.mp hitem
  have hxa : x.addr ≠ a := by
    intro heq
    rw [heq, hfresh] at he
    cases he
  have hsize : q.size = 1 := hcount
  have hold : Function.update q.heap a (some ⟨junk, .keyboard, c, none⟩) a = some _ :=
    Function.update_self _ _ _
  have hlast : Function.update q.heap a (some ⟨junk, .keyboard, c, none⟩) x.addr = some e := by
    simp only [Function.update_of_ne hxa, he]
  obtain ⟨q', hpush, hsize', hstart'⟩ := queuePush_behind (q := { q with
      heap := Function.update q.heap a (some ⟨junk, .keyboard, c, none⟩) })
    (by simp only [hsize]; decide) (by simp only [hsize]; decide) hold (hend rfl) hlast hxa
  have hkey : step ⟨q, .popSize (some x.addr)⟩ (.key a junk c) =
      .ok (⟨q', .popSize (some x.addr)⟩, .push ⟨a, keyContent c⟩) := by
    simp only [step, keyboardPush, hpush, ok_bind]
    rfl
  refine ⟨_, _, run_cons hkey (run_cons rfl rfl), not_safe_of_start_eq_none id ?_ ?_⟩
  · simp only [hsize', hsize]
    decide
  · exact hstart'.trans hwindow

/-- The key `g` is popped; the key `s` comes between the store to `start` and the
decrement; then `main_thread` dereferences a null `start`. -/
theorem null_start_after_window :
    ∃ (s : State) (past : List (Fifo.Action Item)), run step (init fun _ => none)
        [.key 0 none 103, .main, .main, .main, .main, .main, .key 1 none 115,
          .main, .main, .main] = .ok (s, past) ∧
      Along step (fun s m => Fresh s m ∧ Room s m) (init fun _ => none)
        [.key 0 none 103, .main, .main, .main, .main, .main, .key 1 none 115,
          .main, .main, .main] ∧
      s.pc = .type ∧ ¬ Safe past s ∧ step s .main = .error .nullDeref := by
  have main (s : State) : Fresh s .main ∧ Room s .main := ⟨trivial, trivial⟩
  refine ⟨_, _, rfl, ?_, rfl, not_safe_of_start_eq_none id (by decide) rfl, rfl⟩
  refine along_cons ⟨rfl, (by decide : (0 : Int) < intMax)⟩ rfl ?_
  refine along_cons (main _) rfl (along_cons (main _) rfl (along_cons (main _) rfl ?_))
  refine along_cons (main _) rfl (along_cons (main _) rfl ?_)
  refine along_cons ⟨rfl, (by decide : (1 : Int) < intMax)⟩ rfl ?_
  exact along_cons (main _) rfl (along_cons (main _) rfl (along_cons (main _) rfl trivial))

end Prgsem.Interleaving
