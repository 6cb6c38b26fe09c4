import Prgsem.OwnQueue
import Prgsem.Shared.Run

/-!
# The keyboard thread

What `keyboard.c` does with a key that does not end the program: allocate an
event, fill it in and push it. `malloc` returns the address of an event that is
not allocated, possibly one that was freed before; the fresh memory holds an
arbitrary next pointer.
-/

namespace Prgsem

open CMemory Run
set_option autoImplicit false

def keyContent (c : UInt8) : Content := ⟨.keyboard, c, none⟩

/-- The `default` branch of the `switch` on the key `c`. -/
def keyboardPush (a : Addr) (junk : Option Addr) (c : UInt8) (q : EventQueue) :
    Except Fault EventQueue :=
  queuePush a { q with heap := Function.update q.heap a (some ⟨junk, .keyboard, c, none⟩) }

theorem Linked.not_mem_of_free {q : EventQueue} {l : List Item} (h : Linked q l) {a : Addr}
    (ha : q.heap a = none) : a ∉ addrs l := by
  intro hmem
  obtain ⟨x, hx, rfl⟩ := List.mem_map.mp hmem
  obtain ⟨e, he, -⟩ := h.exists_event hx
  rw [ha] at he
  cases he

theorem Linked.alloc {q : EventQueue} {l : List Item} (h : Linked q l) {a : Addr}
    (ha : q.heap a = none) (e : Event) :
    Linked { q with heap := Function.update q.heap a (some e) } l := by
  apply h.frame
  intro b hb
  rw [Function.update_of_ne]
  rintro rfl
  exact h.not_mem_of_free ha hb

theorem keyboardPush_spec {q : EventQueue} {l : List Item} {a : Addr} (junk : Option Addr)
    (c : UInt8) (h : Linked q l) (hsize : 0 < q.size ↔ l ≠ []) (hmax : q.size < intMax)
    (ha : q.heap a = none) :
    ∃ q', keyboardPush a junk c q = .ok q' ∧ Linked q' (l ++ [⟨a, keyContent c⟩]) ∧
      q'.size = q.size + 1 ∧ q'.quit = q.quit ∧
      (q'.heap a).map Event.content = some (keyContent c) ∧
      (∀ b, b ≠ a → (q'.heap b).map Event.content = (q.heap b).map Event.content) ∧
      ∀ b, b ∉ addrs l → b ≠ a → q'.heap b = q.heap b := by
  have hfresh := h.not_mem_of_free ha
  have hlinked := h.alloc ha ⟨junk, .keyboard, c, none⟩
  obtain ⟨q', hpush, hlinked', hcount, hquit, hheap, hframe⟩ :=
    queuePush_spec hlinked hsize hmax (Function.update_self _ _ _) hfresh
  refine ⟨q', hpush, hlinked', hcount, hquit, ?_, ?_, ?_⟩
  · rw [hheap]
    simp [keyContent, Event.content]
  · intro b hb
    rw [hheap]
    simp [hb]
  · intro b hb hba
    rw [hframe b hb hba]
    exact Function.update_of_ne hba _ _

theorem Represents.keyboardPush {q : EventQueue} {l : List Item} {a : Addr} (junk : Option Addr)
    (c : UInt8) (h : Represents q l) (hmax : q.size < intMax) (ha : q.heap a = none) :
    ∃ q', keyboardPush a junk c q = .ok q' ∧ Represents q' (l ++ [⟨a, keyContent c⟩]) ∧
      q'.quit = q.quit ∧ (q'.heap a).map Event.content = some (keyContent c) ∧
      (∀ b, b ≠ a → (q'.heap b).map Event.content = (q.heap b).map Event.content) ∧
      ∀ b, b ∉ addrs l → b ≠ a → q'.heap b = q.heap b := by
  obtain ⟨q', hpush, hlinked, hcount, hquit, hself, hheap, hframe⟩ :=
    keyboardPush_spec junk c h.toLinked h.size_pos_iff hmax ha
  refine ⟨q', hpush, ⟨hlinked, ?_⟩, hquit, hself, hheap, hframe⟩
  rw [hcount, h.count, List.length_append, List.length_singleton]
  omega

theorem keyboardPush_overflow {q : EventQueue} {l : List Item} {a : Addr} (junk : Option Addr)
    (c : UInt8) (h : Linked q l) (hl : l ≠ []) (hmax : q.size = intMax) (ha : q.heap a = none) :
    keyboardPush a junk c q = .error .overflow :=
  queuePush_overflow (h.alloc ha _) hl hmax (Function.update_self _ _ _) (h.not_mem_of_free ha)

/-! ## The limit of the counter -/

def queuedKeys (c : UInt8) (n : Nat) : List Item :=
  (List.range n).map fun a => ⟨a, keyContent c⟩

theorem length_queuedKeys (c : UInt8) (n : Nat) : (queuedKeys c n).length = n := by
  simp [queuedKeys]

section Typing
variable {σ ι ω : Type} {step : σ → ι → Except Fault (σ × ω)} {legal : σ → ι → Prop}
  {queue : σ → EventQueue} {key : Addr → ι} {c : UInt8}

/-- In the machine `step` typing the key `c` is one push, as long as `quit` is false. -/
structure TypesKeys (step : σ → ι → Except Fault (σ × ω)) (legal : σ → ι → Prop)
    (queue : σ → EventQueue) (key : Addr → ι) (c : UInt8) : Prop where
  legal_key : ∀ s a, (queue s).heap a = none → legal s (key a)
  push : ∀ s a q, (queue s).quit = false → keyboardPush a none c (queue s) = .ok q →
    ∃ s' out, step s (key a) = .ok (s', out) ∧ queue s' = q
  fault : ∀ s a e, (queue s).quit = false → keyboardPush a none c (queue s) = .error e →
    step s (key a) = .error e

theorem TypesKeys.run_range (h : TypesKeys step legal queue key c) {s : σ}
    (hs : queue s = .empty fun _ => none) {n : Nat} (hn : (n : Int) ≤ intMax) :
    Along step legal s ((List.range n).map key) ∧
    ∃ t outs, run step s ((List.range n).map key) = .ok (t, outs) ∧
      Represents (queue t) (queuedKeys c n) ∧ (queue t).quit = false ∧
      ∀ a, n ≤ a → (queue t).heap a = none := by
  induction n with
  | zero =>
    refine ⟨trivial, s, [], rfl, ?_⟩
    rw [hs]
    exact ⟨represents_empty _, rfl, fun _ _ => rfl⟩
  | succ n ih =>
    obtain ⟨halong, t, outs, hrun, hrep, hquit, hheap⟩ := ih (by omega)
    have hcount := hrep.count
    rw [length_queuedKeys] at hcount
    have hfree := hheap n (Nat.le_refl n)
    obtain ⟨q', hpush, hrep', hquit', -, -, hframe⟩ := hrep.keyboardPush none c (by omega) hfree
    obtain ⟨t', out, hstep, rfl⟩ := h.push t n q' hquit hpush
    rw [List.range_succ, List.map_append, List.map_singleton]
    refine ⟨along_append_of_ok halong hrun (along_singleton (h.legal_key t n hfree)), t', _,
      run_append hrun (run_cons hstep rfl), ?_, hquit'.trans hquit, ?_⟩
    · simpa [queuedKeys, List.range_succ] using hrep'
    · intro a ha
      have hnotin : a ∉ addrs (queuedKeys c n) := by
        simp only [queuedKeys, addrs, List.map_map, List.mem_map, List.mem_range, not_exists]
        rintro b ⟨hb, rfl⟩
        exact absurd ha (by simp only [Function.comp_apply]; omega)
      rw [hframe a hnotin (Nat.ne_of_gt ha), hheap a (Nat.le_of_lt ha)]

/-- The key behind `INT_MAX` queued ones overflows `size`. -/
theorem TypesKeys.run_overflow (h : TypesKeys step legal queue key c) {s : σ}
    (hs : queue s = .empty fun _ => none) {n : Nat} (hn : (n : Int) = intMax) :
    Along step legal s ((List.range (n + 1)).map key) ∧
    run step s ((List.range (n + 1)).map key) = .error .overflow := by
  obtain ⟨halong, t, outs, hrun, hrep, hquit, hheap⟩ := h.run_range hs (Int.le_of_eq hn)
  have hcount := hrep.count
  rw [length_queuedKeys] at hcount
  have hfree := hheap n (Nat.le_refl n)
  have hne : queuedKeys c n ≠ [] := by
    intro hnil
    have hlen := length_queuedKeys c n
    rw [hnil] at hlen
    rw [← hlen] at hn
    cases hn
  have hpush := keyboardPush_overflow none c hrep.toLinked hne (hcount.trans hn) hfree
  have hstep := h.fault t n _ hquit hpush
  rw [List.range_succ, List.map_append, List.map_singleton]
  exact ⟨along_append_of_ok halong hrun (along_singleton (h.legal_key t n hfree)),
    run_append_error hrun (by simp only [run, hstep])⟩

end Typing

end Prgsem
