import Mathlib.Data.List.Basic

/-!
# First in, first out

The abstract queue: a list of elements, oldest first, and the observable actions
it allows. What was put in is, in order, what was taken out followed by what is
still in: nothing is lost, duplicated or reordered.
-/

namespace Prgsem.Fifo

set_option autoImplicit false

universe u

variable {α : Type u}

inductive Action (α : Type u) where
  | push (x : α)
  | pop (x : Option α)
  | drain (xs : List α)
  | idle

inductive Step : List α → Action α → List α → Prop where
  | push (l : List α) (x : α) : Step l (.push x) (l ++ [x])
  | pop (x : α) (l : List α) : Step (x :: l) (.pop (some x)) l
  | empty : Step [] (.pop none) []
  | drain (l : List α) : Step l (.drain l) []
  | idle (l : List α) : Step l .idle l

inductive Accepts : List α → List (Action α) → List α → Prop where
  | nil (l : List α) : Accepts l [] l
  | snoc {l m n : List α} {acts : List (Action α)} {act : Action α} :
      Accepts l acts m → Step m act n → Accepts l (acts ++ [act]) n

def Action.pushed : Action α → List α
  | push x => [x]
  | _ => []

def Action.removed : Action α → List α
  | pop (some x) => [x]
  | drain xs => xs
  | _ => []

def pushed (acts : List (Action α)) : List α := acts.flatMap Action.pushed

def removed (acts : List (Action α)) : List α := acts.flatMap Action.removed

@[simp] theorem pushed_snoc (acts : List (Action α)) (act : Action α) :
    pushed (acts ++ [act]) = pushed acts ++ act.pushed := by
  simp [pushed]

@[simp] theorem removed_snoc (acts : List (Action α)) (act : Action α) :
    removed (acts ++ [act]) = removed acts ++ act.removed := by
  simp [removed]

theorem Step.conserves {l m : List α} {act : Action α} (h : Step l act m) :
    l ++ act.pushed = act.removed ++ m := by
  cases h <;> simp [Action.pushed, Action.removed]

/-- Nothing is lost, duplicated or reordered. -/
theorem Accepts.conserves {l m : List α} {acts : List (Action α)} (h : Accepts l acts m) :
    l ++ pushed acts = removed acts ++ m := by
  induction h with
  | nil => simp [pushed, removed]
  | snoc _ hstep ih =>
    rw [pushed_snoc, removed_snoc, ← List.append_assoc, ih, List.append_assoc, hstep.conserves,
      List.append_assoc]

theorem Accepts.removed_prefix {m : List α} {acts : List (Action α)} (h : Accepts [] acts m) :
    (removed acts).IsPrefix (pushed acts) :=
  ⟨m, by simpa using h.conserves.symm⟩

theorem Accepts.getLast?_pushed {m : List α} {acts : List (Action α)} (h : Accepts [] acts m)
    (hne : m ≠ []) : (pushed acts).getLast? = m.getLast? := by
  have heq := h.conserves
  rw [List.nil_append] at heq
  rw [heq, List.getLast?_append_of_ne_nil _ hne]

end Prgsem.Fifo
