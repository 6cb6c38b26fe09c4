import Mathlib.Data.List.Basic
import Mathlib.Logic.Function.Basic

/-!
# Sequences of writes

A function changed at one argument after the other. What it holds in the end is
the last value written to each argument, so only the order of the writes to the
same argument matters.
-/

namespace Prgsem.Writes

set_option autoImplicit false

universe u v

variable {α : Type u} {β : Type v} [DecidableEq α]

def applyAll (f : α → β) (ws : List (α × β)) : α → β :=
  ws.foldl (fun f w => Function.update f w.1 w.2) f

/-- The values written to `a`, in order. -/
def valuesAt (a : α) (ws : List (α × β)) : List β :=
  (ws.filter fun w => w.1 = a).map Prod.snd

theorem applyAll_append (f : α → β) (ws ws' : List (α × β)) :
    applyAll f (ws ++ ws') = applyAll (applyAll f ws) ws' := List.foldl_append

theorem valuesAt_eq_nil {a : α} {ws : List (α × β)} (h : ∀ w ∈ ws, w.1 ≠ a) :
    valuesAt a ws = [] := by
  have hfilter : (ws.filter fun w => w.1 = a) = [] := by
    apply List.filter_eq_nil_iff.mpr
    intro w hw
    simpa using h w hw
  rw [valuesAt, hfilter, List.map_nil]

theorem applyAll_apply (f : α → β) (ws : List (α × β)) (a : α) :
    applyAll f ws a = (valuesAt a ws).getLast?.getD (f a) := by
  induction ws generalizing f with
  | nil => rfl
  | cons w ws ih =>
    rw [applyAll, List.foldl_cons]
    have hrest := ih (Function.update f w.1 w.2)
    rw [applyAll] at hrest
    rw [hrest]
    by_cases hw : w.1 = a
    · subst hw
      have hvalues : valuesAt w.1 (w :: ws) = w.2 :: valuesAt w.1 ws := by simp [valuesAt]
      rw [hvalues, Function.update_self, List.getLast?_cons, Option.getD_some]
    · have hvalues : valuesAt a (w :: ws) = valuesAt a ws := by simp [valuesAt, hw]
      rw [hvalues, Function.update_of_ne (Ne.symm hw)]

theorem applyAll_of_getLast? {f : α → β} {ws : List (α × β)} {a : α} {b : β}
    (h : (valuesAt a ws).getLast? = some b) : applyAll f ws a = b := by
  rw [applyAll_apply, h, Option.getD_some]

theorem applyAll_of_not_mem {f : α → β} {ws : List (α × β)} {a : α} (h : ∀ w ∈ ws, w.1 ≠ a) :
    applyAll f ws a = f a := by
  rw [applyAll_apply, valuesAt_eq_nil h]
  rfl

theorem applyAll_congr (f : α → β) {ws ws' : List (α × β)}
    (h : ∀ a, valuesAt a ws' = valuesAt a ws) : applyAll f ws' = applyAll f ws := by
  funext a
  rw [applyAll_apply, applyAll_apply, h]

end Prgsem.Writes
