import Mathlib.Data.List.Basic

/-!
# Traces of a labelled transition system

`Trace Step s as t`: the labels `as`, one a step, lead from `s` to `t`.
-/

namespace Prgsem

set_option autoImplicit false

universe u v

variable {σ : Type u} {α : Type v}

inductive Trace (Step : σ → α → σ → Prop) : σ → List α → σ → Prop where
  | nil (s : σ) : Trace Step s [] s
  | cons {s t r : σ} {a : α} {as : List α} :
      Step s a t → Trace Step t as r → Trace Step s (a :: as) r

namespace Trace
variable {Step : σ → α → σ → Prop} {s t r : σ} {a : α} {as bs : List α}

theorem append (h₁ : Trace Step s as t) (h₂ : Trace Step t bs r) : Trace Step s (as ++ bs) r := by
  induction h₁ with
  | nil => exact h₂
  | cons hstep _ ih => exact .cons hstep (ih h₂)

theorem snoc (h : Trace Step s as t) (hstep : Step t a r) : Trace Step s (as ++ [a]) r :=
  h.append (.cons hstep (.nil r))

theorem split (h : Trace Step s (as ++ bs) r) : ∃ t, Trace Step s as t ∧ Trace Step t bs r := by
  induction as generalizing s with
  | nil => exact ⟨s, .nil s, h⟩
  | cons a as ih =>
    cases h with
    | cons hstep hrest =>
      obtain ⟨t, h₁, h₂⟩ := ih hrest
      exact ⟨t, .cons hstep h₁, h₂⟩

theorem split_cons (h : Trace Step s (as ++ a :: bs) r) :
    ∃ t t', Trace Step s as t ∧ Step t a t' ∧ Trace Step t' bs r := by
  obtain ⟨t, h₁, h₂⟩ := h.split
  cases h₂ with
  | cons hstep hrest => exact ⟨t, _, h₁, hstep, hrest⟩

/-- What becomes true on the way does so at some label. -/
theorem exists_of_gain {P : σ → Prop} (h : Trace Step s as r) (hbefore : ¬ P s) (hafter : P r) :
    ∃ a ∈ as, ∃ t t', Step t a t' ∧ ¬ P t ∧ P t' := by
  induction h with
  | nil => exact absurd hafter hbefore
  | @cons s t r a as hstep _ ih =>
    by_cases ht : P t
    · exact ⟨a, List.mem_cons_self, s, t, hstep, hbefore, ht⟩
    · obtain ⟨b, hb, hgain⟩ := ih ht hafter
      exact ⟨b, List.mem_cons_of_mem a hb, hgain⟩

/-- What no label of the trace changes is kept. -/
theorem keeps {P : σ → Prop} (h : Trace Step s as r)
    (hstep : ∀ t a t', a ∈ as → Step t a t' → P t → P t') (hs : P s) : P r := by
  induction h with
  | nil => exact hs
  | cons hfirst _ ih =>
    apply ih
    · intro t a t' ha
      exact hstep t a t' (List.mem_cons_of_mem _ ha)
    · exact hstep _ _ _ List.mem_cons_self hfirst hs

end Trace

end Prgsem
