import Mathlib.Data.List.Basic

/-!
# Singly linked chains

`link a` is the content of the next pointer of node `a`, or `none` when there is
no node at `a`. `Chain link p l` says that following the pointers from `p` visits
exactly the nodes `l` and ends at a null pointer.
-/

namespace Prgsem

set_option autoImplicit false

universe u

variable {α : Type u}

inductive Chain (link : α → Option (Option α)) : Option α → List α → Prop where
  | nil : Chain link none []
  | cons {a : α} {p : Option α} {l : List α} :
      link a = some p → Chain link p l → Chain link (some a) (a :: l)

namespace Chain
variable {link link' : α → Option (Option α)} {p : Option α} {l l' : List α} {a : α}

theorem nil_iff : Chain link p [] ↔ p = none := by
  constructor
  · intro h
    cases h
    rfl
  · rintro rfl
    exact .nil

theorem cons_iff : Chain link p (a :: l) ↔ p = some a ∧ ∃ q, link a = some q ∧ Chain link q l := by
  constructor
  · intro h
    cases h with
    | cons hlink hrest => exact ⟨rfl, _, hlink, hrest⟩
  · rintro ⟨rfl, q, hlink, hrest⟩
    exact .cons hlink hrest

theorem unique (h : Chain link p l) (h' : Chain link p l') : l = l' := by
  induction h generalizing l' with
  | nil =>
    cases h'
    rfl
  | cons hlink _ ih =>
    cases h' with
    | cons hlink' hrest' =>
      rw [hlink] at hlink'
      cases hlink'
      rw [ih hrest']

theorem suffix (h : Chain link p l) (ha : a ∈ l) :
    ∃ rest, Chain link (some a) (a :: rest) ∧ rest.length < l.length := by
  induction h with
  | nil => cases ha
  | cons hlink hrest ih =>
    cases ha with
    | head => exact ⟨_, .cons hlink hrest, by simp⟩
    | tail _ ha =>
      obtain ⟨rest, hchain, hlen⟩ := ih ha
      exact ⟨rest, hchain, by simp only [List.length_cons]; omega⟩

/-- A chain that ends has no cycle, so it visits no node twice. -/
theorem nodup (h : Chain link p l) : l.Nodup := by
  induction h with
  | nil => exact List.nodup_nil
  | cons hlink hrest ih =>
    refine List.nodup_cons.mpr ⟨?_, ih⟩
    intro hmem
    obtain ⟨rest, hchain, hlen⟩ := suffix hrest hmem
    have heq := unique (Chain.cons hlink hrest) hchain
    cases heq
    omega

theorem congr (h : Chain link p l) (hlink : ∀ a ∈ l, link' a = link a) : Chain link' p l := by
  induction h with
  | nil => exact .nil
  | cons hl _ ih =>
    refine .cons ((hlink _ List.mem_cons_self).trans hl) (ih ?_)
    intro a ha
    exact hlink a (List.mem_cons_of_mem _ ha)

theorem snoc {b : α} (h : Chain link p l) (hlast : l.getLast? = some b)
    (hnew : link' a = some none) (hend : link' b = some (some a))
    (hrest : ∀ c ∈ l, c ≠ b → link' c = link c) : Chain link' p (l ++ [a]) := by
  have hnodup := h.nodup
  induction h with
  | nil => cases hlast
  | @cons c q l hc hchain ih =>
    cases l with
    | nil =>
      cases hchain
      cases hlast
      exact .cons hend (.cons hnew .nil)
    | cons d l =>
      have htail : (d :: l).getLast? = some b := by
        rwa [List.getLast?_cons_cons] at hlast
      have hcb : c ≠ b := by
        rintro rfl
        exact (List.nodup_cons.mp hnodup).1 (List.mem_of_getLast? htail)
      refine .cons ((hrest c List.mem_cons_self hcb).trans hc) ?_
      apply ih htail
      · intro e he
        exact hrest e (List.mem_cons_of_mem c he)
      · exact (List.nodup_cons.mp hnodup).2

end Chain

end Prgsem
