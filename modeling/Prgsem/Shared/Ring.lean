import Mathlib.Data.List.Basic

/-!
# Ring buffers with one empty slot

Two indices into an array: the next slot to fill and the next slot to empty. They
are equal when nothing is stored, and one slot always stays free, so that a full
ring is not mistaken for an empty one. The stored elements, oldest first, stand
in the slots from the second index on, around the end of the array.
-/

namespace Prgsem.Ring

set_option autoImplicit false

universe u

variable {α : Type u}

/-- The array holds the elements `l` between the slots `o` and `i`. -/
structure Holds (cells : List α) (i o : Nat) (l : List α) : Prop where
  out_lt : o < cells.length
  in_eq : i = (o + l.length) % cells.length
  spare : l.length < cells.length
  stored : ∀ k, k < l.length → cells[(o + k) % cells.length]? = l[k]?

theorem slot_eq {n o k : Nat} (ho : o < n) (hk : k ≤ n) :
    (o + k) % n = if o + k < n then o + k else o + k - n := by
  split
  · rename_i hlt
    exact Nat.mod_eq_of_lt hlt
  · rename_i hge
    rw [Nat.mod_eq_sub_mod (by omega), Nat.mod_eq_of_lt (by omega)]

theorem slot_inj {n o j k : Nat} (ho : o < n) (hj : j < n) (hk : k < n)
    (h : (o + j) % n = (o + k) % n) : j = k := by
  rw [slot_eq ho (by omega), slot_eq ho (by omega)] at h
  split at h <;> split at h <;> omega

theorem holds_empty {cells : List α} {o : Nat} (h : o < cells.length) : Holds cells o o [] where
  out_lt := h
  in_eq := (Nat.mod_eq_of_lt h).symm
  spare := Nat.lt_of_le_of_lt (Nat.zero_le o) h
  stored := by
    intro k hk
    exact absurd hk (Nat.not_lt_zero k)

namespace Holds
variable {cells : List α} {i o : Nat} {l : List α} {x : α}

theorem in_lt (h : Holds cells i o l) : i < cells.length := by
  rw [h.in_eq]
  exact Nat.mod_lt _ (Nat.lt_of_le_of_lt (Nat.zero_le o) h.out_lt)

theorem in_eq_out_iff (h : Holds cells i o l) : i = o ↔ l = [] := by
  have hspare := h.spare
  have hout := h.out_lt
  constructor
  · intro heq
    have hzero : l.length = 0 := by
      apply slot_inj hout hspare (by omega)
      rw [← h.in_eq, Nat.add_zero, heq, Nat.mod_eq_of_lt hout]
    exact List.length_eq_zero_iff.mp hzero
  · rintro rfl
    rw [h.in_eq]
    exact Nat.mod_eq_of_lt hout

theorem in_ne_out (h : Holds cells i o (x :: l)) : i ≠ o := by
  intro heq
  cases h.in_eq_out_iff.mp heq

/-- The test of the producer: the ring is full when only the spare slot is left. -/
theorem full_iff (h : Holds cells i o l) :
    (i + 1) % cells.length = o ↔ l.length + 1 = cells.length := by
  have hspare := h.spare
  have hout := h.out_lt
  rw [h.in_eq, Nat.mod_add_mod, Nat.add_assoc, slot_eq hout (by omega)]
  split <;> omega

/-- The slot to fill holds no stored element. -/
theorem set_in (h : Holds cells i o l) (x : α) : Holds (cells.set i x) i o l where
  out_lt := by rw [List.length_set]; exact h.out_lt
  in_eq := by rw [List.length_set]; exact h.in_eq
  spare := by rw [List.length_set]; exact h.spare
  stored := by
    intro k hk
    have hspare := h.spare
    have hne : i ≠ (o + k) % cells.length := by
      intro heq
      have := slot_inj h.out_lt h.spare (by omega) (h.in_eq.symm.trans heq)
      omega
    rw [List.length_set, List.getElem?_set_ne hne, h.stored k hk]

theorem advance_in (h : Holds cells i o l) (hroom : l.length + 1 < cells.length)
    (hx : cells[i]? = some x) : Holds cells ((i + 1) % cells.length) o (l ++ [x]) where
  out_lt := h.out_lt
  in_eq := by
    rw [h.in_eq, Nat.mod_add_mod, List.length_append, List.length_singleton, Nat.add_assoc]
  spare := by rwa [List.length_append, List.length_singleton]
  stored := by
    intro k hk
    rw [List.length_append, List.length_singleton] at hk
    by_cases hlast : k = l.length
    · subst hlast
      rw [← h.in_eq, hx, List.getElem?_concat_length]
    · rw [h.stored k (by omega), List.getElem?_append_left (by omega)]

theorem push (h : Holds cells i o l) (hroom : l.length + 1 < cells.length) (x : α) :
    Holds (cells.set i x) ((i + 1) % cells.length) o (l ++ [x]) := by
  have hset := (h.set_in x).advance_in (x := x) (by rwa [List.length_set])
    (List.getElem?_set_self h.in_lt)
  rwa [List.length_set] at hset

theorem front (h : Holds cells i o (x :: l)) : cells[o]? = some x := by
  have hfirst := h.stored 0 (by simp)
  rwa [Nat.add_zero, Nat.mod_eq_of_lt h.out_lt] at hfirst

theorem pop (h : Holds cells i o (x :: l)) : Holds cells i ((o + 1) % cells.length) l where
  out_lt := Nat.mod_lt _ (Nat.lt_of_le_of_lt (Nat.zero_le o) h.out_lt)
  in_eq := by
    rw [h.in_eq, Nat.mod_add_mod, List.length_cons, Nat.add_assoc, Nat.add_comm 1]
  spare := by
    have hspare := h.spare
    rw [List.length_cons] at hspare
    omega
  stored := by
    intro k hk
    have hnext := h.stored (k + 1) (by rw [List.length_cons]; omega)
    rw [Nat.mod_add_mod, Nat.add_assoc, Nat.add_comm 1, hnext, List.getElem?_cons_succ]

end Holds

end Prgsem.Ring
