import Mathlib.Data.List.TakeWhile
import Prgsem.MainThread

/-!
# The printed text

What `printf` prints for a report. A `%s` prints the bytes of memory up to the
first zero byte, so the text may go on behind the array that was passed and may
have no end; it is given by its first characters, however many are asked for.
-/

namespace Prgsem

open CMemory
set_option autoImplicit false

def ascii (s : String) : List UInt8 := s.toList.map fun c => UInt8.ofNat c.toNat

/-- `%d`. -/
def decimal (v : UInt8) : List UInt8 := ascii (toString v.toNat)

/-- `%s`: at most the first `n` characters. -/
def cString (text : Mem) (n : Nat) : List UInt8 :=
  ((List.range n).map text).takeWhile fun c => c ≠ 0

/-- The first `n` characters of a format with a single `%s` in it. -/
def formatted (before : List UInt8) (text : Mem) (after : List UInt8) (n : Nat) : List UInt8 :=
  (before ++ cString text n ++ after).take n

/-- The first `n` characters that are printed for a report. -/
def Report.printed (n : Nat) : Report → List UInt8
  | .startup type text =>
    formatted (ascii "\rmessage type: " ++ decimal type ++ ascii " [") text (ascii "]\n") n
  | .version type major minor patch =>
    (ascii "\rmessage type: " ++ decimal type ++ ascii " [" ++ decimal major ++ ascii "." ++
      decimal minor ++ ascii "." ++ decimal patch ++ ascii "]\n").take n
  | .error => (ascii "\rNUCLEO: message error!\n").take n
  | .data i_re i_im iter =>
    (ascii "\rDATA: [" ++ decimal i_re ++ ascii "," ++ decimal i_im ++ ascii "] = " ++
      decimal iter ++ ascii "\n").take n
  | .nonstandard type text =>
    formatted (ascii "\rNUCLEO: nestandartni msg type [" ++ decimal type ++ ascii "] ") text
      (ascii "\n") n

/-! ## Text in memory -/

theorem takeWhile_append_cons {p : UInt8 → Bool} {x : UInt8} (h : p x = false)
    (l rest : List UInt8) : (l ++ x :: rest).takeWhile p = l.takeWhile p := by
  induction l with
  | nil => simp [h]
  | cons y l ih => simp only [List.cons_append, List.takeWhile_cons, ih]

/-- A text that ends at `z` has no more characters than that. -/
theorem cString_of_zero {text : Mem} {z n : Nat} (hz : text z = 0) (hn : z < n) :
    cString text n = cString text z := by
  obtain ⟨d, rfl⟩ : ∃ d, n = z + (d + 1) := ⟨n - z - 1, by omega⟩
  rw [cString, List.range_add, List.range_succ_eq_map, List.map_append, List.map_cons,
    List.map_cons, Nat.add_zero, hz, takeWhile_append_cons (by decide), cString]

theorem cString_eq {text : Mem} {z n : Nat} (hz : text z = 0) (hne : ∀ k, k < z → text k ≠ 0)
    (hn : z < n) : cString text n = (List.range z).map text := by
  rw [cString_of_zero hz hn, cString, List.takeWhile_eq_self_iff]
  intro c hc
  obtain ⟨k, hk, rfl⟩ := List.mem_map.mp hc
  exact decide_eq_true (hne k (List.mem_range.mp hk))

theorem cString_congr {text text' : Mem} {z : Nat} (hz : text z = 0)
    (h : ∀ k, k ≤ z → text k = text' k) (n : Nat) : cString text n = cString text' n := by
  have short (m : Nat) (hm : m ≤ z) : cString text m = cString text' m := by
    have hmap : (List.range m).map text = (List.range m).map text' := by
      apply List.map_congr_left
      intro k hk
      have hlt := List.mem_range.mp hk
      exact h k (by omega)
    rw [cString, hmap, cString]
  by_cases hn : n ≤ z
  · exact short n hn
  · have hz' : text' z = 0 := (h z (Nat.le_refl z)).symm.trans hz
    have hlt : z < n := by omega
    rw [cString_of_zero hz hlt, cString_of_zero hz' hlt, short z (Nat.le_refl z)]

theorem memoryFrom_of_lt {bytes : List UInt8} {k : Nat} (mem : Mem) (h : k < bytes.length) :
    memoryFrom bytes mem k = bytes[k] := by
  simp [memoryFrom, h]

theorem memoryFrom_of_le {bytes : List UInt8} {k : Nat} (mem : Mem) (h : bytes.length ≤ k) :
    memoryFrom bytes mem k = mem k := by
  simp [memoryFrom, h]

theorem map_memoryFrom (bytes : List UInt8) (mem : Mem) :
    (List.range bytes.length).map (memoryFrom bytes mem) = bytes := by
  apply List.ext_getElem
  · simp
  · intro k hk _
    simp only [List.length_map, List.length_range] at hk
    rw [List.getElem_map, List.getElem_range, memoryFrom_of_lt mem hk]

section Unended
variable {bytes : List UInt8} {mem : Mem} {n : Nat}

theorem memoryFrom_ne_zero (hzero : (0 : UInt8) ∉ bytes) (mem : Mem) {k : Nat}
    (hk : k < bytes.length) : memoryFrom bytes mem k ≠ 0 := by
  intro heq
  rw [memoryFrom_of_lt mem hk] at heq
  exact hzero (heq ▸ List.getElem_mem hk)

/-- Memory that ends the text at once. -/
theorem cString_ended (hzero : (0 : UInt8) ∉ bytes) (hend : mem bytes.length = 0)
    (hn : bytes.length < n) : cString (memoryFrom bytes mem) n = bytes := by
  have hmem : memoryFrom bytes mem bytes.length = 0 := by
    rw [memoryFrom_of_le mem (Nat.le_refl _), hend]
  rw [cString_eq hmem (fun _ => memoryFrom_ne_zero hzero mem) hn, map_memoryFrom]

/-- Memory that prolongs the text by one character. -/
theorem cString_prolonged (hzero : (0 : UInt8) ∉ bytes) (hone : mem bytes.length = 1)
    (hend : mem (bytes.length + 1) = 0) (hn : bytes.length + 1 < n) :
    cString (memoryFrom bytes mem) n = bytes ++ [1] := by
  have hmem : memoryFrom bytes mem bytes.length = 1 := by
    rw [memoryFrom_of_le mem (Nat.le_refl _), hone]
  have hbehind : memoryFrom bytes mem (bytes.length + 1) = 0 := by
    rw [memoryFrom_of_le mem (Nat.le_succ _), hend]
  have hne (k : Nat) (hk : k < bytes.length + 1) : memoryFrom bytes mem k ≠ 0 := by
    by_cases hlt : k < bytes.length
    · exact memoryFrom_ne_zero hzero mem hlt
    · obtain rfl : k = bytes.length := by omega
      rw [hmem]
      decide
  rw [cString_eq hbehind hne hn, List.range_succ, List.map_append, map_memoryFrom,
    List.map_singleton, hmem]

end Unended

/-- What is printed of some bytes does not depend on the memory behind them
exactly when there is a zero byte among them. -/
theorem formatted_const_iff (before : List UInt8) {after : List UInt8} (bytes : List UInt8)
    {c : UInt8} (hafter : after.head? = some c) (hc : c ≠ 1) :
    (∀ mem mem' n, formatted before (memoryFrom bytes mem) after n =
      formatted before (memoryFrom bytes mem') after n) ↔ (0 : UInt8) ∈ bytes := by
  constructor
  · intro h
    by_contra hzero
    let short : Mem := fun _ => 0
    let long : Mem := fun k => if k = bytes.length then 1 else 0
    have hshort : cString (memoryFrom bytes short) (before.length + bytes.length + 2) = bytes :=
      cString_ended hzero rfl (by omega)
    have hlong : cString (memoryFrom bytes long) (before.length + bytes.length + 2) =
        bytes ++ [1] :=
      cString_prolonged hzero (if_pos rfl) (if_neg (Nat.succ_ne_self _)) (by omega)
    have heq := congrArg (fun l : List UInt8 => l[before.length + bytes.length]?)
      (h short long (before.length + bytes.length + 2))
    obtain ⟨rest, rfl⟩ := List.head?_eq_some_iff.mp hafter
    simp only [formatted, hshort, hlong, List.append_assoc] at heq
    rw [List.getElem?_take_of_lt (by omega), List.getElem?_take_of_lt (by omega)] at heq
    rw [List.getElem?_append_right (by omega), List.getElem?_append_right (by omega),
      List.getElem?_append_right (by omega), List.getElem?_append_right (by omega)] at heq
    simp at heq
    exact hc heq
  · intro hzero mem mem' n
    obtain ⟨z, hz, hbyte⟩ := List.getElem_of_mem hzero
    have hsame : ∀ k, k ≤ z → memoryFrom bytes mem k = memoryFrom bytes mem' k := by
      intro k hk
      rw [memoryFrom_of_lt mem (by omega), memoryFrom_of_lt mem' (by omega)]
    rw [formatted, cString_congr ((memoryFrom_of_lt mem hz).trans hbyte) hsame n, formatted]

end Prgsem
