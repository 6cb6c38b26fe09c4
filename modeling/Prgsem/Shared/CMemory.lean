import Mathlib.Data.List.OfFn
import Mathlib.Data.UInt
import Mathlib.Logic.Function.Basic

/-!
# Memory and loops of a C program

Arrays are lists whose every access is checked against their length; an access
outside of the array, like any other undefined behaviour, ends the computation
in a `Fault`. Raw memory is a total function from addresses to bytes; members of
a union are windows of it. Nothing here depends on a particular program.
-/

namespace Prgsem.CMemory

set_option autoImplicit false

universe u

/-- The undefined behaviours that a modelled computation can run into. -/
inductive Fault where
  | outOfBounds
  | badLength
  | overflow
  | nullDeref
  | useAfterFree
  | badFree
  deriving DecidableEq, Repr

/-- The largest value of a 32-bit `int`. -/
abbrev intMax : Int := 2147483647

theorem bind_ok_iff {ε α β : Type u} {x : Except ε α} {f : α → Except ε β} {r : β} :
    x >>= f = .ok r ↔ ∃ a, x = .ok a ∧ f a = .ok r := by
  cases x with
  | error e => simp [bind, Except.bind]
  | ok a => simp [bind, Except.bind]

theorem bind_error_iff {ε α β : Type u} {x : Except ε α} {f : α → Except ε β} {e : ε} :
    x >>= f = .error e ↔ x = .error e ∨ ∃ a, x = .ok a ∧ f a = .error e := by
  cases x with
  | error e' => simp [bind, Except.bind]
  | ok a => simp [bind, Except.bind]

@[simp] theorem ok_bind {ε α β : Type u} (a : α) (f : α → Except ε β) :
    (Except.ok a >>= f) = f a := rfl

@[simp] theorem error_bind {ε α β : Type u} (e : ε) (f : α → Except ε β) :
    ((Except.error e : Except ε α) >>= f) = .error e := rfl

/-! ## Bounded buffers -/

abbrev Bytes (n : Nat) := Fin n → UInt8

def readAt (buf : List UInt8) (i : Nat) : Except Fault UInt8 :=
  match buf[i]? with
  | some v => .ok v
  | none => .error .outOfBounds

def writeAt (buf : List UInt8) (i : Nat) (v : UInt8) : Except Fault (List UInt8) :=
  if i < buf.length then .ok (buf.set i v) else .error .outOfBounds

def writeAll (buf : List UInt8) (i : Nat) : List UInt8 → Except Fault (List UInt8)
  | [] => .ok buf
  | v :: vs => do
    let buf ← writeAt buf i v
    writeAll buf (i + 1) vs

/-- `memcpy` of an `n`-byte object to index `i` of a buffer. -/
def memcpyTo {n : Nat} (buf : List UInt8) (i : Nat) (src : Bytes n) :
    Except Fault (List UInt8) :=
  writeAll buf i (List.ofFn src)

/-- `memcpy` of `n` bytes from index `i` of a buffer. -/
def memcpyFrom (buf : List UInt8) (i n : Nat) : Except Fault (Bytes n) :=
  if h : i + n ≤ buf.length then .ok (fun k => buf.get ⟨i + k, by omega⟩)
  else .error .outOfBounds

theorem readAt_ok {buf : List UInt8} {i : Nat} (h : i < buf.length) :
    readAt buf i = .ok buf[i] := by
  simp [readAt, h]

theorem readAt_ok_iff {buf : List UInt8} {i : Nat} {v : UInt8} :
    readAt buf i = .ok v ↔ buf[i]? = some v := by
  unfold readAt
  cases buf[i]? <;> simp

theorem writeAt_ok {buf : List UInt8} {i : Nat} (h : i < buf.length) (v : UInt8) :
    writeAt buf i v = .ok (buf.set i v) := by
  simp [writeAt, h]

theorem memcpyFrom_ok {buf : List UInt8} {i n : Nat} (h : i + n ≤ buf.length) :
    memcpyFrom buf i n = .ok (fun k => buf.get ⟨i + k, by omega⟩) := by
  simp [memcpyFrom, h]

theorem writeAll_append (buf : List UInt8) (i : Nat) (vs ws : List UInt8) :
    writeAll buf i (vs ++ ws) = (do
      let buf ← writeAll buf i vs
      writeAll buf (i + vs.length) ws) := by
  induction vs generalizing buf i with
  | nil => rfl
  | cons v vs ih =>
    simp only [List.cons_append, writeAll, ih, bind_assoc, List.length_cons]
    have hidx : i + 1 + vs.length = i + (vs.length + 1) := by omega
    rw [hidx]

theorem set_take_succ {buf : List UInt8} {i : Nat} (h : i < buf.length) (v : UInt8) :
    (buf.set i v).take (i + 1) = buf.take i ++ [v] := by
  rw [List.take_succ_eq_append_getElem (by rwa [List.length_set]), List.getElem_set_self,
    List.take_set_of_le (Nat.le_refl i)]

theorem writeAll_ok {vs : List UInt8} (buf : List UInt8) (i : Nat)
    (h : i + vs.length ≤ buf.length) :
    writeAll buf i vs = .ok (buf.take i ++ vs ++ buf.drop (i + vs.length)) := by
  induction vs generalizing buf i with
  | nil => simp [writeAll]
  | cons v vs ih =>
    simp only [List.length_cons] at h
    have hi : i < buf.length := by omega
    have hrest := ih (buf.set i v) (i + 1) (by simp only [List.length_set]; omega)
    have hdrop : (buf.set i v).drop (i + 1 + vs.length) = buf.drop (i + (vs.length + 1)) := by
      rw [List.drop_set_of_lt (by omega)]
      congr 1
      omega
    simp only [writeAll, writeAt_ok hi, ok_bind, hrest, set_take_succ hi, hdrop,
      List.length_cons, List.append_assoc, List.singleton_append]

theorem writeAll_replace (pre mid post : List UInt8) {vs : List UInt8}
    (h : vs.length = mid.length) :
    writeAll (pre ++ (mid ++ post)) pre.length vs = .ok (pre ++ (vs ++ post)) := by
  rw [writeAll_ok _ _ (by simp [h])]
  simp [h]

theorem writeAll_error {vs : List UInt8} (buf : List UInt8) (i : Nat) (hne : vs ≠ [])
    (h : buf.length < i + vs.length) : writeAll buf i vs = .error .outOfBounds := by
  induction vs generalizing buf i with
  | nil => exact absurd rfl hne
  | cons v vs ih =>
    by_cases hi : i < buf.length
    · have hvs : vs ≠ [] := by
        rintro rfl
        simp only [List.length_cons, List.length_nil] at h
        omega
      have hrest := ih (buf.set i v) (i + 1) hvs (by
        simp only [List.length_set, List.length_cons] at h ⊢
        omega)
      simp only [writeAll, writeAt_ok hi, ok_bind, hrest]
    · simp [writeAll, writeAt, hi]

theorem readAt_append (pre post : List UInt8) (x : UInt8) :
    readAt (pre ++ x :: post) pre.length = .ok x := by
  simp [readAt]

theorem writeAt_append (pre post : List UInt8) (x v : UInt8) :
    writeAt (pre ++ x :: post) pre.length v = .ok (pre ++ v :: post) := by
  rw [writeAt_ok (by simp)]
  simp

theorem readAt_eq {buf : List UInt8} {i : Nat} (pre post : List UInt8) (x : UInt8)
    (hbuf : buf = pre ++ x :: post) (hi : i = pre.length) : readAt buf i = .ok x := by
  subst hbuf hi
  exact readAt_append pre post x

theorem memcpyFrom_eq {n : Nat} {buf : List UInt8} {i : Nat} (pre post : List UInt8)
    (d : Bytes n) (hbuf : buf = pre ++ (List.ofFn d ++ post)) (hi : i = pre.length) :
    memcpyFrom buf i n = .ok d := by
  subst hbuf hi
  rw [memcpyFrom_ok (by simp)]
  congr 1
  funext k
  simp [List.getElem_append_right, List.getElem_append_left]

/-! ## Raw memory -/

/-- Memory from some address on, one byte for each offset. -/
abbrev Mem := Nat → UInt8

def Mem.load (m : Mem) (off n : Nat) : Bytes n := fun k => m (off + k)

def Mem.store {n : Nat} (m : Mem) (off : Nat) (v : Bytes n) : Mem := fun a =>
  if h : off ≤ a ∧ a < off + n then v ⟨a - off, by omega⟩ else m a

def Mem.set (m : Mem) (off : Nat) (v : UInt8) : Mem := Function.update m off v

@[simp] theorem Mem.set_self (m : Mem) (off : Nat) (v : UInt8) : m.set off v off = v := by
  simp [Mem.set]

theorem Mem.set_ne (m : Mem) {off a : Nat} (v : UInt8) (h : a ≠ off) : m.set off v a = m a := by
  simp [Mem.set, h]

@[simp] theorem Mem.load_store (m : Mem) {n : Nat} (off : Nat) (v : Bytes n) :
    (m.store off v).load off n = v := by
  funext k
  simp [Mem.load, Mem.store]

theorem Mem.load_store_disjoint (m : Mem) {n k : Nat} {off at_ : Nat} (v : Bytes n)
    (h : at_ + k ≤ off ∨ off + n ≤ at_) : (m.store off v).load at_ k = m.load at_ k := by
  funext j
  have hj := j.isLt
  have hout : ¬ (off ≤ at_ + j ∧ at_ + j < off + n) := by omega
  simp only [Mem.load, Mem.store, dif_neg hout]

theorem Mem.store_disjoint (m : Mem) {n : Nat} {off a : Nat} (v : Bytes n)
    (h : a < off ∨ off + n ≤ a) : m.store off v a = m a := by
  have hout : ¬ (off ≤ a ∧ a < off + n) := by omega
  simp only [Mem.store, dif_neg hout]

theorem Mem.load_set_disjoint (m : Mem) {k : Nat} {off at_ : Nat} (v : UInt8)
    (h : at_ + k ≤ off ∨ off < at_) : (m.set off v).load at_ k = m.load at_ k := by
  funext j
  have hj := j.isLt
  exact Mem.set_ne m v (by omega)

/-! ### Sixteen-bit members

A `uint16_t` is stored with its low byte first.
-/

def hiByte (v : UInt16) : UInt8 := (v >>> 8).toUInt8

def loByte (v : UInt16) : UInt8 := v.toUInt8

/-- `(hi << 8) | lo`. -/
def joinBytes (hi lo : UInt8) : UInt16 := hi.toUInt16 <<< 8 ||| lo.toUInt16

@[simp] theorem joinBytes_hiByte_loByte (v : UInt16) : joinBytes (hiByte v) (loByte v) = v := by
  apply UInt16.toNat_inj.mp
  have hlt := v.toNat_lt
  have hhi : ((hiByte v).toUInt16 <<< 8).toNat = (v.toNat / 2 ^ 8) <<< 8 := by
    simp only [hiByte, UInt16.toNat_shiftLeft, UInt8.toNat_toUInt16, UInt16.toNat_toUInt8,
      UInt16.toNat_shiftRight]
    simp only [Nat.shiftRight_eq_div_pow, Nat.shiftLeft_eq, UInt16.reduceToNat, Nat.reduceMod]
    omega
  have hlo : (loByte v).toUInt16.toNat = v.toNat % 2 ^ 8 := by simp [loByte]
  rw [joinBytes, UInt16.toNat_or, hhi, hlo,
    ← Nat.shiftLeft_add_eq_or_of_lt (Nat.mod_lt _ (by decide)), Nat.shiftLeft_eq]
  omega

theorem toNat_joinBytes (hi lo : UInt8) : (joinBytes hi lo).toNat = hi.toNat * 2 ^ 8 + lo.toNat := by
  have hhi := hi.toNat_lt
  have hlo := lo.toNat_lt
  rw [joinBytes, UInt16.toNat_or, UInt16.toNat_shiftLeft, UInt8.toNat_toUInt16,
    UInt8.toNat_toUInt16]
  simp only [UInt16.reduceToNat, Nat.reduceMod, Nat.shiftLeft_eq]
  rw [Nat.mod_eq_of_lt (by omega), ← Nat.shiftLeft_eq, ← Nat.shiftLeft_add_eq_or_of_lt hlo]

@[simp] theorem hiByte_joinBytes (hi lo : UInt8) : hiByte (joinBytes hi lo) = hi := by
  have hhi := hi.toNat_lt
  have hlo := lo.toNat_lt
  apply UInt8.toNat_inj.mp
  rw [hiByte, UInt16.toNat_toUInt8, UInt16.toNat_shiftRight, toNat_joinBytes]
  simp only [Nat.shiftRight_eq_div_pow, UInt16.reduceToNat, Nat.reduceMod]
  omega

@[simp] theorem loByte_joinBytes (hi lo : UInt8) : loByte (joinBytes hi lo) = lo := by
  have hlo := lo.toNat_lt
  apply UInt8.toNat_inj.mp
  rw [loByte, UInt16.toNat_toUInt8, toNat_joinBytes]
  omega

def Mem.load16 (m : Mem) (off : Nat) : UInt16 := joinBytes (m (off + 1)) (m off)

def Mem.store16 (m : Mem) (off : Nat) (v : UInt16) : Mem :=
  (m.set off (loByte v)).set (off + 1) (hiByte v)

@[simp] theorem Mem.load16_store16 (m : Mem) (off : Nat) (v : UInt16) :
    (m.store16 off v).load16 off = v := by
  have hne : off ≠ off + 1 := by omega
  simp only [load16, store16, set_self, set_ne _ _ hne, joinBytes_hiByte_loByte]

theorem Mem.store16_disjoint (m : Mem) {off a : Nat} (v : UInt16) (h : a < off ∨ off + 1 < a) :
    m.store16 off v a = m a := by
  rw [store16, set_ne _ _ (by omega), set_ne _ _ (by omega)]

theorem Mem.load16_store16_disjoint (m : Mem) {off at_ : Nat} (v : UInt16)
    (h : at_ + 1 < off ∨ off + 1 < at_) : (m.store16 off v).load16 at_ = m.load16 at_ := by
  rw [load16, store16_disjoint m v (by omega), store16_disjoint m v (by omega), load16]

theorem Mem.load16_set_disjoint (m : Mem) {off at_ : Nat} (v : UInt8)
    (h : at_ + 1 < off ∨ off < at_) : (m.set off v).load16 at_ = m.load16 at_ := by
  rw [load16, set_ne _ _ (by omega), set_ne _ _ (by omega), load16]

/-! ## Counting loops -/

section Loop
variable {ε σ : Type u}

/-- `for (i = i₀; n more times; ++i)`. -/
def forLoop (body : Nat → σ → Except ε σ) : Nat → Nat → σ → Except ε σ
  | _, 0, s => .ok s
  | i, n + 1, s => body i s >>= forLoop body (i + 1) n

theorem forLoop_ok (body : Nat → σ → Except ε σ) (inv : Nat → σ → Prop) {i n : Nat} {s : σ}
    (init : inv i s)
    (step : ∀ j s, i ≤ j → j < i + n → inv j s → ∃ s', body j s = .ok s' ∧ inv (j + 1) s') :
    ∃ s', forLoop body i n s = .ok s' ∧ inv (i + n) s' := by
  induction n generalizing i s with
  | zero => exact ⟨s, rfl, init⟩
  | succ n ih =>
    obtain ⟨s₁, hbody, hinv⟩ := step i s (Nat.le_refl i) (by omega) init
    obtain ⟨s₂, hloop, hend⟩ := ih hinv
      (fun j t hj hlt ht => step j t (by omega) (by omega) ht)
    have hidx : i + 1 + n = i + (n + 1) := by omega
    refine ⟨s₂, ?_, hidx ▸ hend⟩
    simp only [forLoop, hbody, ok_bind, hloop]

theorem forLoop_visits {body : Nat → σ → Except ε σ} {i n j : Nat} {s t : σ}
    (h : forLoop body i n s = .ok t) (hi : i ≤ j) (hj : j < i + n) :
    ∃ u u', body j u = .ok u' := by
  induction n generalizing i s with
  | zero => omega
  | succ n ih =>
    obtain ⟨s', hbody, hrest⟩ := bind_ok_iff.mp h
    by_cases heq : i = j
    · subst heq
      exact ⟨s, s', hbody⟩
    · exact ih hrest (by omega) (by omega)

end Loop

theorem forLoop_writeAt (f : Nat → UInt8) (off i n : Nat) (buf : List UInt8) :
    forLoop (fun i buf => writeAt buf (off + i) (f i)) i n buf =
      writeAll buf (off + i) (List.ofFn fun k : Fin n => f (i + k)) := by
  induction n generalizing i buf with
  | zero => rfl
  | succ n ih =>
    have hshift : (fun k : Fin n => f (i + k.succ)) = fun k : Fin n => f (i + 1 + k) := by
      funext k
      congr 1
      simp only [Fin.val_succ]
      omega
    simp only [forLoop, List.ofFn_succ, Fin.val_zero, Nat.add_zero, hshift, writeAll]
    apply bind_congr
    intro buf
    rw [ih, Nat.add_assoc]

/-- The byte behind a list that completes its sum to 255. -/
theorem sum_append_complement (l : List UInt8) : (l ++ [255 - l.sum]).sum = 255 := by
  rw [List.sum_append, List.sum_singleton]
  grind

theorem forLoop_sum {buf : List UInt8} {n : Nat} (h : n ≤ buf.length) :
    forLoop (fun i (sum : UInt8) => do
      let v ← readAt buf i
      return sum + v) 0 n 0 = .ok (buf.take n).sum := by
  obtain ⟨sum, hloop, hinv⟩ := forLoop_ok (fun i (sum : UInt8) => do
      let v ← readAt buf i
      return sum + v)
    (fun j (sum : UInt8) => sum = (buf.take j).sum) (i := 0) (n := n) (s := 0) (by simp) (by
      intro j sum _ hj hsum
      have hlt : j < buf.length := by omega
      refine ⟨sum + buf[j], by rw [readAt_ok hlt]; rfl, ?_⟩
      rw [hsum, List.take_succ_eq_append_getElem hlt, List.sum_append]
      simp)
  rw [hloop, hinv, Nat.zero_add]

theorem forLoop_set {n : Nat} (pre post : List UInt8) (d : Bytes n) (off : Nat) (m : Mem) :
    forLoop (fun i (m : Mem) => do
      let v ← readAt (pre ++ (List.ofFn d ++ post)) (i + pre.length)
      return m.set (off + i) v) 0 n m = .ok (m.store off d) := by
  obtain ⟨m', hloop, hinv⟩ := forLoop_ok (fun i (m : Mem) => do
      let v ← readAt (pre ++ (List.ofFn d ++ post)) (i + pre.length)
      return m.set (off + i) v)
    (fun j (m' : Mem) => ∀ a, m' a = if off ≤ a ∧ a < off + j then m.store off d a else m a)
    (i := 0) (n := n) (s := m) (by intro a; rw [if_neg (by omega)]) (by
      intro j m₁ _ hj hm₁
      have hlt : j < n := by omega
      have hread : readAt (pre ++ (List.ofFn d ++ post)) (j + pre.length) = .ok (d ⟨j, hlt⟩) := by
        rw [readAt_ok_iff, List.getElem?_append_right (by omega),
          List.getElem?_append_left (by simp; omega)]
        simp [hlt]
      refine ⟨m₁.set (off + j) (d ⟨j, hlt⟩), by rw [hread]; rfl, ?_⟩
      intro a
      by_cases ha : a = off + j
      · subst ha
        rw [Mem.set_self, if_pos (by omega)]
        simp [Mem.store, hlt]
      · rw [Mem.set_ne _ _ ha, hm₁ a]
        by_cases hin : off ≤ a ∧ a < off + j
        · rw [if_pos hin, if_pos (by omega)]
        · rw [if_neg hin, if_neg (by omega)])
  have hm' : m' = m.store off d := by
    funext a
    rw [hinv a]
    split
    · rfl
    · rw [Mem.store_disjoint]
      omega
  rw [hloop, hm']

end Prgsem.CMemory
