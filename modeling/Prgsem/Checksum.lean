import Prgsem.Codec

/-!
# What the checksum detects and what a rejection leaves behind

The decoder accepts by the first byte, the length and the sum of all bytes. A
single wrong byte changes the sum, so it is always found. A rejected byte string
leaves the message as it was, except that its first byte has reached `type` when
the sum was right.
-/

namespace Prgsem

open CMemory
set_option autoImplicit false

/-- The sum of all bytes, before it wraps. -/
def byteSum (b : List UInt8) : Nat := (b.map UInt8.toNat).sum

theorem toNat_sum (b : List UInt8) : b.sum.toNat = byteSum b % 256 := by
  induction b with
  | nil => rfl
  | cons x b ih =>
    rw [List.sum_cons, UInt8.toNat_add, ih]
    simp only [byteSum, List.map_cons, List.sum_cons]
    omega

theorem sum_eq_iff {b b' : List UInt8} :
    b'.sum = b.sum ↔ byteSum b' % 256 = byteSum b % 256 := by
  rw [← toNat_sum, ← toNat_sum, UInt8.toNat_inj]

/-- The decoder decides by the first byte, the length and the sum alone. -/
theorem accepts_iff (abi : Abi) (b : List UInt8) (target : Message) :
    (∃ m, parseMessageBuf abi b b.length target = .ok (true, m)) ↔
      ∃ t : MessageType, b.head? = some t.toByte ∧ b.length = t.bodyLength + 2 ∧ b.sum = 255 := by
  have accepts := parseMessageBuf_accepts_iff abi b [] target
  rw [List.append_nil] at accepts
  constructor
  · rintro ⟨m, h⟩
    obtain ⟨p, rfl, -⟩ := (accepts m).mp h
    exact ⟨p.type, rfl, p.length_frame, p.sum_frame⟩
  · rintro ⟨t, hhead, hlen, hsum⟩
    obtain ⟨p, -, hp⟩ := Payload.exists_frame t b hhead hlen hsum
    exact ⟨_, (accepts _).mpr ⟨p, hp, rfl⟩⟩

theorem rejects_of_not_accepts {abi : Abi} {b : List UInt8} {target : Message}
    (h : ¬ ∃ m, parseMessageBuf abi b b.length target = .ok (true, m)) :
    ∃ m, parseMessageBuf abi b b.length target = .ok (false, m) := by
  have hframe : ∀ p : Payload, p.frame ≠ b := by
    rintro p rfl
    exact h ((accepts_iff abi _ target).mpr ⟨p.type, rfl, p.length_frame, p.sum_frame⟩)
  have hreject := parseMessageBuf_reject abi b [] target hframe
  rw [List.append_nil] at hreject
  exact ⟨_, hreject⟩

/-! ## Error detection -/

def DifferOnce (b b' : List UInt8) : Prop :=
  ∃ i : Nat, b'[i]? ≠ b[i]? ∧ ∀ j : Nat, j ≠ i → b'[j]? = b[j]?

theorem DifferOnce.split {b b' : List UInt8} (h : DifferOnce b b') (hlen : b'.length = b.length) :
    ∃ pre x y post, b = pre ++ x :: post ∧ b' = pre ++ y :: post ∧ y ≠ x := by
  obtain ⟨i, hi, hrest⟩ := h
  have hlt : i < b.length := by
    by_contra hge
    apply hi
    rw [List.getElem?_eq_none (by omega), List.getElem?_eq_none (by omega)]
  have hlt' : i < b'.length := hlen ▸ hlt
  have hset : b' = b.set i b'[i] := by
    apply List.ext_getElem?
    intro j
    by_cases hj : j = i
    · subst hj
      rw [List.getElem?_set_self hlt, List.getElem?_eq_getElem hlt']
    · rw [List.getElem?_set_ne (Ne.symm hj), hrest j hj]
  refine ⟨b.take i, b[i], b'[i], b.drop (i + 1), by simp, ?_, ?_⟩
  · exact hset.trans (List.set_eq_take_append_cons_drop.trans (if_pos hlt))
  · intro heq
    apply hi
    rw [List.getElem?_eq_getElem hlt, List.getElem?_eq_getElem hlt', heq]

/-- One wrong byte is always detected, and behind the same type byte a string of
the same length is accepted exactly when its sum is the same modulo 256. -/
theorem checksum_detects (abi : Abi) {b : List UInt8} {target m : Message}
    (h : parseMessageBuf abi b b.length target = .ok (true, m)) (b' : List UInt8)
    (hlen : b'.length = b.length) (target' : Message) :
    (DifferOnce b b' → ∃ m', parseMessageBuf abi b' b'.length target' = .ok (false, m')) ∧
    (b'.head? = b.head? →
      ((∃ m', parseMessageBuf abi b' b'.length target' = .ok (true, m')) ↔
        byteSum b' % 256 = byteSum b % 256)) := by
  obtain ⟨t, hhead, hlength, hsum⟩ := (accepts_iff abi b target).mp ⟨m, h⟩
  constructor
  · intro hdiffer
    obtain ⟨pre, x, y, post, rfl, rfl, hne⟩ := hdiffer.split hlen
    apply rejects_of_not_accepts
    intro haccept
    obtain ⟨-, -, -, hsum'⟩ := (accepts_iff abi _ target').mp haccept
    -- both sums are 255 and all other bytes are the same
    simp only [List.sum_append, List.sum_cons] at hsum hsum'
    apply hne
    grind
  · intro hhead'
    rw [accepts_iff, ← sum_eq_iff, hsum]
    constructor
    · rintro ⟨-, -, -, hsum'⟩
      exact hsum'
    · exact fun hsum' => ⟨t, hhead'.trans hhead, hlen.trans hlength, hsum'⟩

theorem checksum_detects_version :
    (∃ m, parseMessageBuf .sysV [5, 1, 0, 0, 249] 5 ⟨0, fun _ => 0, 0⟩ = .ok (true, m)) ∧
    ∃ m', parseMessageBuf .sysV [5, 1, 0, 1, 249] 5 ⟨0, fun _ => 0, 0⟩ = .ok (false, m') := by
  have haccept : parseMessageBuf .sysV [5, 1, 0, 0, 249] 5 ⟨0, fun _ => 0, 0⟩ =
      .ok (true, _) := rfl
  refine ⟨⟨_, haccept⟩, ?_⟩
  apply (checksum_detects .sysV haccept [5, 1, 0, 1, 249] rfl ⟨0, fun _ => 0, 0⟩).1
  refine ⟨3, by decide, ?_⟩
  intro j hj
  exact List.getElem?_set_ne (l := [5, 1, 0, 0, 249]) (a := 1) (Ne.symm hj)

/-! ## Rejection -/

/-- A rejection keeps the payload and the checksum field; the type is the first
byte of the string when the sum was right and as before otherwise. -/
theorem reject_keeps_payload (abi : Abi) {b : List UInt8} {msg m : Message}
    (h : parseMessageBuf abi b b.length msg = .ok (false, m)) :
    m.data = msg.data ∧ m.cksum = msg.cksum ∧
      m.type = if byteSum b % 256 = 255 then b.headD 0 else msg.type := by
  have hframe : ∀ p : Payload, p.frame ≠ b := by
    rintro p rfl
    have haccept := parseMessageBuf_frame abi p [] msg
    rw [List.append_nil, h] at haccept
    cases haccept
  have hreject := parseMessageBuf_reject abi b [] msg hframe
  rw [List.append_nil, h] at hreject
  have hsum : b.sum = 255 ↔ byteSum b % 256 = 255 := by
    rw [← UInt8.toNat_inj, toNat_sum]
    rfl
  simp only [Except.ok.injEq, Prod.mk.injEq, true_and, hsum] at hreject
  subst hreject
  split
  · exact ⟨rfl, rfl, rfl⟩
  · exact ⟨rfl, rfl, rfl⟩

theorem reject_keeps_payload_short :
    ∃ m, parseMessageBuf .sysV [5, 1] 2 ⟨9, fun _ => 7, 1⟩ = .ok (false, m) ∧
      m.data = (fun _ => 7) ∧ m.cksum = 1 ∧ m.type = 9 := by
  have hreject : parseMessageBuf .sysV [5, 1] 2 ⟨9, fun _ => 7, 1⟩ =
      .ok (false, ⟨9, fun _ => 7, 1⟩) := rfl
  exact ⟨_, hreject, reject_keeps_payload .sysV hreject⟩

/-- The single byte 255 adds up to 255 but is no type: the call fails and `type`
has changed. -/
theorem reject_changes_type :
    ∃ m, parseMessageBuf .sysV [255] 1 ⟨9, fun _ => 7, 0⟩ = .ok (false, m) ∧ m.type = 255 ∧
      m ≠ ⟨9, fun _ => 7, 0⟩ := by
  refine ⟨⟨255, fun _ => 7, 0⟩, rfl, rfl, ?_⟩
  intro h
  exact absurd (congrArg Message.type h) (by decide)

end Prgsem
