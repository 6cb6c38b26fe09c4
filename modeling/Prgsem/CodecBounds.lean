import Prgsem.Codec

/-!
# The bounds of the codec

Accesses outside of a buffer are faults, so a call that succeeds on a shorter
buffer touches nothing behind it. The encoder behaves on the first `*len` bytes
as on the whole buffer, and the decoder needs no byte behind the given size.
-/

namespace Prgsem

open CMemory
set_option autoImplicit false

/-- What a call of `fill_message_buf` on `buf` may touch, when it returns `ret`,
leaves `buf'` in the buffer and `len'` in `*len`. -/
structure FillsWithin (abi : Abi) (msg : Message) (buf : List UInt8) (len : Int) (ret : Bool)
    (buf' : List UInt8) (len' : Int) : Prop where
  nonneg : 0 ≤ len'
  fits : len' ≤ buf.length
  length : buf'.length = buf.length
  unchanged : ∀ i : Nat, len' ≤ i → buf'[i]? = buf[i]?
  rejected : ret = false → buf' = buf ∧ len' = 0
  /-- No byte from `len'` on is read or written: the call does the same without them. -/
  within : fillMessageBuf abi msg (buf.take len'.toNat) buf.length len =
    .ok (ret, buf'.take len'.toNat, len')

theorem fill_within_frame (abi : Abi) {msg : Message} {p : Payload} (h : msg.payload abi = some p)
    {buf : List UInt8} (hsize : abi.sizeofMessage ≤ buf.length) (len : Int) :
    FillsWithin abi msg buf len true (p.frame ++ buf.drop p.frame.length) p.frame.length := by
  have hle := frame_le_sizeofMessage abi p
  have hfits : p.frame.length ≤ buf.length := by omega
  have htake : p.frame.length ≤ (buf.take p.frame.length).length := by
    rw [List.length_take]
    omega
  refine ⟨by omega, by omega, ?_, ?_, by simp, ?_⟩
  · rw [List.length_append, List.length_drop]
    omega
  · intro i hi
    rw [List.getElem?_append_right (by omega), List.getElem?_drop]
    congr 1
    omega
  · rw [Int.toNat_natCast, fillMessageBuf_eq abi msg p _ _ len h (by omega) htake]
    simp

theorem fill_within_unknown (abi : Abi) {msg : Message} (h : msg.payload abi = none)
    {buf : List UInt8} (hsize : abi.sizeofMessage ≤ buf.length) (len : Int) :
    FillsWithin abi msg buf len false buf 0 := by
  refine ⟨by omega, by omega, rfl, fun _ _ => rfl, fun _ => ⟨rfl, rfl⟩, ?_⟩
  rw [Int.toNat_zero, List.take_zero]
  exact fillMessageBuf_unknown abi msg [] _ len h (by omega)

/-- The encoder stays below the final `*len`, which stays within the buffer, and
touches nothing when it fails; the decoder stays within the size it is given. -/
theorem codec_bounds (abi : Abi) :
    (∀ (msg : Message) (buf : List UInt8) (len : Int), abi.sizeofMessage ≤ buf.length →
      ∃ ret buf' len', fillMessageBuf abi msg buf buf.length len = .ok (ret, buf', len') ∧
        FillsWithin abi msg buf len ret buf' len') ∧
    (∀ (buf : List UInt8) (msg : Message),
      ∃ ret m, parseMessageBuf abi buf buf.length msg = .ok (ret, m)) := by
  constructor
  · intro msg buf len hsize
    cases hp : msg.payload abi with
    | none =>
      exact ⟨_, _, _, fillMessageBuf_unknown abi msg buf _ len hp (by omega),
        fill_within_unknown abi hp hsize len⟩
    | some p =>
      have hle := frame_le_sizeofMessage abi p
      exact ⟨_, _, _, fillMessageBuf_eq abi msg p buf _ len hp (by omega) (by omega),
        fill_within_frame abi hp hsize len⟩
  · exact parseMessageBuf_total abi

theorem codec_bounds_version :
    fillMessageBuf .sysV ⟨5, fun _ => 1, 0⟩ (List.replicate 56 170) 56 9 =
      .ok (true, [5, 1, 1, 1, 247] ++ List.replicate 51 170, 5) ∧
    FillsWithin .sysV ⟨5, fun _ => 1, 0⟩ (List.replicate 56 170) 9 true
      ([5, 1, 1, 1, 247] ++ List.replicate 51 170) 5 := by
  have hwritten : fillMessageBuf .sysV ⟨5, fun _ => 1, 0⟩ (List.replicate 56 170) 56 9 =
      .ok (true, [5, 1, 1, 1, 247] ++ List.replicate 51 170, 5) := rfl
  obtain ⟨ret, buf', len', hfill, hwithin⟩ :=
    (codec_bounds .sysV).1 ⟨5, fun _ => 1, 0⟩ (List.replicate 56 170) 9 (by decide)
  cases hwritten.symm.trans hfill
  exact ⟨hwritten, hwithin⟩

end Prgsem
