import Prgsem.Shared.CMemory
import Prgsem.Shared.Ring

/-!
# The ring buffers of the firmware

`tx_buffer` and `rx_buffer` have `BUF_SIZE` slots each, and two indices that
advance modulo `BUF_SIZE`.
-/

namespace Prgsem.Firmware

open CMemory
set_option autoImplicit false

def bufSize : Nat := 255

/-- A buffer of the right size with the bytes `l` between its indices. -/
structure Stored (buffer : List UInt8) (i o : Nat) (l : List UInt8) : Prop where
  ring : Ring.Holds buffer i o l
  size : buffer.length = bufSize

theorem stored_nil {buffer : List UInt8} (h : buffer.length = bufSize) : Stored buffer 0 0 [] where
  ring := Ring.holds_empty (by rw [h]; decide)
  size := h

namespace Stored
variable {buffer : List UInt8} {i o : Nat} {l : List UInt8} {x : UInt8}

theorem in_lt (h : Stored buffer i o l) : i < bufSize := h.size ▸ h.ring.in_lt

theorem out_lt (h : Stored buffer i o l) : o < bufSize := h.size ▸ h.ring.out_lt

theorem length_lt (h : Stored buffer i o l) : l.length < bufSize := h.size ▸ h.ring.spare

theorem empty_iff (h : Stored buffer i o l) : i = o ↔ l = [] := h.ring.in_eq_out_iff

theorem in_ne_out (h : Stored buffer i o (x :: l)) : i ≠ o := h.ring.in_ne_out

theorem full_iff (h : Stored buffer i o l) : (i + 1) % bufSize = o ↔ l.length + 1 = bufSize := by
  have hfull := h.ring.full_iff
  rwa [h.size] at hfull

theorem write (h : Stored buffer i o l) (x : UInt8) :
    writeAt buffer i x = .ok (buffer.set i x) ∧ Stored (buffer.set i x) i o l :=
  ⟨writeAt_ok h.ring.in_lt x, h.ring.set_in x, by rw [List.length_set]; exact h.size⟩

/-- The test before a byte is stored leaves the spare slot free. -/
theorem room (h : Stored buffer i o l) (hroom : (i + 1) % bufSize ≠ o) :
    l.length + 1 < buffer.length := by
  have hfull := h.full_iff
  have hlt := h.length_lt
  rw [h.size]
  omega

theorem advance_in (h : Stored buffer i o l) (hroom : (i + 1) % bufSize ≠ o)
    (hx : buffer[i]? = some x) : Stored buffer ((i + 1) % bufSize) o (l ++ [x]) where
  ring := by
    have hnext := h.ring.advance_in (h.room hroom) hx
    rwa [h.size] at hnext
  size := h.size

theorem push (h : Stored buffer i o l) (hroom : (i + 1) % bufSize ≠ o) (x : UInt8) :
    Stored (buffer.set i x) ((i + 1) % bufSize) o (l ++ [x]) where
  ring := by
    have hnext := h.ring.push (h.room hroom) x
    rwa [h.size] at hnext
  size := by rw [List.length_set]; exact h.size

theorem read (h : Stored buffer i o (x :: l)) : readAt buffer o = .ok x :=
  readAt_ok_iff.mpr h.ring.front

theorem pop (h : Stored buffer i o (x :: l)) : Stored buffer i ((o + 1) % bufSize) l where
  ring := by
    have hpop := h.ring.pop
    rwa [h.size] at hpop
  size := h.size

end Stored

end Prgsem.Firmware
