import Prgsem.Shared.CMemory

/-!
# Drawing the image

The double loop of `xwin_redraw` in `xwin_sdl.c`. The place of a pixel is computed
from the width of the surface, although a row of it takes `pitch` bytes. The
arguments `w` and `h` of the function are not read.
-/

namespace Prgsem.Redraw

open CMemory
set_option autoImplicit false

inductive Channel where
  | red
  | green
  | blue
  deriving DecidableEq, Repr

/-- The members of an `SDL_Surface` and of its `SDL_PixelFormat`. -/
structure Geometry where
  w : Nat
  h : Nat
  pitch : Nat
  bytesPerPixel : UInt8
  rshift : UInt8
  gshift : UInt8
  bshift : UInt8

namespace Geometry

def shift (g : Geometry) : Channel → UInt8
  | .red => g.rshift
  | .green => g.gshift
  | .blue => g.bshift

/-- The byte of a pixel that holds the channel. -/
def offset (g : Geometry) (c : Channel) : Nat := (g.shift c / 8).toNat

/-- What SDL guarantees. -/
structure Sound (g : Geometry) : Prop where
  bytes : 3 ≤ g.bytesPerPixel
  pitch : g.w * g.bytesPerPixel.toNat ≤ g.pitch
  aligned : ∀ c, (g.shift c).toNat % 8 = 0
  within : ∀ c, (g.shift c).toNat < 8 * g.bytesPerPixel.toNat
  distinct : ∀ c d, g.shift c = g.shift d → c = d

end Geometry

/-- The bytes of the surface, and how many bytes of the image have been read. -/
structure Canvas where
  pixels : List UInt8
  img : Nat

/-- The value of an `int` expression. -/
def intValue (v : Nat) : Except Fault Nat :=
  if (v : Int) ≤ intMax then .ok v else .error .overflow

/-- `*(px + shift / 8) = *(img++)`. -/
def putByte (img : List UInt8) (px : Nat) (shift : UInt8) (s : Canvas) : Except Fault Canvas := do
  let v ← readAt img s.img
  let pixels ← writeAt s.pixels (px + (shift / 8).toNat) v
  return ⟨pixels, s.img + 1⟩

/-- The body of the inner loop. -/
def putPixel (g : Geometry) (img : List UInt8) (y x : Nat) (s : Canvas) : Except Fault Canvas := do
  let row ← intValue (y * g.w)
  let k ← intValue (row + x)
  let idx ← intValue (k * g.bytesPerPixel.toNat)
  let s ← putByte img idx g.rshift s
  let s ← putByte img idx g.gshift s
  putByte img idx g.bshift s

def xwinRedraw (g : Geometry) (img : List UInt8) (pixels : List UInt8) : Except Fault Canvas :=
  forLoop (fun y s => forLoop (fun x s => putPixel g img y x s) 0 g.w s) 0 g.h ⟨pixels, 0⟩

/-! ## Where the loops write -/

theorem Channel.forall_iff {P : Channel → Prop} : (∀ c, P c) ↔ P .red ∧ P .green ∧ P .blue := by
  constructor
  · intro h
    exact ⟨h .red, h .green, h .blue⟩
  · intro h c
    cases c with
    | red => exact h.1
    | green => exact h.2.1
    | blue => exact h.2.2

instance {P : Channel → Prop} [DecidablePred P] : Decidable (∀ c, P c) :=
  decidable_of_iff _ Channel.forall_iff.symm

def Channel.index : Channel → Nat
  | red => 0
  | green => 1
  | blue => 2

theorem Channel.index_lt (c : Channel) : c.index < 3 := by
  cases c <;> decide

/-- The channel that byte `i` of the image is for. -/
def channelOf (i : Nat) : Channel :=
  match i % 3 with
  | 0 => .red
  | 1 => .green
  | _ => .blue

/-- Where byte `i` of the image goes. -/
def place (g : Geometry) (i : Nat) : Nat :=
  i / 3 * g.bytesPerPixel.toNat + g.offset (channelOf i)

/-- The first `n` bytes of the image are drawn, pixel behind pixel. -/
structure Drawn (g : Geometry) (img pixels : List UInt8) (n : Nat) (s : Canvas) : Prop where
  read : s.img = n
  size : s.pixels.length = pixels.length
  drawn : ∀ i, i < n → s.pixels[place g i]? = img[i]?
  others : ∀ p, (∀ i, i < n → p ≠ place g i) → s.pixels[p]? = pixels[p]?

theorem place_channel (g : Geometry) (k : Nat) (c : Channel) :
    place g (3 * k + c.index) = k * g.bytesPerPixel.toNat + g.offset c := by
  have hdiv : (3 * k + c.index) / 3 = k := by
    cases c <;> simp only [Channel.index] <;> omega
  have hchannel : channelOf (3 * k + c.index) = c := by
    unfold channelOf
    cases c <;> simp [Channel.index]
  rw [place, hdiv, hchannel]

theorem exists_channel (i : Nat) : ∃ c : Channel, i = 3 * (i / 3) + c.index := by
  have hlt := Nat.mod_lt i (by decide : 0 < 3)
  have hdiv := Nat.div_add_mod i 3
  obtain hmod | hmod | hmod : i % 3 = 0 ∨ i % 3 = 1 ∨ i % 3 = 2 := by omega
  · exact ⟨.red, by rw [Channel.index]; omega⟩
  · exact ⟨.green, by rw [Channel.index]; omega⟩
  · exact ⟨.blue, by rw [Channel.index]; omega⟩

namespace Geometry.Sound
variable {g : Geometry}

theorem offset_eq (g : Geometry) (c : Channel) : g.offset c = (g.shift c).toNat / 8 := by
  rw [offset, UInt8.toNat_div]
  rfl

theorem offset_lt (h : g.Sound) (c : Channel) : g.offset c < g.bytesPerPixel.toNat := by
  have hwithin := h.within c
  rw [offset_eq]
  omega

theorem offset_inj (h : g.Sound) {c d : Channel} (heq : g.offset c = g.offset d) : c = d := by
  have hc := h.aligned c
  have hd := h.aligned d
  rw [offset_eq, offset_eq] at heq
  exact h.distinct c d (UInt8.toNat_inj.mp (by omega))

theorem place_inj (h : g.Sound) {i j : Nat} (heq : place g i = place g j) : i = j := by
  obtain ⟨c, hi⟩ := exists_channel i
  obtain ⟨d, hj⟩ := exists_channel j
  have hc := h.offset_lt c
  have hd := h.offset_lt d
  have hpos : 0 < g.bytesPerPixel.toNat := Nat.lt_of_le_of_lt (Nat.zero_le _) hc
  rw [hi, hj, place_channel, place_channel, Nat.mul_comm, Nat.mul_comm (j / 3)] at heq
  have hdiv := congrArg (· / g.bytesPerPixel.toNat) heq
  have hmod := congrArg (· % g.bytesPerPixel.toNat) heq
  simp only [Nat.mul_add_div hpos, Nat.div_eq_of_lt hc, Nat.div_eq_of_lt hd] at hdiv
  simp only [Nat.mul_add_mod, Nat.mod_eq_of_lt hc, Nat.mod_eq_of_lt hd] at hmod
  have hsame := h.offset_inj hmod
  rw [hi, hj, hsame]
  omega

theorem place_lt (h : g.Sound) {i m : Nat} (hi : i < 3 * m) :
    place g i < m * g.bytesPerPixel.toNat := by
  obtain ⟨c, hchannel⟩ := exists_channel i
  have hc := h.offset_lt c
  rw [hchannel, place_channel]
  calc i / 3 * g.bytesPerPixel.toNat + g.offset c
      < i / 3 * g.bytesPerPixel.toNat + g.bytesPerPixel.toNat := Nat.add_lt_add_left hc _
    _ = (i / 3 + 1) * g.bytesPerPixel.toNat := (Nat.succ_mul _ _).symm
    _ ≤ m * g.bytesPerPixel.toNat := Nat.mul_le_mul_right _ (by omega)

/-- The rows take at least the bytes of their pixels. -/
theorem bytes_le (h : g.Sound) : g.w * g.h * g.bytesPerPixel.toNat ≤ g.h * g.pitch := by
  calc g.w * g.h * g.bytesPerPixel.toNat = g.h * (g.w * g.bytesPerPixel.toNat) := by
        rw [Nat.mul_comm g.w, Nat.mul_assoc]
    _ ≤ g.h * g.pitch := Nat.mul_le_mul_left _ h.pitch

theorem bytes_pos (h : g.Sound) : 0 < g.bytesPerPixel.toNat :=
  Nat.lt_of_le_of_lt (Nat.zero_le _) (h.offset_lt .red)

end Geometry.Sound

/-- The place of the last pixel is an `int`. -/
def Geometry.InRange (g : Geometry) : Prop :=
  (((g.w * g.h - 1) * g.bytesPerPixel.toNat : Nat) : Int) ≤ intMax

/-- A surface and an image of the right sizes. -/
structure Fits (g : Geometry) (img pixels : List UInt8) : Prop where
  pixels : pixels.length = g.h * g.pitch
  img : img.length = 3 * g.w * g.h

theorem intValue_ok {v : Nat} (h : (v : Int) ≤ intMax) : intValue v = .ok v := by
  rw [intValue, if_pos h]

theorem intValue_ok_iff {v v' : Nat} : intValue v = .ok v' ↔ (v : Int) ≤ intMax ∧ v = v' := by
  unfold intValue
  split <;> simp [*]

section Loops
variable {g : Geometry} {img pixels : List UInt8} {n : Nat} {s : Canvas}

theorem drawn_zero : Drawn g img pixels 0 ⟨pixels, 0⟩ where
  read := rfl
  size := rfl
  drawn := fun i hi => absurd hi (Nat.not_lt_zero i)
  others := fun _ _ => rfl

theorem Drawn.putByte (h : Drawn g img pixels n s) (hsound : g.Sound) (hn : n < img.length)
    {px : Nat} {shift : UInt8} (hpx : px + (shift / 8).toNat = place g n)
    (hroom : place g n < pixels.length) :
    ∃ s', putByte img px shift s = .ok s' ∧ Drawn g img pixels (n + 1) s' := by
  have hread : readAt img s.img = .ok img[n] := by rw [h.read, readAt_ok hn]
  have hsize : place g n < s.pixels.length := by rwa [h.size]
  have hwrite := writeAt_ok hsize img[n]
  refine ⟨⟨s.pixels.set (place g n) img[n], s.img + 1⟩, ?_, ?_, ?_, ?_, ?_⟩
  · simp only [Redraw.putByte, hread, ok_bind, hpx, hwrite]
    rfl
  · simp only [h.read]
  · simp only [List.length_set, h.size]
  · intro i hi
    by_cases hlast : i = n
    · subst hlast
      rw [List.getElem?_set_self hsize, List.getElem?_eq_getElem hn]
    · have hne : place g n ≠ place g i := fun heq => hlast (hsound.place_inj heq).symm
      rw [List.getElem?_set_ne hne, h.drawn i (by omega)]
  · intro p hp
    have hne : place g n ≠ p := fun heq => hp n (Nat.lt_succ_self n) heq.symm
    rw [List.getElem?_set_ne hne]
    exact h.others p fun i hi => hp i (Nat.lt_succ_of_lt hi)

theorem Drawn.putPixel {y x k : Nat} (h : Drawn g img pixels (3 * k) s) (hsound : g.Sound)
    (hfits : Fits g img pixels) (hrange : g.InRange) (hk : k = y * g.w + x)
    (hlast : k < g.w * g.h) :
    ∃ s', putPixel g img y x s = .ok s' ∧ Drawn g img pixels (3 * (k + 1)) s' := by
  have hidx : k * g.bytesPerPixel.toNat ≤ (g.w * g.h - 1) * g.bytesPerPixel.toNat :=
    Nat.mul_le_mul_right _ (by omega)
  have hle : k ≤ k * g.bytesPerPixel.toNat := Nat.le_mul_of_pos_right k hsound.bytes_pos
  have hmax : ((k * g.bytesPerPixel.toNat : Nat) : Int) ≤ intMax := by
    unfold Geometry.InRange at hrange
    omega
  have hrow := intValue_ok (v := y * g.w) (by omega)
  have hpixel := intValue_ok (v := k) (by omega)
  have himg : 3 * k + 3 ≤ img.length := by
    rw [hfits.img, Nat.mul_assoc]
    omega
  have hroom (i : Nat) (hi : i < 3 * (k + 1)) : place g i < pixels.length := by
    have hplace := hsound.place_lt hi
    have hbytes := hsound.bytes_le
    have hmul : (k + 1) * g.bytesPerPixel.toNat ≤ g.w * g.h * g.bytesPerPixel.toNat :=
      Nat.mul_le_mul_right _ hlast
    rw [hfits.pixels]
    omega
  obtain ⟨s₁, hred, h₁⟩ := h.putByte hsound (by omega) (place_channel g k .red).symm
    (hroom _ (by omega))
  obtain ⟨s₂, hgreen, h₂⟩ := h₁.putByte hsound (by omega) (place_channel g k .green).symm
    (hroom _ (by omega))
  obtain ⟨s₃, hblue, h₃⟩ := h₂.putByte hsound (by omega) (place_channel g k .blue).symm
    (hroom _ (by omega))
  refine ⟨s₃, ?_, h₃⟩
  simp only [Geometry.shift] at hred hgreen hblue
  simp only [Redraw.putPixel, hrow, ok_bind, ← hk, hpixel, intValue_ok hmax, hred, hgreen, hblue]

/-- The double loop draws the whole image, one pixel behind the other. -/
theorem redraw_drawn (hsound : g.Sound) (hfits : Fits g img pixels) (hrange : g.InRange) :
    ∃ s, xwinRedraw g img pixels = .ok s ∧ Drawn g img pixels (3 * (g.w * g.h)) s := by
  have hrow (y : Nat) (s : Canvas) (hy : y < g.h) (h : Drawn g img pixels (3 * (y * g.w)) s) :
      ∃ s', forLoop (fun x s => putPixel g img y x s) 0 g.w s = .ok s' ∧
        Drawn g img pixels (3 * ((y + 1) * g.w)) s' := by
    obtain ⟨s', hloop, hdrawn⟩ := forLoop_ok (fun x s => putPixel g img y x s)
      (fun x s => Drawn g img pixels (3 * (y * g.w + x)) s) (i := 0) (n := g.w) h (by
        intro x t _ hx ht
        have hrows : (y + 1) * g.w ≤ g.h * g.w := Nat.mul_le_mul_right _ hy
        rw [Nat.succ_mul, Nat.mul_comm g.h] at hrows
        exact ht.putPixel hsound hfits hrange rfl (by omega))
    exact ⟨s', hloop, by rwa [Nat.zero_add, ← Nat.succ_mul] at hdrawn⟩
  obtain ⟨s, hloop, hdrawn⟩ := forLoop_ok
    (fun y s => forLoop (fun x s => putPixel g img y x s) 0 g.w s)
    (fun y s => Drawn g img pixels (3 * (y * g.w)) s) (i := 0) (n := g.h) (s := ⟨pixels, 0⟩)
    (by rw [Nat.zero_mul]; exact drawn_zero)
    (fun y t _ hy ht => hrow y t (by omega) ht)
  exact ⟨s, hloop, by rwa [Nat.zero_add, Nat.mul_comm g.h] at hdrawn⟩

end Loops

/-! ## Where the pixels are -/

/-- The byte of the surface that holds a channel of pixel `(x, y)`. -/
def pixelByte (g : Geometry) (x y : Nat) (c : Channel) : Nat :=
  y * g.pitch + x * g.bytesPerPixel.toNat + g.offset c

/-- Whatever the surface and the image hold, every pixel gets its three bytes of the
image, all other bytes of the surface stay, and the whole image is read. -/
def Blits (g : Geometry) : Prop :=
  ∀ img pixels, Fits g img pixels → ∃ s, xwinRedraw g img pixels = .ok s ∧
    s.pixels.length = pixels.length ∧ s.img = 3 * g.w * g.h ∧
    (∀ x y c, x < g.w → y < g.h →
      s.pixels[pixelByte g x y c]? = img[3 * (y * g.w + x) + c.index]?) ∧
    ∀ p, (∀ x y c, x < g.w → y < g.h → p ≠ pixelByte g x y c) → s.pixels[p]? = pixels[p]?

/-- The rows follow one another without a gap, as far as there are any. -/
def Geometry.Packed (g : Geometry) : Prop :=
  g.w = 0 ∨ g.h ≤ 1 ∨ g.pitch = g.w * g.bytesPerPixel.toNat

section Packed
variable {g : Geometry}

theorem Geometry.Packed.pixelByte_eq (h : g.Packed) {x y : Nat} (hx : x < g.w) (hy : y < g.h)
    (c : Channel) : pixelByte g x y c = place g (3 * (y * g.w + x) + c.index) := by
  have hrow : y * g.pitch = y * g.w * g.bytesPerPixel.toNat := by
    rcases h with hw | hh | hpitch
    · omega
    · have hzero : y = 0 := by omega
      rw [hzero, Nat.zero_mul, Nat.zero_mul, Nat.zero_mul]
    · rw [hpitch, Nat.mul_assoc]
  rw [place_channel, pixelByte, hrow, Nat.add_mul]

theorem blits_of_packed (hsound : g.Sound) (hpacked : g.Packed) (hrange : g.InRange) : Blits g := by
  intro img pixels hfits
  obtain ⟨s, hredraw, hdrawn⟩ := redraw_drawn hsound hfits hrange
  refine ⟨s, hredraw, hdrawn.size, by rw [hdrawn.read, Nat.mul_assoc], ?_, ?_⟩
  · intro x y c hx hy
    have hc := c.index_lt
    have hrows : (y + 1) * g.w ≤ g.h * g.w := Nat.mul_le_mul_right _ hy
    rw [Nat.succ_mul, Nat.mul_comm g.h] at hrows
    rw [hpacked.pixelByte_eq hx hy, hdrawn.drawn _ (by omega)]
  · intro p hp
    apply hdrawn.others
    intro i hi
    obtain ⟨c, hchannel⟩ := exists_channel i
    have hw : 0 < g.w := by
      apply Nat.pos_of_ne_zero
      intro hzero
      rw [hzero, Nat.zero_mul] at hi
      exact absurd hi (Nat.not_lt_zero i)
    have hx : i / 3 % g.w < g.w := Nat.mod_lt _ hw
    have hy : i / 3 / g.w < g.h := Nat.div_lt_of_lt_mul (by omega)
    have hsplit : i / 3 / g.w * g.w + i / 3 % g.w = i / 3 := by
      rw [Nat.mul_comm]
      exact Nat.div_add_mod _ _
    have hne := hp _ _ c hx hy
    rwa [hpacked.pixelByte_eq hx hy, hsplit, ← hchannel] at hne

theorem putPixel_inRange {img : List UInt8} {y x : Nat} {s s' : Canvas}
    (h : putPixel g img y x s = .ok s') :
    (((y * g.w + x) * g.bytesPerPixel.toNat : Nat) : Int) ≤ intMax := by
  obtain ⟨row, hrow, h⟩ := bind_ok_iff.mp h
  obtain ⟨k, hk, h⟩ := bind_ok_iff.mp h
  obtain ⟨idx, hidx, -⟩ := bind_ok_iff.mp h
  obtain ⟨-, rfl⟩ := intValue_ok_iff.mp hrow
  obtain ⟨-, rfl⟩ := intValue_ok_iff.mp hk
  exact (intValue_ok_iff.mp hidx).1

/-- The number of the last pixel. -/
theorem last_eq (hw : 0 < g.w) (hh : 0 < g.h) : (g.h - 1) * g.w + (g.w - 1) = g.w * g.h - 1 := by
  have hmul : (g.h - 1 + 1) * g.w = g.w * g.h := by
    rw [Nat.sub_add_cancel hh, Nat.mul_comm]
  rw [Nat.succ_mul] at hmul
  omega

/-- A surface of zeros and an image of ones. -/
theorem fits_replicate (g : Geometry) :
    Fits g (List.replicate (3 * g.w * g.h) 1) (List.replicate (g.h * g.pitch) 0) where
  pixels := List.length_replicate
  img := List.length_replicate

theorem inRange_of_blits (h : Blits g) : g.InRange := by
  by_cases hzero : g.w = 0 ∨ g.h = 0
  · have hnone : g.w * g.h = 0 := Nat.mul_eq_zero.mpr hzero
    simp [Geometry.InRange, hnone]
  · have hw : 0 < g.w := by omega
    have hh : 0 < g.h := by omega
    obtain ⟨s, hredraw, -⟩ := h _ _ (fits_replicate g)
    obtain ⟨row, row', hrow⟩ := forLoop_visits hredraw (j := g.h - 1) (by omega) (by omega)
    obtain ⟨t, t', hpixel⟩ := forLoop_visits hrow (j := g.w - 1) (by omega) (by omega)
    have hrange := putPixel_inRange hpixel
    rwa [last_eq hw hh] at hrange

theorem exists_last_channel (g : Geometry) : ∃ c, ∀ d, g.offset d ≤ g.offset c := by
  by_cases hrg : g.offset .red ≤ g.offset .green
  · by_cases hgb : g.offset .green ≤ g.offset .blue
    · exact ⟨.blue, Channel.forall_iff.mpr ⟨by omega, hgb, Nat.le_refl _⟩⟩
    · exact ⟨.green, Channel.forall_iff.mpr ⟨hrg, Nat.le_refl _, by omega⟩⟩
  · by_cases hrb : g.offset .red ≤ g.offset .blue
    · exact ⟨.blue, Channel.forall_iff.mpr ⟨hrb, by omega, Nat.le_refl _⟩⟩
    · exact ⟨.red, Channel.forall_iff.mpr ⟨Nat.le_refl _, by omega, by omega⟩⟩

/-- With a gap between the rows the last byte of the last pixel is not written. -/
theorem not_drawn_last (hw : 0 < g.w) (hh : 1 < g.h)
    (hpitch : g.w * g.bytesPerPixel.toNat < g.pitch) {c : Channel}
    (hlast : ∀ d, g.offset d ≤ g.offset c) {i : Nat} (hi : i < 3 * (g.w * g.h)) :
    place g i < pixelByte g (g.w - 1) (g.h - 1) c := by
  obtain ⟨d, hchannel⟩ := exists_channel i
  have hd := hlast d
  have hk : i / 3 * g.bytesPerPixel.toNat ≤ (g.w * g.h - 1) * g.bytesPerPixel.toNat :=
    Nat.mul_le_mul_right _ (by omega)
  have hrows : (g.h - 1) * (g.w * g.bytesPerPixel.toNat) < (g.h - 1) * g.pitch :=
    Nat.mul_lt_mul_of_pos_left hpitch (by omega)
  rw [← last_eq hw (by omega), Nat.add_mul, Nat.mul_assoc] at hk
  rw [hchannel, place_channel, pixelByte]
  omega

theorem packed_of_blits (hsound : g.Sound) (h : Blits g) : g.Packed := by
  by_contra hgap
  simp only [Geometry.Packed, not_or, Nat.not_le] at hgap
  obtain ⟨hwidth, hh, hne⟩ := hgap
  have hw : 0 < g.w := Nat.pos_of_ne_zero hwidth
  have hpitch := Nat.lt_of_le_of_ne hsound.pitch (Ne.symm hne)
  have hfits := fits_replicate g
  obtain ⟨c, hlast⟩ := exists_last_channel g
  obtain ⟨s, hredraw, -, -, hright, -⟩ := h _ _ hfits
  obtain ⟨s', hredraw', hdrawn⟩ := redraw_drawn hsound hfits (inRange_of_blits h)
  rw [hredraw] at hredraw'
  cases hredraw'
  have hone := hright (g.w - 1) (g.h - 1) c (by omega) (by omega)
  have hzero := hdrawn.others (pixelByte g (g.w - 1) (g.h - 1) c)
    (fun i hi => Nat.ne_of_gt (not_drawn_last hw hh hpitch hlast hi))
  have hc := c.index_lt
  have hread : 3 * (g.w * g.h - 1) + c.index < 3 * g.w * g.h := by
    have hpos : 0 < g.w * g.h := Nat.mul_pos hw (by omega)
    rw [Nat.mul_assoc 3]
    omega
  rw [last_eq hw (by omega), List.getElem?_replicate, if_pos hread] at hone
  rw [hone, List.getElem?_replicate] at hzero
  split at hzero <;> simp at hzero

end Packed

/-- The image reaches the surface exactly when the rows have no gap between them and
the place of the last pixel is an `int`. -/
theorem blits_iff {g : Geometry} (h : g.Sound) : Blits g ↔ g.Packed ∧ g.InRange :=
  ⟨fun hblits => ⟨packed_of_blits h hblits, inRange_of_blits hblits⟩,
    fun hg => blits_of_packed h hg.1 hg.2⟩

/-- The image of the application on a surface of 32 bits for each pixel. -/
def screen : Geometry := ⟨320, 240, 1280, 4, 16, 8, 0⟩

theorem screen_sound : screen.Sound where
  bytes := by decide
  pitch := by decide
  aligned := by decide
  within := by decide
  distinct := by decide

theorem blits_iff_screen : screen.Sound ∧ (screen.Packed ∧ screen.InRange) ∧ Blits screen := by
  have hpacked : screen.Packed := .inr (.inr rfl)
  have hrange : screen.InRange := by
    unfold Geometry.InRange
    decide
  exact ⟨screen_sound, ⟨hpacked, hrange⟩, (blits_iff screen_sound).mpr ⟨hpacked, hrange⟩⟩

/-- Two rows of one pixel of 24 bits, each padded to four bytes. -/
def padded : Geometry := ⟨1, 2, 4, 3, 0, 8, 16⟩

theorem padded_sound : padded.Sound where
  bytes := by decide
  pitch := by decide
  aligned := by decide
  within := by decide
  distinct := by decide

/-- The second pixel is drawn into the padding of the first row. -/
theorem draws_into_padding : padded.Sound ∧
    xwinRedraw padded [1, 2, 3, 4, 5, 6] [0, 0, 0, 0, 0, 0, 0, 0] =
      .ok ⟨[1, 2, 3, 4, 5, 6, 0, 0], 6⟩ ∧ ¬ Blits padded := by
  refine ⟨padded_sound, rfl, ?_⟩
  intro h
  obtain ⟨s, hredraw, -, -, hright, -⟩ :=
    h [1, 2, 3, 4, 5, 6] [0, 0, 0, 0, 0, 0, 0, 0] ⟨rfl, rfl⟩
  cases hredraw
  exact absurd (hright 0 1 .red (by decide) (by decide)) (by decide)

end Prgsem.Redraw
