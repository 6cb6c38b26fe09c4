import Prgsem.FrameDispatch
import Prgsem.Shared.Run
import Prgsem.Shared.Writes

/-!
# The collected results

Every message of computed data that lies in the chunk asked for has a cell of the
table of its own, so the table ends as a map from pixels to the values reported
last, whatever the order in which different pixels arrive.
-/

namespace Prgsem

open CMemory Run Writes
set_option autoImplicit false

/-- An accepted `MSG_COMPUTE_DATA` with coordinates in the chunk that `main_thread`
asks for, `n_re = CHUNK_X` and `n_im = CHUNK_Y`. -/
structure DataArrival (abi : Abi) extends Arrival where
  parsed : Message
  accepted : parseMessageBuf abi frame frame.length msg = .ok (true, parsed)
  type_eq : parsed.type = MessageType.computeData.toByte
  i_re_lt : parsed.data Offset.i_re < chunkX
  i_im_lt : parsed.data Offset.i_im < chunkY

/-- `cid * CHUNK_X + i_re`. -/
def cell (cid i_re : UInt8) : Fin (sizeX * sizeY) :=
  ⟨cid.toNat * chunkX.toNat + i_re.toNat, cell_lt cid i_re⟩

/-- Within a chunk no two pixels share a cell. -/
theorem cell_inj {cid cid' i_re i_re' : UInt8} (h : i_re < chunkX) (h' : i_re' < chunkX) :
    cell cid i_re = cell cid' i_re' ↔ cid = cid' ∧ i_re = i_re' := by
  constructor
  · intro heq
    have hval := congrArg Fin.val heq
    have hchunk : chunkX.toNat = 80 := rfl
    rw [UInt8.lt_iff_toNat_lt, hchunk] at h h'
    simp only [cell, hchunk] at hval
    exact ⟨UInt8.toNat_inj.mp (by omega), UInt8.toNat_inj.mp (by omega)⟩
  · rintro ⟨rfl, rfl⟩
    rfl

section Arrivals
variable {abi : Abi}

namespace DataArrival

def pixel (d : DataArrival abi) : UInt8 × UInt8 :=
  (d.parsed.data Offset.cid, d.parsed.data Offset.i_re)

def iter (d : DataArrival abi) : UInt8 := d.parsed.data Offset.iter

def cell (d : DataArrival abi) : Fin (sizeX * sizeY) := Prgsem.cell d.pixel.1 d.pixel.2

theorem pixel_lt (d : DataArrival abi) : d.pixel.2 < chunkX := d.i_re_lt

def write (d : DataArrival abi) : Fin (sizeX * sizeY) × Int := (d.cell, d.iter.toNat)

theorem handleFrame_eq (d : DataArrival abi) (results : Matrix sizeX sizeY) :
    ∃ report, handleFrame abi results d.toArrival =
      .ok (⟨Function.update results.table d.cell d.iter.toNat⟩, true, report) := by
  have hpayload : d.parsed.payload abi = some (.computeData (d.parsed.data Offset.cid)
      (d.parsed.data Offset.i_re) (d.parsed.data Offset.i_im) (d.parsed.data Offset.iter)) := by
    rw [Message.payload, d.type_eq]
    rfl
  obtain ⟨report, hdispatch, -⟩ :=
    dispatch_payload abi hpayload (memoryFrom d.frame d.mem) results
  refine ⟨report, ?_⟩
  simp only [handleFrame, d.accepted, ok_bind, hdispatch]
  rfl

end DataArrival

theorem run_handleFrame (results : Matrix sizeX sizeY) (ds : List (DataArrival abi)) :
    ∃ outs, run (handleFrame abi) results (ds.map DataArrival.toArrival) =
        .ok (⟨applyAll results.table (ds.map DataArrival.write)⟩, outs) ∧
      ∀ out ∈ outs, out.1 = true := by
  induction ds generalizing results with
  | nil => exact ⟨[], rfl, by simp⟩
  | cons d ds ih =>
    obtain ⟨report, hstep⟩ := d.handleFrame_eq results
    obtain ⟨outs, hrun, haccepted⟩ := ih ⟨Function.update results.table d.cell d.iter.toNat⟩
    exact ⟨_, run_cons hstep hrun, List.forall_mem_cons.mpr ⟨rfl, haccepted⟩⟩

/-- The values reported for a pixel, in order. -/
def reported (ds : List (DataArrival abi)) (pixel : UInt8 × UInt8) : List UInt8 :=
  (ds.filter fun d => d.pixel = pixel).map DataArrival.iter

theorem valuesAt_cell (ds : List (DataArrival abi)) {cid i_re : UInt8} (h : i_re < chunkX) :
    valuesAt (cell cid i_re) (ds.map DataArrival.write) =
      (reported ds (cid, i_re)).map fun v => (v.toNat : Int) := by
  have hsame (d : DataArrival abi) : d.cell = cell cid i_re ↔ d.pixel = (cid, i_re) := by
    rw [DataArrival.cell, cell_inj d.pixel_lt h, Prod.ext_iff]
  induction ds with
  | nil => rfl
  | cons d ds ih =>
    simp only [valuesAt, reported] at ih ⊢
    by_cases hd : d.pixel = (cid, i_re)
    · have hcell := (hsame d).mpr hd
      simp [DataArrival.write, hd, hcell, ih]
    · have hcell : d.cell ≠ cell cid i_re := fun heq => hd ((hsame d).mp heq)
      simp [DataArrival.write, hd, hcell, ih]

theorem valuesAt_congr {ds ds' : List (DataArrival abi)}
    (h : ∀ pixel, reported ds' pixel = reported ds pixel) (k : Fin (sizeX * sizeY)) :
    valuesAt k (ds'.map DataArrival.write) = valuesAt k (ds.map DataArrival.write) := by
  by_cases hk : ∃ cid i_re, i_re < chunkX ∧ cell cid i_re = k
  · obtain ⟨cid, i_re, hlt, rfl⟩ := hk
    rw [valuesAt_cell ds' hlt, valuesAt_cell ds hlt, h]
  · have hnone (es : List (DataArrival abi)) : ∀ w ∈ es.map DataArrival.write, w.1 ≠ k := by
      intro w hw heq
      obtain ⟨e, -, rfl⟩ := List.mem_map.mp hw
      exact hk ⟨_, _, e.i_re_lt, heq⟩
    rw [valuesAt_eq_nil (hnone ds'), valuesAt_eq_nil (hnone ds)]

/-- No store leaves the table. Afterwards each reported pixel holds the value
reported last, all other cells are as before, and any other order with the same
order of values for each pixel gives the same table. -/
theorem results_last_writer (results : Matrix sizeX sizeY) (ds : List (DataArrival abi)) :
    ∃ stored outs, run (handleFrame abi) results (ds.map DataArrival.toArrival) =
        .ok (stored, outs) ∧
      (∀ out ∈ outs, out.1 = true) ∧
      (∀ d ∈ ds, ∃ last, (reported ds d.pixel).getLast? = some last ∧
        stored.table d.cell = last.toNat) ∧
      (∀ k, (∀ d ∈ ds, d.cell ≠ k) → stored.table k = results.table k) ∧
      ∀ ds' : List (DataArrival abi), (∀ pixel, reported ds' pixel = reported ds pixel) →
        ∃ outs', run (handleFrame abi) results (ds'.map DataArrival.toArrival) =
          .ok (stored, outs') := by
  obtain ⟨outs, hrun, haccepted⟩ := run_handleFrame results ds
  refine ⟨_, outs, hrun, haccepted, ?_, ?_, ?_⟩
  · intro d hd
    have hmem : d.iter ∈ reported ds d.pixel :=
      List.mem_map_of_mem (List.mem_filter.mpr ⟨hd, by simp⟩)
    refine ⟨_, List.getLast?_eq_some_getLast (List.ne_nil_of_mem hmem), ?_⟩
    apply applyAll_of_getLast?
    rw [DataArrival.cell, valuesAt_cell ds d.pixel_lt, List.getLast?_map,
      List.getLast?_eq_some_getLast (List.ne_nil_of_mem hmem), Option.map_some]
  · intro k hk
    apply applyAll_of_not_mem
    intro w hw
    obtain ⟨d, hd, rfl⟩ := List.mem_map.mp hw
    exact hk d hd
  · intro ds' hds'
    obtain ⟨outs', hrun', -⟩ := run_handleFrame results ds'
    refine ⟨outs', ?_⟩
    rw [hrun', applyAll_congr _ (valuesAt_congr hds')]

end Arrivals

/-- The value `iter` of the pixel `(i_re, 0)` of chunk 2. -/
def chunkTwo (i_re iter : UInt8) (h : i_re < chunkX) : DataArrival .sysV where
  frame := (Payload.computeData 2 i_re 0 iter).frame
  mem := fun _ => 0
  msg := ⟨0, fun _ => 0, 0⟩
  parsed := ⟨9, (Payload.computeData 2 i_re 0 iter).store .sysV fun _ => 0, 0⟩
  accepted := by
    have haccept := parseMessageBuf_frame .sysV (.computeData 2 i_re 0 iter) [] ⟨0, fun _ => 0, 0⟩
    rwa [List.append_nil] at haccept
  type_eq := rfl
  i_re_lt := h
  i_im_lt := (by decide : (0 : UInt8) < chunkY)

/-- Two values for one pixel and one for its neighbour. -/
def threeValues : List (DataArrival .sysV) :=
  [chunkTwo 0 7 (by decide), chunkTwo 1 5 (by decide), chunkTwo 0 9 (by decide)]

/-- The value of the neighbour comes first. -/
def threeValues' : List (DataArrival .sysV) :=
  [chunkTwo 1 5 (by decide), chunkTwo 0 7 (by decide), chunkTwo 0 9 (by decide)]

theorem reported_three (pixel : UInt8 × UInt8) :
    reported threeValues' pixel = reported threeValues pixel := by
  by_cases hpixel : ((2, 1) : UInt8 × UInt8) = pixel
  · subst hpixel
    rfl
  · have hother : ¬ (chunkTwo 1 5 (by decide)).pixel = pixel := hpixel
    simp only [reported, threeValues, threeValues', List.filter_cons, hother, decide_false,
      Bool.false_eq_true, if_false]

theorem results_last_writer_three :
    ∃ stored outs outs', run (handleFrame .sysV) (.init sizeX sizeY fun _ => 0)
        (threeValues.map DataArrival.toArrival) = .ok (stored, outs) ∧
      stored.table (cell 2 0) = 9 ∧ stored.table (cell 2 1) = 5 ∧
      (∀ k, k ≠ cell 2 0 → k ≠ cell 2 1 → stored.table k = 0) ∧
      run (handleFrame .sysV) (.init sizeX sizeY fun _ => 0)
        (threeValues'.map DataArrival.toArrival) = .ok (stored, outs') := by
  obtain ⟨stored, outs, hrun, -, hlast, hothers, horder⟩ :=
    results_last_writer (.init sizeX sizeY fun _ => 0) threeValues
  obtain ⟨outs', hrun'⟩ := horder threeValues' reported_three
  obtain ⟨nine, hnine, hfirst⟩ := hlast (chunkTwo 0 9 (by decide)) (by simp [threeValues])
  obtain ⟨five, hfive, hsecond⟩ := hlast (chunkTwo 1 5 (by decide)) (by simp [threeValues])
  obtain rfl : 9 = nine := Option.some.inj hnine
  obtain rfl : 5 = five := Option.some.inj hfive
  refine ⟨stored, outs, outs', hrun, hfirst, hsecond, ?_, hrun'⟩
  intro k hk hk'
  apply hothers k
  intro d hd
  simp only [threeValues, List.mem_cons, List.not_mem_nil, or_false] at hd
  rcases hd with rfl | rfl | rfl
  · exact hk.symm
  · exact hk'.symm
  · exact hk.symm

end Prgsem
