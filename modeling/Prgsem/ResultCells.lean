import Prgsem.Results
import Prgsem.StreamFraming

/-!
# The cells that are stored to

A dispatch stores at most one result, in the cell `cid * CHUNK_X + i_re`. The
coordinates are not compared with the chunk that was asked for and `i_im` is not
used. Both `cid` and `i_re` are single bytes, so that most of the table is out of
reach.
-/

namespace Prgsem

open CMemory Run Writes
set_option autoImplicit false

/-- The cell and the value that the dispatch of `msg` stores. -/
def storeOf (abi : Abi) (msg : Message) : List (Fin (sizeX * sizeY) × Int) :=
  match msg.payload abi with
  | some (.computeData cid i_re _ iter) => [(cell cid i_re, iter.toNat)]
  | _ => []

def Output.stores (abi : Abi) (out : Output) : List (Fin (sizeX * sizeY) × Int) :=
  match out.pass with
  | some pass => storeOf abi pass.msg
  | none => []

/-- The stores of a run, in order. -/
def allStores (abi : Abi) (outs : List Output) : List (Fin (sizeX * sizeY) × Int) :=
  outs.flatMap (Output.stores abi)

section Stores
variable {abi : Abi} {s s' : MainState} {env : Env} {out : Output}

variable (abi) in
theorem dispatch_stores {msg : Message} {text : Mem} {results results' : Matrix sizeX sizeY}
    {report : Report} (h : dispatch msg text results = .ok (report, results')) :
    results'.table = applyAll results.table (storeOf abi msg) := by
  cases hp : msg.payload abi with
  | none =>
    rw [dispatch_unknown (payload_eq_none_iff.mp hp)] at h
    cases h
    simp [storeOf, hp, applyAll]
  | some p =>
    obtain ⟨report', hdispatch, -⟩ := dispatch_payload abi hp text results
    rw [hdispatch] at h
    cases h
    cases p <;> simp [storeOf, hp, record, applyAll, cell]

theorem mainRound_stores (h : mainRound abi s env = .ok (s', out)) :
    s'.results.table = applyAll s.results.table (out.stores abi) := by
  cases hpass : out.pass with
  | none =>
    rw [mainRound_idle h hpass]
    simp [Output.stores, hpass, applyAll]
  | some pass =>
    obtain ⟨-, -, -, hdispatch⟩ := mainRound_pass h hpass
    rw [dispatch_stores abi hdispatch]
    simp [Output.stores, hpass]

/-- The table after a run is what its stores make of the table before. -/
theorem run_stores {t : MainState} {envs : List Env} {outs : List Output}
    (h : run (mainRound abi) s envs = .ok (t, outs)) :
    t.results.table = applyAll s.results.table (allStores abi outs) := by
  induction envs generalizing s outs with
  | nil =>
    cases h
    rfl
  | cons env envs ih =>
    obtain ⟨s', out, outs', hstep, hrun, rfl⟩ := run_cons_ok_iff.mp h
    rw [ih hrun, mainRound_stores hstep, ← applyAll_append]
    rfl

theorem mem_storeOf_iff {msg : Message} {w : Fin (sizeX * sizeY) × Int} :
    w ∈ storeOf abi msg ↔ ∃ cid i_re i_im iter,
      msg.payload abi = some (.computeData cid i_re i_im iter) ∧
        w = (cell cid i_re, (iter.toNat : Int)) := by
  unfold storeOf
  split
  · rename_i cid i_re i_im iter hp
    simp [hp]
  · rename_i hp
    simp only [List.not_mem_nil, false_iff]
    rintro ⟨cid, i_re, i_im, iter, hdata, -⟩
    exact hp cid i_re i_im iter hdata

end Stores

/-! ## Coordinates outside of the chunk -/

/-- The round accepts a message of computed data for a pixel that was not asked for. -/
def AcceptsOutside (abi : Abi) (s : MainState) (env : Env) (s' : MainState)
    (cid i_re iter : UInt8) : Prop :=
  ∃ out pass i_im, mainRound abi s env = .ok (s', out) ∧ out.pass = some pass ∧
    pass.accepted = true ∧ pass.msg.payload abi = some (.computeData cid i_re i_im iter) ∧
    (chunkX ≤ i_re ∨ chunkY ≤ i_im)

def OutsideIgnored (abi : Abi) (s : MainState) (env : Env) : Prop :=
  ∀ s' cid i_re iter, AcceptsOutside abi s env s' cid i_re iter → s'.results = s.results

/-- The result goes to one cell, that of the pixel `i_re % CHUNK_X` in the chunk that
is `i_re / CHUNK_X` chunks behind `cid`. The number of that chunk need not fit in a
byte. -/
def OutsideStored (abi : Abi) (s : MainState) (env : Env) : Prop :=
  ∀ s' cid i_re iter, AcceptsOutside abi s env s' cid i_re iter →
    s'.results.table = Function.update s.results.table (cell cid i_re) iter.toNat ∧
    (s'.results = s.results ↔ s.results.table (cell cid i_re) = iter.toNat) ∧
    i_re % chunkX < chunkX ∧
    (cell cid i_re).val =
      (cid.toNat + i_re.toNat / chunkX.toNat) * chunkX.toNat + (i_re % chunkX).toNat

theorem cell_val_eq (cid i_re : UInt8) :
    (cell cid i_re).val =
      (cid.toNat + i_re.toNat / chunkX.toNat) * chunkX.toNat + (i_re % chunkX).toNat := by
  have hdiv := Nat.div_add_mod i_re.toNat chunkX.toNat
  have hmul := Nat.mul_comm chunkX.toNat (i_re.toNat / chunkX.toNat)
  simp only [cell, UInt8.toNat_mod, Nat.add_mul]
  omega

/-- In every run an accepted result outside of the chunk is stored like any other. -/
theorem outside_stored (abi : Abi) (s : MainState) (envs : List Env) :
    Along (mainRound abi) (OutsideStored abi) s envs := by
  apply along_of_forall
  rintro s env s' cid i_re iter ⟨out, pass, i_im, hround, hpass, -, hpayload, -⟩
  have htable : s'.results.table =
      Function.update s.results.table (cell cid i_re) iter.toNat := by
    rw [mainRound_stores hround]
    simp [Output.stores, hpass, storeOf, hpayload, applyAll]
  refine ⟨htable, ?_, UInt8.mod_lt i_re (by decide), cell_val_eq cid i_re⟩
  constructor
  · intro hsame
    rw [← hsame, htable, Function.update_self]
  · intro hheld
    rw [← hheld, Function.update_eq_self] at htable
    exact congrArg Matrix.mk htable

/-- The first pixel of chunk 1 gets the value 7, and then the value 9 of a message
with `i_re` 80 in chunk 0. -/
theorem outside_overwrites :
    ¬ Along (mainRound .sysV) (OutsideIgnored .sysV)
      ⟨.init sizeX sizeY fun _ => 0, [9, 1, 0, 0, 7, 238, 9, 0, 80, 0, 9, 157].map .byte⟩
      [Env.zero, Env.zero] := by
  intro h
  have hsame := (h.2 _ _ rfl).1 _ 0 80 9 ⟨_, _, 0, rfl, rfl, rfl, rfl, by decide⟩
  have hcell := congrArg (fun m : Matrix sizeX sizeY => m.table (cell 1 0)) hsame
  exact absurd hcell (by decide)

/-! ## Cells out of reach -/

/-- The run stores a value in every cell of the table. -/
def Completes (abi : Abi) (s : MainState) (envs : List Env) : Prop :=
  ∃ t outs, run (mainRound abi) s envs = .ok (t, outs) ∧ ∀ k, ∃ w ∈ allStores abi outs, w.1 = k

theorem cell_le (cid i_re : UInt8) : (cell cid i_re).val ≤ 255 * chunkX.toNat + 255 := by
  have hcid := cid.toNat_lt
  have hre := i_re.toNat_lt
  have hchunk : chunkX.toNat = 80 := rfl
  simp only [cell, hchunk]
  omega

theorem exists_cell {k : Fin (sizeX * sizeY)} (h : k.val ≤ 255 * chunkX.toNat + 255) :
    ∃ cid i_re, cell cid i_re = k := by
  have hchunk : chunkX.toNat = 80 := rfl
  rw [hchunk] at h
  refine ⟨UInt8.ofNat (min (k.val / 80) 255), UInt8.ofNat (k.val - 80 * min (k.val / 80) 255),
    Fin.ext ?_⟩
  simp only [cell, UInt8.toNat_ofNat', hchunk]
  omega

theorem stored_le {abi : Abi} {outs : List Output} {w : Fin (sizeX * sizeY) × Int}
    (h : w ∈ allStores abi outs) : w.1.val ≤ 255 * chunkX.toNat + 255 := by
  obtain ⟨out, -, hw⟩ := List.mem_flatMap.mp h
  unfold Output.stores at hw
  split at hw
  · obtain ⟨cid, i_re, -, -, -, rfl⟩ := mem_storeOf_iff.mp hw
    exact cell_le cid i_re
  · cases hw

/-- One message is enough for a cell within reach. -/
theorem store_cell (abi : Abi) (results : Matrix sizeX sizeY) (cid i_re : UInt8) :
    ∃ t outs, run (mainRound abi)
        ⟨results, (Payload.computeData cid i_re 0 0).frame.map .byte⟩ [Env.zero] = .ok (t, outs) ∧
      ∃ w ∈ allStores abi outs, w.1 = cell cid i_re := by
  obtain ⟨pass, hreceive, -, hpayload, -⟩ :=
    receive_message abi results Env.zero (.computeData cid i_re 0 0) []
  rw [List.append_nil] at hreceive
  have hsend : SendFits Env.zero := by
    intro _ _ hkey
    cases hkey
  have hround : mainRound abi _ Env.zero = .ok (_, ⟨none, some pass⟩) :=
    mainRound_ok_iff.mpr ⟨hsend, hreceive, rfl⟩
  refine ⟨_, _, run_cons hround rfl, (cell cid i_re, 0), ?_, rfl⟩
  simp only [allStores, List.flatMap_cons, List.flatMap_nil, List.append_nil, Output.stores]
  exact mem_storeOf_iff.mpr ⟨cid, i_re, 0, 0, hpayload, rfl⟩

/-- No run reaches the cells behind `255 * CHUNK_X + 255`, where the table keeps
what it was allocated with; all others can be stored to. -/
theorem never_completes (abi : Abi) :
    (∀ s envs, ¬ Completes abi s envs) ∧
    (∀ s envs t outs, run (mainRound abi) s envs = .ok (t, outs) →
      ∀ k, 255 * chunkX.toNat + 255 < k.val → t.results.table k = s.results.table k) ∧
    ∀ k : Fin (sizeX * sizeY), k.val ≤ 255 * chunkX.toNat + 255 →
      ∃ s envs t outs, run (mainRound abi) s envs = .ok (t, outs) ∧
        ∃ w ∈ allStores abi outs, w.1 = k := by
  refine ⟨?_, ?_, ?_⟩
  · rintro s envs ⟨t, outs, -, hall⟩
    obtain ⟨w, hw, hlast⟩ := hall ⟨76799, by decide⟩
    have hle := stored_le hw
    rw [hlast] at hle
    exact absurd hle (by decide)
  · intro s envs t outs hrun k hk
    rw [run_stores hrun]
    apply applyAll_of_not_mem
    rintro w hw rfl
    exact absurd (stored_le hw) (Nat.not_le.mpr hk)
  · intro k hk
    obtain ⟨cid, i_re, rfl⟩ := exists_cell hk
    obtain ⟨t, outs, hrun, hstored⟩ :=
      store_cell abi (.init sizeX sizeY fun _ => 0) cid i_re
    exact ⟨_, _, t, outs, hrun, hstored⟩

/-- No sequence of messages completes the table. -/
theorem last_cell_unreachable :
    ¬ ∃ input envs, Completes .sysV ⟨.init sizeX sizeY fun _ => 0, input⟩ envs := by
  rintro ⟨input, envs, t, outs, -, hall⟩
  obtain ⟨w, hw, hlast⟩ := hall ⟨20656, by decide⟩
  have hle := stored_le hw
  rw [hlast] at hle
  exact absurd hle (by decide)

end Prgsem
