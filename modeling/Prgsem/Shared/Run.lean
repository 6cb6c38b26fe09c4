import Mathlib.Logic.Basic

/-!
# Runs of a machine that can fail

A machine takes a state and an input to the next state and an output, or ends in
a fault. The inputs carry everything the machine does not choose itself: which
thread moves, what a device answers, what uninitialised memory holds. A run is
the machine applied to a list of inputs.
-/

namespace Prgsem.Run

set_option autoImplicit false

universe u v w x

variable {ε : Type u} {σ : Type v} {ι : Type w} {ω : Type x}

/-- The state after a list of inputs and the outputs on the way. -/
def run (step : σ → ι → Except ε (σ × ω)) : σ → List ι → Except ε (σ × List ω)
  | s, [] => .ok (s, [])
  | s, i :: is =>
    match step s i with
    | .error e => .error e
    | .ok (s', out) =>
      match run step s' is with
      | .error e => .error e
      | .ok (t, outs) => .ok (t, out :: outs)

/-- `P` holds of every step that a run takes, up to and including one that fails. -/
def Along (step : σ → ι → Except ε (σ × ω)) (P : σ → ι → Prop) : σ → List ι → Prop
  | _, [] => True
  | s, i :: is => P s i ∧ ∀ s' out, step s i = .ok (s', out) → Along step P s' is

section Machine
variable {step : σ → ι → Except ε (σ × ω)} {P Q : σ → ι → Prop}

theorem run_nil (s : σ) : run step s [] = .ok (s, []) := rfl

theorem run_cons {s s' t : σ} {i : ι} {is : List ι} {out : ω} {outs : List ω}
    (hstep : step s i = .ok (s', out)) (hrun : run step s' is = .ok (t, outs)) :
    run step s (i :: is) = .ok (t, out :: outs) := by
  simp only [run, hstep, hrun]

theorem run_cons_ok_iff {s t : σ} {i : ι} {is : List ι} {outs : List ω} :
    run step s (i :: is) = .ok (t, outs) ↔
      ∃ s' out outs', step s i = .ok (s', out) ∧ run step s' is = .ok (t, outs') ∧
        outs = out :: outs' := by
  constructor
  · intro h
    unfold run at h
    split at h
    · cases h
    · rename_i s' out hstep
      split at h
      · cases h
      · rename_i t' outs' hrun
        cases h
        exact ⟨s', out, outs', hstep, hrun, rfl⟩
  · rintro ⟨s', out, outs', hstep, hrun, rfl⟩
    exact run_cons hstep hrun

theorem run_append {s t r : σ} {is js : List ι} {outs outs' : List ω}
    (h₁ : run step s is = .ok (t, outs)) (h₂ : run step t js = .ok (r, outs')) :
    run step s (is ++ js) = .ok (r, outs ++ outs') := by
  induction is generalizing s outs with
  | nil =>
    cases h₁
    exact h₂
  | cons i is ih =>
    obtain ⟨s', out, mid, hstep, hrun, rfl⟩ := run_cons_ok_iff.mp h₁
    exact run_cons hstep (ih hrun)

/-- The state between two parts of a run. -/
theorem run_append_ok_iff {s t : σ} {is js : List ι} {outs : List ω} :
    run step s (is ++ js) = .ok (t, outs) ↔
      ∃ r outs₁ outs₂, run step s is = .ok (r, outs₁) ∧ run step r js = .ok (t, outs₂) ∧
        outs = outs₁ ++ outs₂ := by
  constructor
  · intro h
    induction is generalizing s outs with
    | nil => exact ⟨s, [], outs, rfl, h, rfl⟩
    | cons i is ih =>
      obtain ⟨s', out, mid, hstep, hrun, rfl⟩ := run_cons_ok_iff.mp h
      obtain ⟨r, outs₁, outs₂, hfirst, hsecond, rfl⟩ := ih hrun
      exact ⟨r, out :: outs₁, outs₂, run_cons hstep hfirst, hsecond, rfl⟩
  · intro h
    obtain ⟨r, outs₁, outs₂, hfirst, hsecond, rfl⟩ := h
    exact run_append hfirst hsecond

theorem run_cons_error {s s' : σ} {i : ι} {is : List ι} {out : ω} {e : ε}
    (hstep : step s i = .ok (s', out)) (hrun : run step s' is = .error e) :
    run step s (i :: is) = .error e := by
  simp only [run, hstep, hrun]

theorem run_error_append {s : σ} {is js : List ι} {e : ε} (h : run step s is = .error e) :
    run step s (is ++ js) = .error e := by
  induction is generalizing s with
  | nil => cases h
  | cons i is ih =>
    simp only [run] at h
    simp only [List.cons_append, run]
    split at h
    · exact h
    · rename_i s' out hstep
      split at h
      · rename_i e' hrun
        cases h
        rw [ih hrun]
      · cases h

theorem run_append_error {s t : σ} {is js : List ι} {outs : List ω} {e : ε}
    (h₁ : run step s is = .ok (t, outs)) (h₂ : run step t js = .error e) :
    run step s (is ++ js) = .error e := by
  induction is generalizing s outs with
  | nil =>
    cases h₁
    exact h₂
  | cons i is ih =>
    obtain ⟨s', out, mid, hstep, hrun, rfl⟩ := run_cons_ok_iff.mp h₁
    have htail := ih hrun
    simp only [List.cons_append, run, hstep, htail]

theorem along_cons {s s' : σ} {i : ι} {is : List ι} {out : ω} (hP : P s i)
    (hstep : step s i = .ok (s', out)) (hrest : Along step P s' is) :
    Along step P s (i :: is) := by
  refine ⟨hP, ?_⟩
  intro t out' hstep'
  rw [hstep] at hstep'
  cases hstep'
  exact hrest

theorem along_append {s : σ} {is js : List ι} :
    Along step P s (is ++ js) ↔
      Along step P s is ∧ ∀ t outs, run step s is = .ok (t, outs) → Along step P t js := by
  induction is generalizing s with
  | nil =>
    constructor
    · intro h
      refine ⟨trivial, ?_⟩
      intro t outs hrun
      cases hrun
      exact h
    · exact fun h => h.2 s [] rfl
  | cons i is ih =>
    constructor
    · rintro ⟨hP, hrest⟩
      refine ⟨⟨hP, fun s' out hstep => (ih.mp (hrest s' out hstep)).1⟩, ?_⟩
      intro t outs hall
      obtain ⟨s', out, mid, hstep, hrun, rfl⟩ := run_cons_ok_iff.mp hall
      exact (ih.mp (hrest s' out hstep)).2 t mid hrun
    · rintro ⟨⟨hP, hrest⟩, hjs⟩
      refine ⟨hP, fun s' out hstep => ih.mpr ⟨hrest s' out hstep, ?_⟩⟩
      intro t mid hrun
      exact hjs t _ (run_cons hstep hrun)

theorem along_append_of_ok {s t : σ} {is js : List ι} {outs : List ω} (h₁ : Along step P s is)
    (hrun : run step s is = .ok (t, outs)) (h₂ : Along step P t js) :
    Along step P s (is ++ js) := by
  refine along_append.mpr ⟨h₁, ?_⟩
  intro t' outs' hrun'
  rw [hrun] at hrun'
  cases hrun'
  exact h₂

theorem along_append_of_error {s : σ} {is js : List ι} {e : ε} (h : Along step P s is)
    (hrun : run step s is = .error e) : Along step P s (is ++ js) := by
  refine along_append.mpr ⟨h, ?_⟩
  intro t outs hrun'
  rw [hrun] at hrun'
  cases hrun'

theorem along_singleton {s : σ} {i : ι} (h : P s i) : Along step P s [i] :=
  ⟨h, fun _ _ _ => trivial⟩

theorem Along.imp {s : σ} {is : List ι} (himp : ∀ s i, P s i → Q s i)
    (h : Along step P s is) : Along step Q s is := by
  induction is generalizing s with
  | nil => trivial
  | cons i is ih => exact ⟨himp s i h.1, fun s' out hstep => ih (h.2 s' out hstep)⟩

theorem along_congr (hiff : ∀ s i, P s i ↔ Q s i) (s : σ) (is : List ι) :
    Along step P s is ↔ Along step Q s is :=
  ⟨Along.imp fun s i => (hiff s i).mp, Along.imp fun s i => (hiff s i).mpr⟩

/-- Where the two properties agree in invariant states, and the first keeps the
invariant, they hold of the same runs. -/
theorem along_congr_of_invariant (I : σ → Prop) (hiff : ∀ s i, I s → (P s i ↔ Q s i))
    (hkeep : ∀ s i s' out, I s → P s i → step s i = .ok (s', out) → I s') {s : σ} (hI : I s)
    (is : List ι) : Along step P s is ↔ Along step Q s is := by
  induction is generalizing s with
  | nil => exact Iff.rfl
  | cons i is ih =>
    constructor
    · intro h
      exact ⟨(hiff s i hI).mp h.1,
        fun s' out hs => (ih (hkeep s i s' out hI h.1 hs)).mp (h.2 s' out hs)⟩
    · intro h
      have hP := (hiff s i hI).mpr h.1
      exact ⟨hP, fun s' out hs => (ih (hkeep s i s' out hI hP hs)).mpr (h.2 s' out hs)⟩

/-- Progress and preservation: allowed steps from invariant states do not fail
and extend the history of inputs and outputs, so an allowed run does not fail either. -/
theorem run_total_history (I : List ι → List ω → σ → Prop)
    (hstep : ∀ ins outs s i, I ins outs s → P s i →
      ∃ s' out, step s i = .ok (s', out) ∧ I (ins ++ [i]) (outs ++ [out]) s')
    (ins : List ι) {past : List ω} {s : σ} {is : List ι} (hI : I ins past s)
    (hP : Along step P s is) :
    ∃ t outs, run step s is = .ok (t, outs) ∧ I (ins ++ is) (past ++ outs) t := by
  induction is generalizing ins past s with
  | nil => exact ⟨s, [], rfl, by rwa [List.append_nil, List.append_nil]⟩
  | cons i is ih =>
    obtain ⟨s', out, hs, hI'⟩ := hstep ins past s i hI hP.1
    obtain ⟨t, outs, hrun, hI''⟩ := ih (ins ++ [i]) hI' (hP.2 s' out hs)
    refine ⟨t, out :: outs, run_cons hs hrun, ?_⟩
    rwa [List.append_assoc, List.append_assoc, List.singleton_append,
      List.singleton_append] at hI''

theorem run_total (I : List ω → σ → Prop)
    (hstep : ∀ past s i, I past s → P s i →
      ∃ s' out, step s i = .ok (s', out) ∧ I (past ++ [out]) s')
    {past : List ω} {s : σ} {is : List ι} (hI : I past s) (hP : Along step P s is) :
    ∃ t outs, run step s is = .ok (t, outs) ∧ I (past ++ outs) t :=
  run_total_history (fun _ => I) (fun _ => hstep) [] hI hP

theorem along_of_forall (h : ∀ s i, P s i) (s : σ) (is : List ι) : Along step P s is := by
  induction is generalizing s with
  | nil => trivial
  | cons i is ih => exact ⟨h s i, fun s' _ _ => ih s'⟩

theorem run_outputs {R : ω → Prop} (hstep : ∀ s i s' out, step s i = .ok (s', out) → R out)
    {s t : σ} {is : List ι} {outs : List ω} (h : run step s is = .ok (t, outs)) :
    ∀ out ∈ outs, R out := by
  induction is generalizing s outs with
  | nil =>
    cases h
    simp
  | cons i is ih =>
    obtain ⟨s', out, outs', hs, hrun, rfl⟩ := run_cons_ok_iff.mp h
    exact List.forall_mem_cons.mpr ⟨hstep s i s' out hs, ih hrun⟩

/-- What every step that succeeds keeps and shows. -/
theorem run_keeps {I : σ → Prop} {R : ω → Prop}
    (hstep : ∀ s i s' out, I s → step s i = .ok (s', out) → I s' ∧ R out) {s t : σ}
    {is : List ι} {outs : List ω} (hI : I s) (h : run step s is = .ok (t, outs)) :
    I t ∧ ∀ out ∈ outs, R out := by
  induction is generalizing s outs with
  | nil =>
    cases h
    exact ⟨hI, by simp⟩
  | cons i is ih =>
    obtain ⟨s', out, outs', hs, hrun, rfl⟩ := run_cons_ok_iff.mp h
    obtain ⟨hI', hR⟩ := hstep s i s' out hI hs
    obtain ⟨ht, hRs⟩ := ih hI' hrun
    exact ⟨ht, List.forall_mem_cons.mpr ⟨hR, hRs⟩⟩

/-- What every allowed step that succeeds keeps, over all that the run has shown. -/
theorem run_history {P : σ → ι → Prop} (I : List ω → σ → Prop)
    (hstep : ∀ past s i s' out, I past s → P s i → step s i = .ok (s', out) → I (past ++ [out]) s')
    {past : List ω} {s t : σ} {is : List ι} {outs : List ω} (hI : I past s)
    (halong : Along step P s is) (h : run step s is = .ok (t, outs)) : I (past ++ outs) t := by
  induction is generalizing past s outs with
  | nil =>
    cases h
    rw [List.append_nil]
    exact hI
  | cons i is ih =>
    obtain ⟨s', out, outs', hs, hrun, rfl⟩ := run_cons_ok_iff.mp h
    have hnext := ih (hstep past s i s' out hI halong.1 hs) (halong.2 s' out hs) hrun
    rw [List.append_assoc] at hnext
    exact hnext

/-- A machine of which every step is allowed. -/
theorem run_invariant (I : List ω → σ → Prop)
    (hstep : ∀ past s i, I past s → ∃ s' out, step s i = .ok (s', out) ∧ I (past ++ [out]) s')
    {s : σ} (hI : I [] s) (is : List ι) : ∃ t outs, run step s is = .ok (t, outs) ∧ I outs t :=
  run_total (P := fun _ _ => True) I (fun past s i hI _ => hstep past s i hI) hI
    (along_of_forall (fun _ _ => trivial) s is)

end Machine

/-! ## Steps that show something only now and then -/

def shown (outs : List (Option ω)) : List ω := outs.filterMap id

theorem shown_append (outs outs' : List (Option ω)) :
    shown (outs ++ outs') = shown outs ++ shown outs' :=
  List.filterMap_append

@[simp] theorem shown_snoc_none (outs : List (Option ω)) : shown (outs ++ [none]) = shown outs := by
  simp [shown]

@[simp] theorem shown_snoc_some (outs : List (Option ω)) (out : ω) :
    shown (outs ++ [some out]) = shown outs ++ [out] := by
  simp [shown]

theorem mem_shown {outs : List (Option ω)} {out : ω} : out ∈ shown outs ↔ some out ∈ outs := by
  simp [shown]

theorem shown_snoc (outs : List (Option ω)) (out : Option ω) :
    shown (outs ++ [out]) = shown outs ++ out.toList := by
  cases out with
  | none => rw [shown_snoc_none, Option.toList_none, List.append_nil]
  | some out => rw [shown_snoc_some, Option.toList_some]

theorem shown_cons (out : Option ω) (outs : List (Option ω)) :
    shown (out :: outs) = out.toList ++ shown outs := by
  cases out <;> simp [shown]

/-- What every step keeps, over what the run has shown so far. -/
theorem run_shown {step : σ → ι → Except ε (σ × Option ω)} (I : List ω → σ → Prop)
    (hstep : ∀ past s i s' out, I past s → step s i = .ok (s', out) → I (past ++ out.toList) s')
    {past : List ω} {s t : σ} {is : List ι} {outs : List (Option ω)} (hI : I past s)
    (h : run step s is = .ok (t, outs)) : I (past ++ shown outs) t := by
  induction is generalizing past s outs with
  | nil =>
    cases h
    simpa [shown] using hI
  | cons i is ih =>
    obtain ⟨s', out, outs', hs, hrun, rfl⟩ := run_cons_ok_iff.mp h
    have hnext := ih (hstep past s i s' out hI hs) hrun
    rw [List.append_assoc] at hnext
    rw [shown_cons]
    exact hnext

/-! ## Runs that come to rest -/

/-- A run in which `n` steps change the state. -/
inductive Changes (step : σ → ι → Except ε (σ × ω)) : σ → List ι → Nat → σ → Prop
  | nil (s : σ) : Changes step s [] 0 s
  | stay {s t : σ} {i : ι} {is : List ι} {out : ω} {n : Nat} (hstep : step s i = .ok (s, out))
      (hrest : Changes step s is n t) : Changes step s (i :: is) n t
  | move {s s' t : σ} {i : ι} {is : List ι} {out : ω} {n : Nat}
      (hstep : step s i = .ok (s', out)) (hne : s' ≠ s) (hrest : Changes step s' is n t) :
      Changes step s (i :: is) (n + 1) t

/-- Where every change takes something off a rank, only so many can follow. -/
theorem Changes.le {step : σ → ι → Except ε (σ × ω)} (I : σ → Prop) (rank : σ → Nat)
    (hkeep : ∀ s i s' out, I s → step s i = .ok (s', out) → I s')
    (hdrop : ∀ s i s' out, I s → step s i = .ok (s', out) → s' = s ∨ rank s' < rank s)
    {s t : σ} {is : List ι} {n : Nat} (hI : I s) (h : Changes step s is n t) :
    n + rank t ≤ rank s := by
  induction h with
  | nil s => omega
  | stay _ _ ih => exact ih hI
  | move hstep hne _ ih =>
    have hrest := ih (hkeep _ _ _ _ hI hstep)
    rcases hdrop _ _ _ _ hI hstep with heq | hlt
    · exact absurd heq hne
    · omega

/-- Where no step adds to a rank and the marked ones take something off it, enough of
them bring it down to zero. -/
theorem run_countdown {step : σ → ι → Except ε (σ × ω)} {P : σ → ι → Prop} (I : σ → Prop)
    (rank : σ → Nat) (mark : ι → Bool)
    (hstep : ∀ s i s' out, I s → P s i → step s i = .ok (s', out) →
      I s' ∧ rank s' ≤ rank s - if mark i then 1 else 0)
    {s t : σ} {is : List ι} {outs : List ω} (hI : I s) (halong : Along step P s is)
    (h : run step s is = .ok (t, outs)) : I t ∧ rank t ≤ rank s - is.countP mark := by
  induction is generalizing s outs with
  | nil =>
    cases h
    exact ⟨hI, Nat.le_refl _⟩
  | cons i is ih =>
    obtain ⟨s', out, outs', hs, hrun, rfl⟩ := run_cons_ok_iff.mp h
    obtain ⟨hI', hfirst⟩ := hstep s i s' out hI halong.1 hs
    obtain ⟨hIt, hrest⟩ := ih hI' (halong.2 s' out hs) hrun
    rw [List.countP_cons]
    exact ⟨hIt, by omega⟩

/-- A property that becomes true at the steps with the mark `Q`, and stays. -/
theorem run_marked {step : σ → ι → Except ε (σ × Option ω)} {P : σ → Prop} {Q : σ → ι → Prop}
    (I : List ω → σ → Prop)
    (hkeep : ∀ past s i s' out, I past s → step s i = .ok (s', out) → I (past ++ out.toList) s')
    {is : List ι} {past : List ω} {s t : σ} {outs : List (Option ω)} (hI : I past s)
    (hmark : ∀ past s i s' out, i ∈ is → I past s → step s i = .ok (s', out) →
      (P s' ↔ P s ∨ Q s i))
    (h : run step s is = .ok (t, outs)) :
    P t ↔ P s ∨ ∃ pre i post s₁ outs₁, is = pre ++ i :: post ∧
      run step s pre = .ok (s₁, outs₁) ∧ Q s₁ i := by
  induction is generalizing past s outs with
  | nil =>
    cases h
    simp
  | cons i is ih =>
    obtain ⟨s', out, outs', hs, hrun, rfl⟩ := run_cons_ok_iff.mp h
    have hfirst := hmark past s i s' out List.mem_cons_self hI hs
    have hrest := ih (hkeep _ _ _ _ _ hI hs)
      (fun past s j s' out hj => hmark past s j s' out (List.mem_cons_of_mem i hj)) hrun
    rw [hrest, hfirst, or_assoc]
    refine or_congr_right ?_
    constructor
    · intro hcase
      rcases hcase with hQ | ⟨pre, j, post, s₁, outs₁, rfl, hpre, hQ⟩
      · exact ⟨[], i, is, s, [], rfl, rfl, hQ⟩
      · exact ⟨i :: pre, j, post, s₁, out :: outs₁, rfl, run_cons hs hpre, hQ⟩
    · intro hcase
      obtain ⟨pre, j, post, s₁, outs₁, hsplit, hpre, hQ⟩ := hcase
      cases pre with
      | nil =>
        cases hsplit
        cases hpre
        exact .inl hQ
      | cons k pre =>
        cases hsplit
        obtain ⟨s'', out', outs'', hs', hpre', rfl⟩ := run_cons_ok_iff.mp hpre
        rw [hs] at hs'
        cases hs'
        exact .inr ⟨pre, j, post, s₁, outs'', rfl, hpre', hQ⟩

end Prgsem.Run
