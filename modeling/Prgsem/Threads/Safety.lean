import Prgsem.Threads.SharedData

/-!
# The three threads share `*data` safely

A proof outline of the program. From it: no thread touches `*data` or releases `mtx`
without owning it, the period stays a multiple of 5 between 20 and 2000, and the
counters that are printed never go down.
-/

namespace Prgsem.Threads

open CMemory Monitor Run
set_option autoImplicit false

/-- The values of `period` that a thread can find. -/
def InRange (period : Int) : Prop := 20 ≤ period ∧ period ≤ 2000 ∧ 5 ∣ period

/-- What `outputThread` has printed: counter and period. -/
def prints (past : List Event) : List (Int × Int) :=
  past.filterMap fun
    | .counter tmp per => some (tmp, per)
    | _ => none

def pauses (past : List Event) : List Int :=
  past.filterMap fun
    | .slept useconds => some useconds
    | _ => none

/-! ## Where the mutex is held -/

def ComputePc.critical : ComputePc → Bool
  | .readPeriod | .unlockPeriod | .count | .signal | .readQuit | .unlockCounter => true
  | _ => false

def OutputPc.critical : OutputPc → Bool
  | .setQuit | .unlockFailed | .setOpen | .unlockOpen | .wait
  | .readCounter | .readPeriod | .readQuit | .unlockWait => true
  | _ => false

def InputPc.critical : InputPc → Bool
  | .readOpen | .readOpenQuit | .unlockOpen | .setQuit | .readQuit | .unlockQuit
  | .readPeriod | .switch | .limitHigh | .limitLow | .compare | .broadcast | .unlockPeriod => true
  | _ => false

def holds : (t : Thread) → Place t → Bool
  | .compute, l => ComputePc.critical (Compute.pc l)
  | .output, l => OutputPc.critical (Output.pc l)
  | .input, l => InputPc.critical (Input.pc l)

/-! ## The assertions -/

/-- The pause that is not counted yet. -/
def Compute.owed (l : Compute) : Int := if l.pc = .lockCounter ∨ l.pc = .count then 1 else 0

structure Compute.Asserts (l : Compute) (d : SharedData) (past : List Event) : Prop where
  counted : d.counter + l.owed = (pauses past).length
  bounded : d.counter ≤ intMax
  slept : ∀ useconds ∈ pauses past, ∃ period, InRange period ∧ useconds = period * MS
  period : l.pc.critical = true → InRange d.period
  per : l.pc = .unlockPeriod ∨ l.pc = .sleep → InRange l.per
  quit : l.q = true → d.quit = true

/-- `tmp` is what the next line shows. -/
def OutputPc.counted : OutputPc → Bool
  | .readPeriod | .readQuit | .unlockWait | .print => true
  | _ => false

/-- Before `is_serial_open` is set. -/
def OutputPc.opening : OutputPc → Bool
  | .info | .open | .testOpen | .lockFailed | .setQuit | .unlockFailed | .lockOpen | .setOpen => true
  | _ => false

structure Output.Asserts (l : Output) (d : SharedData) (past : List Event) : Prop where
  sorted : (prints past).Pairwise fun x y => x.1 ≤ y.1
  printed : ∀ x ∈ prints past, x.1 ≤ d.counter ∧ InRange x.2
  period : l.pc.critical = true → InRange d.period
  tmp : l.pc.counted = true → l.tmp ≤ d.counter ∧ ∀ x ∈ prints past, x.1 ≤ l.tmp
  per : l.pc = .readQuit ∨ l.pc = .unlockWait ∨ l.pc = .print → InRange l.per
  opening : l.pc.opening = true → d.is_serial_open = false
  quit : l.q = true → d.quit = true

/-- `quit` as `inputThread` knows it, which alone sets it once the port is open. -/
def Input.Knows (l : Input) (d : SharedData) : Prop :=
  d.quit = l.q ∧ (l.q = false → d.is_serial_open = true)

def Input.Asserts (l : Input) (d : SharedData) : Prop :=
  match l.pc with
  | .spin => (l.q = true → d.quit = true) ∧
      (l.qq = true → d.is_serial_open = true ∧ (l.q = false → d.quit = false))
  | .lockOpen => True
  | .readOpen => InRange d.period
  | .readOpenQuit => InRange d.period ∧ l.qq = d.is_serial_open
  | .unlockOpen => InRange d.period ∧ l.qq = d.is_serial_open ∧ l.q = d.quit
  | .loop => l.Knows d
  | .getchar | .testQuit => l.Knows d ∧ l.q = false
  | .lockQuit => l.Knows d ∧ l.q = false ∧ l.inC = 'q'.toUInt8
  | .setQuit => InRange d.period ∧ l.inC = 'q'.toUInt8
  | .readQuit => InRange d.period ∧ d.quit = true ∧ l.inC = 'q'.toUInt8
  | .unlockQuit => InRange d.period ∧ d.quit = true ∧ l.q = true ∧ l.inC = 'q'.toUInt8
  | .lockPeriod => l.Knows d ∧ (l.q = true → l.inC = 'q'.toUInt8)
  | .readPeriod => InRange d.period ∧ l.Knows d ∧ (l.q = true → l.inC = 'q'.toUInt8)
  | .switch =>
    InRange d.period ∧ l.Knows d ∧ (l.q = true → l.inC = 'q'.toUInt8) ∧ l.per = d.period
  | .limitHigh => InRange (d.period - 5) ∧ l.Knows d ∧ l.q = false
  | .limitLow => InRange (d.period + 5) ∧ l.Knows d ∧ l.q = false
  | .compare => InRange d.period ∧ l.Knows d ∧ (l.q = true → l.per = d.period)
  | .broadcast => InRange d.period ∧ l.Knows d ∧ l.q = false
  | .unlockPeriod => InRange d.period ∧ l.Knows d
  | .finished => d.quit = true

def asserts : (t : Thread) → Place t → SharedData → List Event → Prop
  | .compute, l, d, past => Compute.Asserts l d past
  | .output, l, d, past => Output.Asserts l d past
  | .input, l, d, _ => Input.Asserts l d

/-- What each thread leaves as it is. -/
def guarantee : Thread → SharedData → List Event → SharedData → List Event → Prop
  | .compute, d, past, d', past' => d' = { d with counter := d'.counter } ∧
      d.counter ≤ d'.counter ∧ prints past' = prints past
  | .output, d, past, d', past' =>
      d' = { d with quit := d'.quit, is_serial_open := d'.is_serial_open } ∧
      (d.quit = true → d'.quit = true) ∧
      (d.is_serial_open = true → d'.is_serial_open = true ∧ d'.quit = d.quit) ∧
      pauses past' = pauses past
  | .input, d, past, d', past' => d' = { d with period := d'.period, quit := d'.quit } ∧
      (d.quit = true → d'.quit = true) ∧ prints past' = prints past ∧ pauses past' = pauses past

def outline : Outline CMemory.Fault SharedData Event Thread Place where
  holds := holds
  inv d _ := InRange d.period
  asserts := asserts
  guarantee := guarantee
  shows t d past past' := guarantee t d past d past'
  faults d e := e = .overflow ∧ d.counter = intMax

/-! ## Each action follows its rule -/

theorem intValue_ok {x : Int} (hlow : -intMax - 1 ≤ x) (hhigh : x ≤ intMax) :
    intValue x = .ok x :=
  if_pos ⟨hlow, hhigh⟩

theorem intValue_error {x : Int} {e : CMemory.Fault} (hlow : -intMax - 1 ≤ x)
    (h : intValue x = .error e) : e = .overflow ∧ intMax < x := by
  unfold intValue at h
  split at h
  · cases h
  · cases h
    exact ⟨rfl, by omega⟩

theorem intValue_eq {x y : Int} (h : intValue x = .ok y) : y = x ∧ x ≤ intMax := by
  unfold intValue at h
  split at h
  · rename_i hx
    cases h
    exact ⟨rfl, hx.2⟩
  · cases h

@[simp] theorem prints_append (past past' : List Event) :
    prints (past ++ past') = prints past ++ prints past' := List.filterMap_append

@[simp] theorem pauses_append (past past' : List Event) :
    pauses (past ++ past') = pauses past ++ pauses past' := List.filterMap_append

theorem prints_of_silent {out : Option Event} (h : prints out.toList = []) (past : List Event) :
    prints (past ++ out.toList) = prints past := by
  rw [prints_append, h, List.append_nil]

theorem pauses_of_silent {out : Option Event} (h : pauses out.toList = []) (past : List Event) :
    pauses (past ++ out.toList) = pauses past := by
  rw [pauses_append, h, List.append_nil]

theorem InRange.intValue_ok {period : Int} (h : InRange period) :
    intValue (period * MS) = .ok (period * MS) := by
  obtain ⟨hlow, hhigh, -⟩ := h
  unfold MS
  exact Threads.intValue_ok (by unfold intMax; omega) (by unfold intMax; omega)

/-- A step of `computeThread` that neither sleeps nor counts. -/
theorem Compute.Asserts.goto {l l' : Compute} {d : SharedData} {past past' : List Event}
    (h : l.Asserts d past) (howed : l'.owed = l.owed) (hpauses : pauses past' = pauses past)
    (hperiod : l'.pc.critical = true → l.pc.critical = true)
    (hper : l'.pc = .unlockPeriod ∨ l'.pc = .sleep → InRange l'.per)
    (hq : l'.q = true → d.quit = true) : l'.Asserts d past' := by
  refine ⟨?_, h.bounded, ?_, fun hcritical => h.period (hperiod hcritical), hper, hq⟩
  · rw [howed, hpauses]
    exact h.counted
  · rw [hpauses]
    exact h.slept

/-- What `computeThread` guarantees while it leaves the data as they are. -/
theorem compute_guarantee_refl (d : SharedData) {past past' : List Event}
    (hprints : prints past' = prints past) : guarantee .compute d past d past' :=
  ⟨rfl, le_refl _, hprints⟩

section Compute
variable {q : Bool} {per : Int}

theorem compute_allows_loop :
    outline.Allows .compute ⟨.loop, q, per⟩ (computeThread ⟨.loop, q, per⟩) := by
  cases q with
  | true | false =>
    apply Outline.allows_plain
    intro d past h
    exact ⟨rfl, h.goto rfl (pauses_of_silent rfl past) (by simp [ComputePc.critical]) (by simp)
      h.quit, compute_guarantee_refl d (prints_of_silent rfl past)⟩

/-- The pause is shown here and counted later. -/
theorem compute_allows_sleep :
    outline.Allows .compute ⟨.sleep, q, per⟩ (computeThread ⟨.sleep, q, per⟩) := by
  intro d past h
  have hper : InRange per := h.per (.inr rfl)
  have hcounted := h.counted
  simp only [hper.intValue_ok]
  refine ⟨by simp [bind, Except.bind, pure, Except.pure], ?_⟩
  intro next out hr
  cases hr
  have hpause : pauses (past ++ [.slept (per * MS)]) = pauses past ++ [per * MS] :=
    pauses_append past _
  refine ⟨rfl, ⟨?_, h.bounded, ?_, by simp [ComputePc.critical], by simp, h.quit⟩,
    compute_guarantee_refl d (prints_of_silent rfl past)⟩
  · simp only [Compute.owed, Option.toList_some, hpause, List.length_append] at hcounted ⊢
    simp at hcounted ⊢
    omega
  · rw [Option.toList_some, hpause, List.forall_mem_append]
    refine ⟨h.slept, ?_⟩
    simp only [List.mem_singleton, forall_eq]
    exact ⟨per, hper, rfl⟩

/-- The counter takes over the pause that it owed, or passes the end of `int`. -/
theorem compute_allows_count :
    outline.Allows .compute ⟨.count, q, per⟩ (computeThread ⟨.count, q, per⟩) := by
  refine ⟨rfl, ?_⟩
  intro d past h
  have hcounted := h.counted
  have hbounded := h.bounded
  simp only [Compute.owed, or_true, if_true] at hcounted
  have hlow : -intMax - 1 ≤ d.counter + 1 := by
    unfold intMax
    omega
  refine ⟨?_, ?_⟩
  · intro e he
    rcases bind_error_iff.mp he with hvalue | ⟨counter, -, hpure⟩
    · obtain ⟨rfl, hlt⟩ := intValue_error hlow hvalue
      exact ⟨rfl, by omega⟩
    · cases hpure
  · intro d' next hf
    obtain ⟨counter, hvalue, hf⟩ := bind_ok_iff.mp hf
    obtain ⟨rfl, hmax⟩ := intValue_eq hvalue
    cases hf
    refine ⟨rfl, ⟨?_, hmax, h.slept, fun _ => h.period rfl, by simp, h.quit⟩, rfl, ?_, rfl⟩
    · simp [Compute.owed, hcounted]
    · simp only
      omega

end Compute

theorem compute_allows (l : Compute) : outline.Allows .compute l (computeThread l) := by
  obtain ⟨pc, q, per⟩ := l
  cases pc with
  | loop => exact compute_allows_loop
  | lockPeriod | lockCounter =>
    refine ⟨rfl, rfl, ?_⟩
    intro d past h hinv
    exact ⟨h.counted, h.bounded, h.slept, fun _ => hinv, by simp, h.quit⟩
  | readPeriod =>
    apply Outline.allows_access rfl
    intro d past h
    have hperiod := h.period rfl
    exact ⟨rfl, h.goto rfl rfl id (fun _ => hperiod) h.quit, compute_guarantee_refl d rfl⟩
  | unlockPeriod =>
    refine ⟨rfl, rfl, ?_⟩
    intro d past h
    have hper := h.per (.inl rfl)
    exact ⟨h.period rfl, h.goto rfl rfl (by simp [ComputePc.critical]) (fun _ => hper) h.quit⟩
  | sleep => exact compute_allows_sleep
  | count => exact compute_allows_count
  | signal =>
    refine ⟨rfl, ?_⟩
    intro d past h
    exact h.goto rfl rfl id (by simp) h.quit
  | readQuit =>
    apply Outline.allows_access rfl
    intro d past h
    exact ⟨rfl, h.goto rfl rfl id (by simp) id, compute_guarantee_refl d rfl⟩
  | unlockCounter =>
    refine ⟨rfl, rfl, ?_⟩
    intro d past h
    exact ⟨h.period rfl, h.goto rfl rfl (by simp [ComputePc.critical]) (by simp) h.quit⟩
  | finished => trivial

/-- A step of `outputThread` that neither prints nor writes. -/
theorem Output.Asserts.goto {l l' : Output} {d : SharedData} {past past' : List Event}
    (h : l.Asserts d past) (hprints : prints past' = prints past)
    (hperiod : l'.pc.critical = true → l.pc.critical = true)
    (htmp : l'.pc.counted = true → l'.tmp ≤ d.counter ∧ ∀ x ∈ prints past, x.1 ≤ l'.tmp)
    (hper : l'.pc = .readQuit ∨ l'.pc = .unlockWait ∨ l'.pc = .print → InRange l'.per)
    (hopening : l'.pc.opening = true → l.pc.opening = true)
    (hq : l'.q = true → d.quit = true) : l'.Asserts d past' := by
  refine ⟨?_, ?_, fun hcritical => h.period (hperiod hcritical), ?_, hper,
    fun hopen => h.opening (hopening hopen), hq⟩
  · rw [hprints]
    exact h.sorted
  · rw [hprints]
    exact h.printed
  · rw [hprints]
    exact htmp

/-- What `outputThread` guarantees while it leaves the data as they are. -/
theorem output_guarantee_refl (d : SharedData) {past past' : List Event}
    (hpauses : pauses past' = pauses past) : guarantee .output d past d past' :=
  ⟨rfl, id, fun hopen => ⟨hopen, rfl⟩, hpauses⟩

theorem OutputPc.not_counted {pc : OutputPc} (h : pc.counted = false) :
    ¬ (pc = .readQuit ∨ pc = .unlockWait ∨ pc = .print) := by
  rintro (rfl | rfl | rfl) <;> cases h

/-- A step of `outputThread` to a place before `tmp` is read. -/
theorem Output.Asserts.fresh {l l' : Output} {d : SharedData} {past past' : List Event}
    (h : l.Asserts d past) (hprints : prints past' = prints past)
    (hperiod : l'.pc.critical = true → InRange d.period) (hfresh : l'.pc.counted = false)
    (hopening : l'.pc.opening = true → l.pc.opening = true) (hq : l'.q = l.q) :
    l'.Asserts d past' := by
  refine ⟨?_, ?_, hperiod, ?_, ?_, fun hopen => h.opening (hopening hopen), hq ▸ h.quit⟩
  · rw [hprints]
    exact h.sorted
  · rw [hprints]
    exact h.printed
  · simp [hfresh]
  · exact fun hper => absurd hper (OutputPc.not_counted hfresh)

section Output
variable {l l' : Output} {out : Option Event} {fd tmp per : Int} {q : Bool}

/-- A statement without the mutex that shows no counter. -/
theorem output_allows_plain (hfree : l.pc.critical = false) (hfree' : l'.pc.critical = false)
    (hfresh : l'.pc.counted = false) (hopening : l'.pc.opening = true → l.pc.opening = true)
    (hq : l'.q = l.q) (hprints : prints out.toList = []) (hpauses : pauses out.toList = []) :
    outline.Allows .output l (.plain (.ok (l', out))) := by
  apply Outline.allows_plain
  intro d past h
  have hnext := h.fresh (prints_of_silent hprints past) (by simp [hfree']) hfresh hopening hq
  exact ⟨hfree'.trans hfree.symm, hnext,
    output_guarantee_refl d (pauses_of_silent hpauses past)⟩

/-- `pthread_mutex_lock`, also the one at the end of `pthread_cond_wait`. -/
theorem output_allows_lock (hfree : l.pc.critical = false) (hheld : l'.pc.critical = true)
    (hfresh : l'.pc.counted = false) (hopening : l'.pc.opening = true → l.pc.opening = true)
    (hq : l'.q = l.q) : outline.Allows .output l (.lock l') := by
  refine ⟨hfree, hheld, ?_⟩
  intro d past h hinv
  exact h.fresh rfl (fun _ => hinv) hfresh hopening hq

/-- `pthread_mutex_unlock` when no line follows, and the beginning of `pthread_cond_wait`. -/
theorem output_allows_unlock (hheld : l.pc.critical = true) (hfree : l'.pc.critical = false)
    (hfresh : l'.pc.counted = false) (hopening : l'.pc.opening = true → l.pc.opening = true)
    (hq : l'.q = l.q) : outline.Allows .output l (.unlock l') := by
  refine ⟨hheld, hfree, ?_⟩
  intro d past h
  exact ⟨h.period hheld, h.fresh rfl (by simp [hfree]) hfresh hopening hq⟩

/-- The port could not be opened, so that `is_serial_open` is not set yet. -/
theorem output_allows_setQuit (env : Env) :
    outline.Allows .output ⟨.setQuit, fd, q, tmp, per⟩
      (outputThread env ⟨.setQuit, fd, q, tmp, per⟩) := by
  apply Outline.allows_access rfl
  intro d past h
  refine ⟨rfl, ⟨h.sorted, h.printed, fun _ => h.period rfl, by simp [OutputPc.counted], by simp,
    h.opening, fun _ => rfl⟩, rfl, fun _ => rfl, ?_, rfl⟩
  intro hopen
  rw [h.opening rfl] at hopen
  cases hopen

theorem output_allows_setOpen (env : Env) :
    outline.Allows .output ⟨.setOpen, fd, q, tmp, per⟩
      (outputThread env ⟨.setOpen, fd, q, tmp, per⟩) := by
  apply Outline.allows_access rfl
  intro d past h
  exact ⟨rfl, ⟨h.sorted, h.printed, fun _ => h.period rfl, by simp [OutputPc.counted], by simp,
    by simp [OutputPc.opening], h.quit⟩, rfl, id, fun _ => ⟨rfl, rfl⟩, rfl⟩

/-- The line shows no less than the lines before. -/
theorem output_allows_print (env : Env) :
    outline.Allows .output ⟨.print, fd, q, tmp, per⟩
      (outputThread env ⟨.print, fd, q, tmp, per⟩) := by
  cases q with
  | true => exact output_allows_plain rfl rfl rfl (by simp [OutputPc.opening]) rfl rfl rfl
  | false =>
    apply Outline.allows_plain
    intro d past h
    obtain ⟨hle, hlast⟩ := h.tmp rfl
    have hper := h.per (.inr (.inr rfl))
    have hprints : prints (past ++ [.counter tmp per]) = prints past ++ [(tmp, per)] :=
      prints_append past _
    refine ⟨rfl, ⟨?_, ?_, by simp [OutputPc.critical], by simp [OutputPc.counted], by simp,
      by simp [OutputPc.opening], h.quit⟩, output_guarantee_refl d (pauses_of_silent rfl past)⟩
    · simp only [Bool.false_eq_true, if_false, Option.toList_some, hprints]
      refine List.pairwise_append.mpr ⟨h.sorted, List.pairwise_singleton _ _, ?_⟩
      simpa using hlast
    · simp only [Bool.false_eq_true, if_false, Option.toList_some, hprints]
      refine List.forall_mem_append.mpr ⟨h.printed, ?_⟩
      simpa using ⟨hle, hper⟩

end Output

theorem output_allows (env : Env) (l : Output) (hawake : l.pc ≠ .asleep) :
    outline.Allows .output l (outputThread env l) := by
  obtain ⟨pc, fd, q, tmp, per⟩ := l
  cases pc with
  | info | «open» => exact output_allows_plain rfl rfl rfl (fun _ => rfl) rfl rfl rfl
  | testOpen =>
    simp only [outputThread]
    split
    · exact output_allows_plain rfl rfl rfl (fun _ => rfl) rfl rfl rfl
    · exact output_allows_plain rfl rfl rfl (fun _ => rfl) rfl rfl rfl
  | lockFailed | lockOpen | lockWait | woken => exact output_allows_lock rfl rfl rfl id rfl
  | setQuit => exact output_allows_setQuit env
  | unlockFailed | unlockOpen =>
    exact output_allows_unlock rfl rfl rfl (by simp [OutputPc.opening]) rfl
  | setOpen => exact output_allows_setOpen env
  | loop =>
    cases q with
    | true | false => exact output_allows_plain rfl rfl rfl id rfl rfl rfl
  | wait => exact output_allows_unlock rfl rfl rfl id rfl
  | asleep => exact absurd rfl hawake
  | readCounter =>
    apply Outline.allows_access rfl
    intro d past h
    exact ⟨rfl, h.goto rfl id (fun _ => ⟨le_refl _, fun x hx => (h.printed x hx).1⟩) (by simp)
      (by simp [OutputPc.opening]) h.quit, output_guarantee_refl d rfl⟩
  | readPeriod =>
    apply Outline.allows_access rfl
    intro d past h
    exact ⟨rfl, h.goto rfl id (fun _ => h.tmp rfl) (fun _ => h.period rfl)
      (by simp [OutputPc.opening]) h.quit, output_guarantee_refl d rfl⟩
  | readQuit =>
    apply Outline.allows_access rfl
    intro d past h
    exact ⟨rfl, h.goto rfl id (fun _ => h.tmp rfl) (fun _ => h.per (.inl rfl))
      (by simp [OutputPc.opening]) id, output_guarantee_refl d rfl⟩
  | unlockWait =>
    refine ⟨rfl, rfl, ?_⟩
    intro d past h
    exact ⟨h.period rfl, h.goto rfl (by simp [OutputPc.critical]) (fun _ => h.tmp rfl)
      (fun _ => h.per (.inr (.inl rfl))) (by simp [OutputPc.opening]) h.quit⟩
  | print => exact output_allows_print env
  | close =>
    simp only [outputThread]
    split
    · exact output_allows_plain rfl rfl rfl id rfl rfl rfl
    · exact output_allows_plain rfl rfl rfl id rfl rfl rfl
  | leave => exact output_allows_plain rfl rfl rfl id rfl rfl rfl
  | finished => trivial

/-- What `inputThread` guarantees while it leaves the data as they are and shows neither a
counter nor a pause. -/
theorem input_guarantee_refl (d : SharedData) {past past' : List Event}
    (hprints : prints past' = prints past) (hpauses : pauses past' = pauses past) :
    guarantee .input d past d past' :=
  ⟨rfl, id, hprints, hpauses⟩

theorem input_guarantee_silent (d : SharedData) (past : List Event) (out : Option Event)
    (hprints : prints out.toList = []) (hpauses : pauses out.toList = []) :
    guarantee .input d past d (past ++ out.toList) :=
  input_guarantee_refl d (prints_of_silent hprints past) (pauses_of_silent hpauses past)

section Input
variable {qq q : Bool} {inC : UInt8} {per : Int}

/-- Behind the first loop `inputThread` knows `quit`. -/
theorem input_allows_spin (env : Env) :
    outline.Allows .input ⟨.spin, qq, q, inC, per⟩ (inputThread env ⟨.spin, qq, q, inC, per⟩) := by
  apply Outline.allows_plain
  intro d past h
  obtain ⟨hquit, hopen⟩ := h
  have hrest := input_guarantee_silent d past none rfl rfl
  cases q with
  | true =>
    rw [Bool.not_true, Bool.and_false]
    exact ⟨rfl, ⟨hquit rfl, by simp⟩, hrest⟩
  | false =>
    cases qq with
    | true =>
      obtain ⟨hserial, hnot⟩ := hopen rfl
      exact ⟨rfl, ⟨hnot rfl, fun _ => hserial⟩, hrest⟩
    | false => exact ⟨rfl, trivial, hrest⟩

theorem input_allows_unlockOpen (env : Env) :
    outline.Allows .input ⟨.unlockOpen, qq, q, inC, per⟩
      (inputThread env ⟨.unlockOpen, qq, q, inC, per⟩) := by
  refine ⟨rfl, rfl, ?_⟩
  intro d past h
  obtain ⟨hperiod, hopen, hquit⟩ := h
  simp only at hopen hquit
  refine ⟨hperiod, ?_, ?_⟩
  · intro hq
    rw [← hquit]
    exact hq
  · intro hqq
    refine ⟨hopen ▸ hqq, ?_⟩
    intro hq
    rw [← hquit]
    exact hq

theorem input_allows_loop (env : Env) :
    outline.Allows .input ⟨.loop, qq, q, inC, per⟩ (inputThread env ⟨.loop, qq, q, inC, per⟩) := by
  apply Outline.allows_plain
  intro d past h
  obtain ⟨hquit, hopen⟩ := h
  cases q with
  | true => exact ⟨rfl, hquit, input_guarantee_silent d past _ rfl rfl⟩
  | false => exact ⟨rfl, ⟨⟨hquit, hopen⟩, rfl⟩, input_guarantee_silent d past _ rfl rfl⟩

theorem input_allows_testQuit (env : Env) :
    outline.Allows .input ⟨.testQuit, qq, q, inC, per⟩
      (inputThread env ⟨.testQuit, qq, q, inC, per⟩) := by
  apply Outline.allows_plain
  intro d past h
  obtain ⟨hknows, hq⟩ := h
  have hrest := input_guarantee_silent d past none rfl rfl
  by_cases hinC : inC = 'q'.toUInt8
  · simp only [if_pos hinC]
    exact ⟨rfl, ⟨hknows, hq, hinC⟩, hrest⟩
  · simp only [if_neg hinC]
    refine ⟨rfl, ⟨hknows, ?_⟩, hrest⟩
    intro htrue
    rw [show q = false from hq] at htrue
    cases htrue

/-- The limits come later, so that a period may leave the range by one step here. -/
theorem input_allows_switch (env : Env) :
    outline.Allows .input ⟨.switch, qq, q, inC, per⟩
      (inputThread env ⟨.switch, qq, q, inC, per⟩) := by
  refine ⟨rfl, ?_⟩
  intro d past h
  obtain ⟨hperiod, hknows, hinC, hsame⟩ := h
  simp only at hinC hsame
  -- the key `q` is none of the two that change the period
  have hq : inC ≠ 'q'.toUInt8 → q = false := fun hne => Bool.eq_false_iff.mpr fun ht => hne (hinC ht)
  obtain ⟨hlow, hhigh, hdvd⟩ := hperiod
  have hplus : intValue (d.period + 5) = .ok (d.period + 5) :=
    intValue_ok (by unfold intMax; omega) (by unfold intMax; omega)
  have hminus : intValue (d.period - 5) = .ok (d.period - 5) :=
    intValue_ok (by unfold intMax; omega) (by unfold intMax; omega)
  by_cases hp : inC = 'p'.toUInt8
  · simp only [if_pos hp, hplus, ok_bind]
    refine ⟨by simp [pure, Except.pure], ?_⟩
    intro d' next hf
    cases hf
    refine ⟨rfl, ⟨?_, hknows, hq ?_⟩, rfl, id, rfl, rfl⟩
    · simp only [add_sub_cancel_right]
      exact ⟨hlow, hhigh, hdvd⟩
    · rw [hp]
      decide
  · by_cases hm : inC = 'm'.toUInt8
    · simp only [if_neg hp, if_pos hm, hminus, ok_bind]
      refine ⟨by simp [pure, Except.pure], ?_⟩
      intro d' next hf
      cases hf
      refine ⟨rfl, ⟨?_, hknows, hq ?_⟩, rfl, id, rfl, rfl⟩
      · simp only [sub_add_cancel]
        exact ⟨hlow, hhigh, hdvd⟩
      · rw [hm]
        decide
    · simp only [if_neg hp, if_neg hm]
      refine ⟨by simp [pure, Except.pure], ?_⟩
      intro d' next hf
      cases hf
      exact ⟨rfl, ⟨⟨hlow, hhigh, hdvd⟩, hknows, fun _ => hsame⟩, input_guarantee_refl d rfl rfl⟩

/-- A limit brings the period back into the range. -/
theorem input_allows_limit {pc : InputPc} (hheld : pc.critical = true)
    (limit : SharedData → SharedData) (hlimit : ∀ d, limit d = { d with period := (limit d).period })
    (h : ∀ d, Input.Asserts ⟨pc, qq, q, inC, per⟩ d →
      InRange (limit d).period ∧ Input.Knows ⟨.compare, qq, q, inC, per⟩ d ∧ q = false) :
    outline.Allows .input ⟨pc, qq, q, inC, per⟩
      (.access fun data => .ok (limit data, ⟨.compare, qq, q, inC, per⟩)) := by
  apply Outline.allows_access hheld
  intro d past hassert
  obtain ⟨hrange, hknows, hq⟩ := h d hassert
  have hquit : (limit d).quit = d.quit := by rw [hlimit d]
  have hopen : (limit d).is_serial_open = d.is_serial_open := by rw [hlimit d]
  refine ⟨rfl, ⟨hrange, ⟨hquit.trans hknows.1, fun hnot => hopen.trans (hknows.2 hnot)⟩, ?_⟩, ?_⟩
  · exact fun htrue => absurd (hq.symm.trans htrue) Bool.false_ne_true
  · refine ⟨?_, hquit.symm ▸ id, rfl, rfl⟩
    rw [hlimit d]

theorem input_allows_limitHigh (env : Env) :
    outline.Allows .input ⟨.limitHigh, qq, q, inC, per⟩
      (inputThread env ⟨.limitHigh, qq, q, inC, per⟩) := by
  refine input_allows_limit rfl
    (fun d => if d.period > 2000 then { d with period := 2000 } else d) ?_ ?_
  · intro d
    split <;> rfl
  · rintro d ⟨⟨hlow, hhigh, hdvd⟩, hknows, hq⟩
    have hlimit : InRange 2000 := ⟨by decide, by decide, by decide⟩
    refine ⟨?_, hknows, hq⟩
    split
    · exact hlimit
    · exact ⟨by omega, by omega, by omega⟩

theorem input_allows_limitLow (env : Env) :
    outline.Allows .input ⟨.limitLow, qq, q, inC, per⟩
      (inputThread env ⟨.limitLow, qq, q, inC, per⟩) := by
  refine input_allows_limit rfl
    (fun d => if d.period < 20 then { d with period := 20 } else d) ?_ ?_
  · intro d
    split <;> rfl
  · rintro d ⟨⟨hlow, hhigh, hdvd⟩, hknows, hq⟩
    have hlimit : InRange 20 := ⟨by decide, by decide, by decide⟩
    refine ⟨?_, hknows, hq⟩
    split
    · exact hlimit
    · exact ⟨by omega, by omega, by omega⟩

theorem input_allows_compare (env : Env) :
    outline.Allows .input ⟨.compare, qq, q, inC, per⟩
      (inputThread env ⟨.compare, qq, q, inC, per⟩) := by
  apply Outline.allows_access rfl
  intro d past h
  obtain ⟨hperiod, hknows, hsame⟩ := h
  by_cases hne : per ≠ d.period
  · simp only [if_pos hne]
    have hq : q = false := Bool.eq_false_iff.mpr fun ht => hne (hsame ht)
    exact ⟨rfl, ⟨hperiod, hknows, hq⟩, input_guarantee_refl d rfl rfl⟩
  · simp only [if_neg hne]
    exact ⟨rfl, ⟨hperiod, hknows⟩, input_guarantee_refl d rfl rfl⟩

end Input

theorem input_allows (env : Env) (l : Input) : outline.Allows .input l (inputThread env l) := by
  obtain ⟨pc, qq, q, inC, per⟩ := l
  cases pc with
  | spin => exact input_allows_spin env
  | lockOpen =>
    refine ⟨rfl, rfl, ?_⟩
    intro d past _ hinv
    exact hinv
  | readOpen =>
    apply Outline.allows_access rfl
    intro d past h
    exact ⟨rfl, ⟨h, rfl⟩, input_guarantee_refl d rfl rfl⟩
  | readOpenQuit =>
    apply Outline.allows_access rfl
    intro d past h
    exact ⟨rfl, ⟨h.1, h.2, rfl⟩, input_guarantee_refl d rfl rfl⟩
  | unlockOpen => exact input_allows_unlockOpen env
  | loop => exact input_allows_loop env
  | getchar =>
    apply Outline.allows_plain
    intro d past h
    exact ⟨rfl, h, input_guarantee_silent d past _ rfl rfl⟩
  | testQuit => exact input_allows_testQuit env
  | lockQuit =>
    refine ⟨rfl, rfl, ?_⟩
    intro d past h hinv
    exact ⟨hinv, h.2.2⟩
  | setQuit =>
    apply Outline.allows_access rfl
    intro d past h
    exact ⟨rfl, ⟨h.1, rfl, h.2⟩, rfl, fun _ => rfl, rfl, rfl⟩
  | readQuit =>
    apply Outline.allows_access rfl
    intro d past h
    exact ⟨rfl, ⟨h.1, h.2.1, h.2.1, h.2.2⟩, input_guarantee_refl d rfl rfl⟩
  | unlockQuit =>
    refine ⟨rfl, rfl, ?_⟩
    intro d past h
    obtain ⟨hperiod, hquit, hq, hinC⟩ := h
    exact ⟨hperiod, ⟨hquit.trans hq.symm, fun hnot => absurd hq (by rw [hnot]; simp)⟩,
      fun _ => hinC⟩
  | lockPeriod =>
    refine ⟨rfl, rfl, ?_⟩
    intro d past h hinv
    exact ⟨hinv, h⟩
  | readPeriod =>
    apply Outline.allows_access rfl
    intro d past h
    exact ⟨rfl, ⟨h.1, h.2.1, h.2.2, rfl⟩, input_guarantee_refl d rfl rfl⟩
  | switch => exact input_allows_switch env
  | limitHigh => exact input_allows_limitHigh env
  | limitLow => exact input_allows_limitLow env
  | compare => exact input_allows_compare env
  | broadcast =>
    refine ⟨rfl, ?_⟩
    intro d past h
    exact ⟨h.1, h.2.1⟩
  | unlockPeriod =>
    refine ⟨rfl, rfl, ?_⟩
    intro d past h
    exact h
  | finished => trivial

/-! ## What the others do to an assertion -/

theorem Compute.Asserts.stable {l : Compute} {d d' : SharedData} {past past' : List Event}
    (h : l.Asserts d past) (hpauses : pauses past' = pauses past) (hcounter : d'.counter = d.counter)
    (hquit : d.quit = true → d'.quit = true) (hheld : l.pc.critical = true → d' = d) :
    l.Asserts d' past' := by
  refine ⟨?_, ?_, ?_, ?_, h.per, fun hq => hquit (h.quit hq)⟩
  · rw [hcounter, hpauses]
    exact h.counted
  · rw [hcounter]
    exact h.bounded
  · rw [hpauses]
    exact h.slept
  · intro hcritical
    rw [hheld hcritical]
    exact h.period hcritical

theorem Output.Asserts.stable {l : Output} {d d' : SharedData} {past past' : List Event}
    (h : l.Asserts d past) (hprints : prints past' = prints past)
    (hcounter : d.counter ≤ d'.counter) (hquit : d.quit = true → d'.quit = true)
    (hopen : d'.is_serial_open = d.is_serial_open) (hheld : l.pc.critical = true → d' = d) :
    l.Asserts d' past' := by
  refine ⟨?_, ?_, ?_, ?_, h.per, ?_, fun hq => hquit (h.quit hq)⟩
  · rw [hprints]
    exact h.sorted
  · rw [hprints]
    intro x hx
    obtain ⟨hle, hrange⟩ := h.printed x hx
    exact ⟨hle.trans hcounter, hrange⟩
  · intro hcritical
    rw [hheld hcritical]
    exact h.period hcritical
  · intro hcounted
    obtain ⟨hle, hlast⟩ := h.tmp hcounted
    rw [hprints]
    exact ⟨hle.trans hcounter, hlast⟩
  · rw [hopen]
    exact h.opening

theorem Input.Knows.stable {l : Input} {d d' : SharedData} (h : l.Knows d)
    (hquit : d.quit = true → d'.quit = true)
    (hopen : d.is_serial_open = true → d'.is_serial_open = true ∧ d'.quit = d.quit) :
    l.Knows d' := by
  obtain ⟨hq, hserial⟩ := h
  cases hl : l.q with
  | true => exact ⟨(hquit (hq.trans hl)).trans hl.symm, fun hnot => absurd (hl.symm.trans hnot) (by simp)⟩
  | false =>
    obtain ⟨hopen', hquit'⟩ := hopen (hserial hl)
    exact ⟨hquit'.trans hq, fun _ => hopen'⟩

theorem Input.Asserts.stable {l : Input} {d d' : SharedData} (h : l.Asserts d)
    (hquit : d.quit = true → d'.quit = true)
    (hopen : d.is_serial_open = true → d'.is_serial_open = true ∧ d'.quit = d.quit)
    (hheld : l.pc.critical = true → d' = d) : l.Asserts d' := by
  obtain ⟨pc, qq, q, inC, per⟩ := l
  cases pc with
  | lockOpen => trivial
  | spin =>
    obtain ⟨hq, hqq⟩ := h
    refine ⟨fun ht => hquit (hq ht), ?_⟩
    intro ht
    obtain ⟨hserial, hnot⟩ := hqq ht
    obtain ⟨hopen', hquit'⟩ := hopen hserial
    exact ⟨hopen', fun hf => hquit'.trans (hnot hf)⟩
  | loop => exact Knows.stable h hquit hopen
  | getchar | testQuit | lockQuit | lockPeriod => exact ⟨Knows.stable h.1 hquit hopen, h.2⟩
  | finished => exact hquit h
  | readOpen | readOpenQuit | unlockOpen | setQuit | readQuit | unlockQuit | readPeriod | «switch»
  | limitHigh | limitLow | compare | broadcast | unlockPeriod =>
    rw [hheld rfl]
    exact h

theorem outline_stable {t u : Thread} {p : Place u} {d d' : SharedData} {past past' : List Event}
    (hne : t ≠ u) (h : asserts u p d past) (hguar : guarantee t d past d' past')
    (hheld : holds u p = true → d' = d) : asserts u p d' past' := by
  cases t with
  | compute =>
    obtain ⟨hd, hcounter, hprints⟩ := hguar
    have hquit : d'.quit = d.quit := by rw [hd]
    have hopen : d'.is_serial_open = d.is_serial_open := by rw [hd]
    cases u with
    | compute => exact absurd rfl hne
    | output => exact Output.Asserts.stable h hprints hcounter (hquit ▸ id) hopen hheld
    | input => exact Input.Asserts.stable h (hquit ▸ id) (fun ht => ⟨hopen.trans ht, hquit⟩) hheld
  | output =>
    obtain ⟨hd, hquit, hopen, hpauses⟩ := hguar
    have hcounter : d'.counter = d.counter := by rw [hd]
    cases u with
    | compute => exact Compute.Asserts.stable h hpauses hcounter hquit hheld
    | output => exact absurd rfl hne
    | input => exact Input.Asserts.stable h hquit hopen hheld
  | input =>
    obtain ⟨hd, hquit, hprints, hpauses⟩ := hguar
    have hcounter : d'.counter = d.counter := by rw [hd]
    have hopen : d'.is_serial_open = d.is_serial_open := by rw [hd]
    cases u with
    | compute => exact Compute.Asserts.stable h hpauses hcounter hquit hheld
    | output => exact Output.Asserts.stable h hprints hcounter.ge hquit hopen hheld
    | input => exact absurd rfl hne

theorem outline_valid : outline.Valid program := by
  refine ⟨?_, ?_, ?_, fun t u p d past past' hne h hshows => outline_stable hne h hshows fun _ => rfl,
    fun t d past past' hinv _ => hinv⟩
  · intro env t p hawake
    cases t with
    | compute => exact compute_allows p
    | output =>
      refine output_allows env p ?_
      intro hpc
      simp only [program, if_pos hpc] at hawake
      cases hawake
    | input => exact input_allows env p
  · intro t p p' hwoken
    cases t with
    | compute | input => cases hwoken
    | output =>
      obtain ⟨pc, fd, q, tmp, per⟩ := p
      simp only [program] at hwoken
      split at hwoken
      · rename_i hpc
        cases hpc
        cases hwoken
        refine ⟨rfl, rfl, ?_⟩
        intro d past h
        exact h.fresh rfl (by simp [OutputPc.critical]) rfl id rfl
      · cases hwoken
  · intro t u p d past d' past' hne h hfree hguar
    refine outline_stable hne h hguar ?_
    intro hheld
    rw [show holds u p = false from hfree] at hheld
    cases hheld

/-! ## Every run -/

/-- What `main` has printed. -/
def finals (past : List Event) : List Int :=
  past.filterMap fun
    | .finished counter => some counter
    | _ => none

/-- `main` has joined the threads that it does not wait for any more. -/
def MainAt (s : State) (past : List Event) : Prop :=
  match s.main with
  | .joining left => left <:+ [.compute, .output, .input] ∧ (∀ t, t ∈ left ∨ s.Stopped t) ∧
      finals past = []
  | .returned => (∀ t, s.Stopped t) ∧ finals past = [s.data.counter]

structure Inv (s : State) (past : List Event) : Prop where
  threads : outline.Inv s.threads past
  main : MainAt s past

/-- What holds in every state, of the data and of what was shown before. -/
structure Safe (s : State) (past : List Event) : Prop where
  owner : ∀ t, s.threads.owner = some t ↔ holds t (s.threads.place t) = true
  period : s.threads.owner = none → InRange s.data.period
  slept : ∀ useconds ∈ pauses past, ∃ period, InRange period ∧ useconds = period * MS
  counted : s.data.counter + s.compute.owed = (pauses past).length
  sorted : (prints past).Pairwise fun x y => x.1 ≤ y.1
  printed : ∀ x ∈ prints past, x.1 ≤ s.data.counter ∧ InRange x.2
  finished : s.main = .returned → finals past = [s.data.counter]

theorem Inv.safe {s : State} {past : List Event} (h : Inv s past) : Safe s past := by
  have hcompute : Compute.Asserts s.compute s.data past := h.threads.asserts .compute
  have houtput : Output.Asserts s.output s.data past := h.threads.asserts .output
  refine ⟨h.threads.owner, h.threads.free, hcompute.slept, hcompute.counted, houtput.sorted,
    houtput.printed, ?_⟩
  intro hreturned
  have hmain := h.main
  unfold MainAt at hmain
  rw [hreturned] at hmain
  exact hmain.2

theorem inv_start : Inv start [] := by
  refine ⟨⟨?_, ?_, ?_⟩, List.suffix_refl _, ?_, rfl⟩
  · intro t
    cases t <;> simp [start, outline, holds, ComputePc.critical, OutputPc.critical,
      InputPc.critical]
  · intro _
    exact ⟨by decide, by decide, by decide⟩
  · intro t
    cases t with
    | compute => exact ⟨rfl, by decide, by simp [pauses], by simp [start, ComputePc.critical], by simp [start],
        by simp [start]⟩
    | output =>
      exact ⟨.nil, by simp [prints], by simp [start, OutputPc.critical],
        by simp [start, OutputPc.counted], by simp [start], fun _ => rfl, by simp [start]⟩
    | input => exact ⟨fun hq => absurd hq Bool.false_ne_true, fun hq => absurd hq Bool.false_ne_true⟩
  · intro t
    cases t <;> simp

/-- The last line is `main`'s alone. -/
theorem action_shows {env : Env} {t : Thread} {p next : Place t} {out : Option Event}
    (h : program.action env t p = .plain (.ok (next, out))) : finals out.toList = [] := by
  cases t with
  | compute =>
    obtain ⟨pc, q, per⟩ := p
    cases pc with
    | loop => cases q <;> cases h <;> rfl
    | sleep =>
      simp only [program, computeThread, Action.plain.injEq] at h
      obtain ⟨useconds, -, hpure⟩ := bind_ok_iff.mp h
      cases hpure
      rfl
    | _ => cases h
  | output =>
    obtain ⟨pc, fd, q, tmp, per⟩ := p
    cases pc with
    | testOpen | close =>
      by_cases hfd : fd = -1
      · simp only [program, outputThread, if_pos hfd] at h
        cases h
        rfl
      · simp only [program, outputThread, if_neg hfd] at h
        cases h
        rfl
    | print => cases q <;> cases h <;> rfl
    | info | «open» | loop | leave => cases h; rfl
    | _ => cases h
  | input =>
    obtain ⟨pc, qq, q, inC, per⟩ := p
    cases pc with
    | loop => cases q <;> cases h <;> rfl
    | spin | getchar | testQuit => cases h; rfl
    | _ => cases h

theorem finals_append (past past' : List Event) :
    finals (past ++ past') = finals past ++ finals past' := List.filterMap_append

/-- A stopped thread neither sleeps nor has anything left to do. -/
theorem stopped_action {s : State} {t : Thread} (h : s.Stopped t) :
    program.woken t (s.threads.place t) = none ∧
      ∀ env, program.action env t (s.threads.place t) = .stop := by
  cases t with
  | compute =>
    refine ⟨rfl, ?_⟩
    intro env
    simp only [program, computeThread, show s.compute.pc = .finished from h]
  | output =>
    refine ⟨by simp [program, show s.output.pc = .finished from h], ?_⟩
    intro env
    simp only [program, outputThread, show s.output.pc = .finished from h]
  | input =>
    refine ⟨rfl, ?_⟩
    intro env
    simp only [program, inputThread, show s.input.pc = .finished from h]

/-- A thread that has returned stays so. -/
theorem stopped_step {s : State} {threads : Monitor.State SharedData Thread Place}
    {m : Monitor.Move Env Thread} {out : Option Event} {t : Thread} (h : s.Stopped t)
    (hstep : program.step s.threads m = .ok (threads, out)) :
    State.Stopped { s with threads := threads } t := by
  obtain ⟨hawake, hstop⟩ := stopped_action h
  have hplace := step_of_stop hawake hstop hstep
  cases t with
  | compute => exact (congrArg Compute.pc hplace).trans h
  | output => exact (congrArg Output.pc hplace).trans h
  | input => exact (congrArg Input.pc hplace).trans h

theorem action_ne_commit (env : Env) (t : Thread) (p : Place t)
    (f : SharedData → Except CMemory.Fault (SharedData × Place t × Option Event)) :
    program.action env t p ≠ .commit f := by
  intro h
  cases t with
  | compute =>
    obtain ⟨pc, q, per⟩ := p
    cases pc <;> cases h
  | output =>
    obtain ⟨pc, fd, q, tmp, per⟩ := p
    cases pc <;> cases h
  | input =>
    obtain ⟨pc, qq, q, inC, per⟩ := p
    cases pc <;> cases h

theorem Inv.thread {s : State} {past : List Event} {m : Monitor.Move Env Thread}
    {threads : Monitor.State SharedData Thread Place} {out : Option Event} (h : Inv s past)
    (hstep : program.step s.threads m = .ok (threads, out)) :
    Inv { s with threads := threads } (past ++ out.toList) := by
  refine ⟨h.threads.step outline_valid hstep, ?_⟩
  have hmain := h.main
  have hfinals : finals (past ++ out.toList) = finals past := by
    rw [finals_append]
    rcases step_shows hstep with rfl | ⟨env, t, ⟨next, haction⟩ | ⟨f, haction⟩⟩
    · exact List.append_nil _
    · rw [action_shows haction, List.append_nil]
    · exact absurd haction (action_ne_commit env t _ f)
  unfold MainAt at hmain ⊢
  rw [hfinals]
  simp only
  split at hmain
  · obtain ⟨hsuffix, hleft, hpast⟩ := hmain
    exact ⟨hsuffix, fun t => (hleft t).imp_right fun ht => stopped_step ht hstep, hpast⟩
  · have hrest := step_of_all_stop (fun t => (stopped_action (hmain.1 t)).1)
      (fun env t => (stopped_action (hmain.1 t)).2 env) hstep
    subst hrest
    exact hmain

/-- `main`'s line is of no concern to the threads. -/
theorem threads_finished {threads : Monitor.State SharedData Thread Place} {past : List Event}
    (h : outline.Inv threads past) (counter : Int) :
    outline.Inv threads (past ++ [.finished counter]) := by
  have hprints : prints (past ++ [.finished counter]) = prints past := by simp [prints]
  have hpauses : pauses (past ++ [.finished counter]) = pauses past := by simp [pauses]
  refine ⟨h.owner, h.free, ?_⟩
  intro t
  have hassert := h.asserts t
  cases t with
  | compute => exact Compute.Asserts.stable hassert hpauses rfl id fun _ => rfl
  | output => exact Output.Asserts.stable hassert hprints (le_refl _) id rfl fun _ => rfl
  | input => exact hassert

theorem Inv.join {s s' : State} {past : List Event} {out : Option Event} (h : Inv s past)
    (hstep : mainStep s = .ok (s', out)) : Inv s' (past ++ out.toList) := by
  obtain ⟨hthreads, hmain⟩ := h
  unfold MainAt at hmain
  unfold mainStep at hstep
  split at hstep
  · rename_i t left hjoining
    rw [hjoining] at hmain
    obtain ⟨hsuffix, hleft, hfinals⟩ := hmain
    cases hstep
    rw [Option.toList_none, List.append_nil]
    split
    · rename_i hstopped
      refine ⟨hthreads, (List.suffix_cons _ _).trans hsuffix, ?_, hfinals⟩
      intro u
      rcases hleft u with hmem | hu
      · rcases List.mem_cons.mp hmem with rfl | hmem
        · exact .inr hstopped
        · exact .inl hmem
      · exact .inr hu
    · exact ⟨hthreads, by
        unfold MainAt
        rw [hjoining]
        exact ⟨hsuffix, hleft, hfinals⟩⟩
  · rename_i hjoining
    rw [hjoining] at hmain
    obtain ⟨-, hleft, hfinals⟩ := hmain
    have hall : ∀ t, s.Stopped t := fun t => (hleft t).resolve_left (List.not_mem_nil)
    rw [if_pos hall] at hstep
    cases hstep
    refine ⟨threads_finished hthreads _, hall, ?_⟩
    rw [finals_append, hfinals]
    rfl
  · cases hstep
    rw [Option.toList_none, List.append_nil]
    exact ⟨hthreads, hmain⟩

theorem Inv.step {s s' : State} {past : List Event} {move : Move} {out : Option Event}
    (h : Inv s past) (hstep : step s move = .ok (s', out)) : Inv s' (past ++ out.toList) := by
  cases move with
  | main => exact h.join hstep
  | thread m =>
    obtain ⟨⟨threads, out'⟩, hthread, hpure⟩ := bind_ok_iff.mp hstep
    cases hpure
    exact h.thread hthread

theorem Inv.fault {s : State} {past : List Event} {move : Move}
    {fault : Monitor.Fault CMemory.Fault} (h : Inv s past) (hstep : Threads.step s move = .error fault) :
    fault = .failed .overflow ∧ s.data.counter = intMax := by
  cases move with
  | main =>
    simp only [Threads.step, mainStep] at hstep
    split at hstep
    · cases hstep
    · rename_i hjoining
      have hmain := h.main
      unfold MainAt at hmain
      rw [hjoining] at hmain
      have hall : ∀ t, s.Stopped t := fun t => (hmain.2.1 t).resolve_left (List.not_mem_nil)
      rw [if_pos hall] at hstep
      cases hstep
    · cases hstep
  | thread m =>
    rcases bind_error_iff.mp hstep with hthread | ⟨r, -, hpure⟩
    · obtain ⟨e, rfl, rfl, hmax⟩ := h.threads.step_error outline_valid hthread
      exact ⟨rfl, hmax⟩
    · cases hpure

theorem inv_run {moves : List Move} {s : State} {outs : List (Option Event)}
    (hrun : run step start moves = .ok (s, outs)) : Inv s (shown outs) :=
  run_shown (fun past s => Inv s past) (fun _ _ _ _ _ => Inv.step) inv_start hrun

/-- Every interleaving of the threads, with any keys and any answer of `serial_open`. The
only fault is the counter beyond its `int`. -/
theorem threads_safe {moves : List Move} {s : State} {outs : List (Option Event)}
    (hrun : run step start moves = .ok (s, outs)) :
    Safe s (shown outs) ∧ ∀ move fault, step s move = .error fault →
      fault = .failed .overflow ∧ s.data.counter = intMax :=
  ⟨(inv_run hrun).safe, fun _ _ => (inv_run hrun).fault⟩

/-- The thread's next `n` steps, with a port that opens. -/
def turns (t : Thread) (n : Nat) : List Move :=
  List.replicate n (.thread (.turn t ⟨3, 0⟩ fun _ => true))

/-- Up to the first line about the counter. -/
def firstLine : List Move := turns .output 9 ++ turns .compute 10 ++ turns .output 6

theorem threads_safe_first : ∃ s outs, run step start firstLine = .ok (s, outs) ∧
    Safe s (shown outs) ∧ prints (shown outs) = [(1, 300)] := by
  have hprints : (run step start firstLine).map (fun r => prints (shown r.2)) = .ok [(1, 300)] := rfl
  cases hrun : run step start firstLine with
  | error fault =>
    rw [hrun] at hprints
    cases hprints
  | ok r =>
    rw [hrun] at hprints
    exact ⟨r.1, r.2, rfl, (threads_safe hrun).1, Except.ok.inj hprints⟩

end Prgsem.Threads
