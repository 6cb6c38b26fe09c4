import Prgsem.Threads.Shutdown

/-!
# The signal that is lost

`outputThread` waits without looking at `quit` first. It hangs exactly if the signal
that `computeThread` sends after `quit` was set finds it on its way to the wait.
-/

namespace Prgsem.Threads

open CMemory Monitor Run
set_option autoImplicit false

/-- `outputThread` comes to its `pthread_cond_wait` before it can leave. -/
def Output.mustWait (l : Output) : Bool :=
  match l.pc with
  | .info | .open | .testOpen | .lockFailed | .setQuit | .unlockFailed | .lockOpen | .setOpen
  | .unlockOpen | .lockWait | .wait | .asleep => true
  | .loop | .print | .unlockWait => !l.q
  | .woken | .readCounter | .readPeriod | .readQuit | .close | .leave | .finished => false

/-- `computeThread` does not signal any more. -/
def Compute.Signalled (l : Compute) (d : SharedData) : Prop :=
  l.q = true ∨ l.pc = .readQuit ∧ d.quit = true

def Missed (s : State) : Prop := s.compute.Signalled s.data ∧ s.output.mustWait = true

/-- `computeThread` signals after `quit` was set, and nobody waits. -/
structure MissesSignal (s : State) (move : Move) : Prop where
  turn : ∃ env chosen, move = .thread (.turn .compute env chosen)
  signal : s.compute.pc = .signal
  quit : s.data.quit = true
  busy : s.output.mustWait = true
  awake : s.output.pc ≠ .asleep

/-! ## What the locals say of the places -/

def Fits : (t : Thread) → Place t → Prop
  | .compute, l =>
    ((Compute.q l) = true → l.pc = .unlockCounter ∨ l.pc = .loop ∨ l.pc = .finished) ∧
      (l.pc = .finished → l.q = true)
  | .output, l => OutputPc.opening (Output.pc l) = true ∨ l.pc = .unlockOpen → l.q = false
  | .input, _ => True

theorem fits_target {env : Env} {t : Thread} {p p' : Place t} {d : SharedData} (h : Fits t p)
    (htarget : (program.action env t p).target d = some p') : Fits t p' := by
  cases t with
  | compute =>
    obtain ⟨hpc, rfl⟩ := Compute.eq_next htarget
    obtain ⟨pc, q, per⟩ := p
    obtain ⟨hq, -⟩ := h
    cases pc with
    | loop => cases q <;> simp [Fits, Compute.next]
    | finished => exact absurd rfl hpc
    | readQuit | unlockCounter => simp [Fits, Compute.next]
    | _ =>
      have hfalse : q = false := by simpa using hq
      simp [Fits, Compute.next, hfalse]
  | output =>
    obtain ⟨hawake, hpc, rfl⟩ := Output.eq_next htarget
    obtain ⟨pc, fd, q, tmp, per⟩ := p
    cases pc with
    | info | «open» | lockFailed | setQuit | unlockFailed | lockOpen | setOpen => exact fun _ => h (.inl rfl)
    | testOpen => exact fun _ => h (.inl rfl)
    | loop => cases q <;> simp [Fits, Output.next, OutputPc.opening]
    | asleep => exact absurd rfl hawake
    | finished => exact absurd rfl hpc
    | _ => simp [Fits, Output.next, OutputPc.opening]
  | input => trivial

theorem fits_woken {t : Thread} {p p' : Place t} (_ : Fits t p) (hw : program.woken t p = some p') :
    Fits t p' := by
  cases t with
  | compute | input => cases hw
  | output =>
    simp only [program] at hw
    split at hw
    · cases hw
      simp [Fits, OutputPc.opening]
    · cases hw

theorem fits_start (t : Thread) : Fits t (start.threads.place t) := by
  cases t <;> simp [Fits, start]

/-! ## What each turn makes of a lost signal -/

theorem Output.mustWait_next {env : Env} {l : Output} {d : SharedData} (hquit : d.quit = true)
    (hfits : Fits .output l) (hawake : l.pc ≠ .asleep) (hpc : l.pc ≠ .finished) :
    (l.next env d).mustWait = l.mustWait := by
  obtain ⟨pc, fd, q, tmp, per⟩ := l
  cases pc with
  | testOpen => by_cases hfd : fd = -1 <;> simp [next, mustWait, hfd]
  | unlockOpen =>
    have hq : q = false := hfits (.inr rfl)
    simp [next, mustWait, hq]
  | readQuit => simp [next, mustWait, hquit]
  | loop => cases q <;> simp [next, mustWait]
  | asleep => exact absurd rfl hawake
  | finished => exact absurd rfl hpc
  | _ => simp [next, mustWait]

theorem Compute.signalled_next {l : Compute} {d d' : SharedData} (hfits : Fits .compute l)
    (hpc : l.pc ≠ .finished) (hsignal : l.pc ≠ .signal) :
    (l.next d).Signalled d' ↔ l.Signalled d := by
  obtain ⟨pc, q, per⟩ := l
  obtain ⟨hq, -⟩ := hfits
  cases pc with
  | readQuit =>
    have hfalse : q = false := by simpa using hq
    simp [next, Signalled, hfalse]
  | loop => cases q <;> simp [next, Signalled]
  | signal => exact absurd rfl hsignal
  | finished => exact absurd rfl hpc
  | _ => simp [next, Signalled]

theorem Compute.signalled_at_signal {l : Compute} {d d' : SharedData} (hfits : Fits .compute l)
    (hsignal : l.pc = .signal) (hquit : d'.quit = d.quit) :
    ¬ l.Signalled d ∧ ((l.next d).Signalled d' ↔ d.quit = true) := by
  obtain ⟨pc, q, per⟩ := l
  obtain ⟨hq, -⟩ := hfits
  cases hsignal
  have hfalse : q = false := by simpa using hq
  simp [next, Signalled, hfalse, hquit]

theorem Compute.Signalled.quit {l : Compute} {d : SharedData} {past : List Event}
    (hassert : l.Asserts d past) (h : l.Signalled d) : d.quit = true := by
  rcases h with hq | ⟨-, hquit⟩
  · exact hassert.quit hq
  · exact hquit

theorem compute_wakes {l : Compute} (h : (computeThread l).wakes = true) : l.pc = .signal := by
  obtain ⟨pc, q, per⟩ := l
  cases pc with
  | signal => rfl
  | _ => cases h

theorem input_wakes {env : Env} {l : Input} (h : (inputThread env l).wakes = true) :
    l.pc = .broadcast := by
  obtain ⟨pc, qq, q, inC, per⟩ := l
  cases pc with
  | broadcast => rfl
  | _ => cases h

section Turns
variable {s : State} {past : List Event} {threads : Monitor.State SharedData Thread Place} {env : Env}

/-- A turn of `computeThread` that sends no signal. -/
theorem missed_compute (hfits : Fits .compute s.compute)
    (hturn : Turn program env .compute s.threads threads) (hsignal : s.compute.pc ≠ .signal) :
    Missed { s with threads := threads } ↔ Missed s := by
  have houtput : threads.place .output = s.output := by
    rcases hturn.others .output (by simp) with heq | ⟨hwakes, -⟩
    · exact heq
    · exact absurd (compute_wakes hwakes) hsignal
  obtain ⟨hpc, hnext⟩ := Compute.eq_next hturn.target
  unfold Missed
  simp only [State.compute, State.output, State.data, houtput, hnext]
  rw [Compute.signalled_next hfits hpc hsignal]

/-- `pthread_cond_signal` wakes `outputThread` if that waits, and is lost otherwise. -/
theorem missed_signal {chosen : Thread → Bool} {out : Option Event}
    (hfits : Fits .compute s.compute) (hsignal : s.compute.pc = .signal)
    (hstep : program.step s.threads (.turn .compute env chosen) = .ok (threads, out)) :
    ¬ Missed s ∧ (Missed { s with threads := threads } ↔
      s.data.quit = true ∧ s.output.mustWait = true ∧ s.output.pc ≠ .asleep) := by
  have haction : program.action env .compute s.compute = .signal (s.compute.next s.data) := by
    simp only [program, computeThread, Compute.next, hsignal]
  have hperform : program.perform chosen s.threads .compute
      (.signal (s.compute.next s.data)) = .ok (threads, out) := by
    rw [← haction]
    exact hstep
  have hnext : threads.place .compute = s.compute.next s.data := by
    rcases perform_self hperform with ⟨-, hstop | ⟨-, next, hlock⟩⟩ | htarget
    · cases hstop
    · cases hlock
    · exact (Option.some.inj htarget).symm
  have hdata : threads.data = s.data := by
    rcases perform_data hperform with heq | ⟨-, hstores⟩
    · exact heq
    · exact hstores.elim
  obtain ⟨hnot, hsignalled⟩ :=
    Compute.signalled_at_signal hfits hsignal (congrArg SharedData.quit hdata)
  refine ⟨fun hmissed => hnot hmissed.1, ?_⟩
  unfold Missed
  simp only [State.compute, State.data, hnext]
  rw [hsignalled]
  refine and_congr_right fun _ => ?_
  have hne : Thread.output ≠ .compute := by simp
  by_cases hasleep : s.output.pc = .asleep
  · have hwoken : program.woken .output s.output = some { s.output with pc := .woken } :=
      if_pos hasleep
    have honly : ∀ v, v ≠ .output → program.woken v (s.threads.place v) = none := by
      intro v hv
      cases v with
      | compute | input => rfl
      | output => exact absurd rfl hv
    have hplace : threads.place .output = { s.output with pc := .woken } :=
      signal_wakes hne honly hwoken hperform
    simp only [State.output, hplace, Output.mustWait]
    exact ⟨fun hfalse => absurd hfalse Bool.false_ne_true, fun hawake => absurd hasleep hawake.2⟩
  · have hawake : program.woken .output s.output = none := if_neg hasleep
    have hplace : threads.place .output = s.output := by
      rcases perform_place hperform hne with heq | ⟨-, hw⟩
      · exact heq
      · rw [hawake] at hw
        cases hw
    simp only [State.output, hplace]
    exact (and_iff_left hasleep).symm

/-- A turn of another thread leaves `computeThread` as it is. -/
theorem signalled_other {t : Thread} (h : Inv s past) (ht : t ≠ .compute)
    (hturn : Turn program env t s.threads threads) :
    threads.place .compute = s.compute ∧
      (s.compute.Signalled threads.data ↔ s.compute.Signalled s.data) := by
  refine ⟨(hturn.place_or_woken ht.symm).resolve_right (by simp [program]), ?_⟩
  rcases hturn.data with heq | ⟨hown, -⟩
  · rw [heq]
  · have hnot : s.compute.pc ≠ .readQuit := by
      intro hpc
      have hcompute := (h.threads.owner .compute).mpr (by simp [outline, holds, hpc, ComputePc.critical])
      rw [hown, Option.some.injEq] at hcompute
      exact ht hcompute
    simp [Compute.Signalled, hnot]

theorem missed_output (h : Inv s past) (hfits : Fits .output s.output)
    (hturn : Turn program env .output s.threads threads) :
    Missed { s with threads := threads } ↔ Missed s := by
  obtain ⟨hcompute, hsignalled⟩ := signalled_other (t := .output) h (by simp) hturn
  obtain ⟨hawake, hpc, hnext⟩ := Output.eq_next hturn.target
  have hassert : Compute.Asserts s.compute s.data past := h.threads.asserts .compute
  unfold Missed
  simp only [State.compute, State.output, State.data, hcompute, hnext]
  rw [hsignalled]
  refine and_congr_right fun hsig => ?_
  rw [Output.mustWait_next (hsig.quit hassert) hfits hawake hpc]

/-- `inputThread` broadcasts only while `quit` is not set. -/
theorem missed_input (h : Inv s past) (hturn : Turn program env .input s.threads threads) :
    Missed { s with threads := threads } ↔ Missed s := by
  obtain ⟨hcompute, hsignalled⟩ := signalled_other (t := .input) h (by simp) hturn
  have hassert : Compute.Asserts s.compute s.data past := h.threads.asserts .compute
  unfold Missed
  simp only [State.compute, State.output, State.data, hcompute]
  rw [hsignalled]
  refine and_congr_right fun hsig => ?_
  rcases hturn.others .output (by simp) with heq | ⟨hwakes, -⟩
  · rw [heq]
  · have hbroadcast := input_wakes hwakes
    have hinput : Input.Asserts s.input s.data := h.threads.asserts .input
    unfold Input.Asserts at hinput
    rw [hbroadcast] at hinput
    obtain ⟨-, hknows, hq⟩ := hinput
    have hquit := hsig.quit hassert
    rw [hknows.1, hq] at hquit
    cases hquit

end Turns

/-- The one step at which the last signal gets lost. -/
theorem missed_step {s s' : State} {past : List Event} {move : Move} {out : Option Event}
    (h : Inv s past) (hfits : ∀ t, Fits t (s.threads.place t)) (hspurious : move.spurious = false)
    (hstep : step s move = .ok (s', out)) : Missed s' ↔ Missed s ∨ MissesSignal s move := by
  have hother : (∀ env chosen, move ≠ .thread (.turn .compute env chosen)) ∨
      s.compute.pc ≠ .signal → (Missed s' ↔ Missed s) → (Missed s' ↔ Missed s ∨ MissesSignal s move) := by
    intro hnot hsame
    rw [hsame]
    refine (or_iff_left ?_).symm
    intro hmisses
    obtain ⟨env, chosen, hmove⟩ := hmisses.turn
    rcases hnot with hturn | hpc
    · exact hturn env chosen hmove
    · exact hpc hmisses.signal
  cases move with
  | main =>
    refine hother (.inl (by simp)) ?_
    have hthreads : s'.threads = s.threads := by
      simp only [step, mainStep] at hstep
      split at hstep
      · cases hstep
        split <;> rfl
      · split at hstep <;> cases hstep
        rfl
      · cases hstep
        rfl
    unfold Missed
    simp only [State.compute, State.output, State.data, hthreads]
  | thread m =>
    cases m with
    | wake t => cases hspurious
    | turn t env chosen =>
      obtain ⟨⟨threads, out'⟩, hthread, hpure⟩ := bind_ok_iff.mp hstep
      cases hpure
      cases t with
      | compute =>
        by_cases hsignal : s.compute.pc = .signal
        · obtain ⟨hnot, hiff⟩ := missed_signal (hfits .compute) hsignal hthread
          rw [hiff]
          constructor
          · intro hcase
            obtain ⟨hquit, hbusy, hawake⟩ := hcase
            exact .inr ⟨⟨env, chosen, rfl⟩, hsignal, hquit, hbusy, hawake⟩
          · intro hcase
            rcases hcase with hmissed | hmisses
            · exact absurd hmissed hnot
            · exact ⟨hmisses.quit, hmisses.busy, hmisses.awake⟩
        · refine hother (.inr hsignal) ?_
          rcases turn_cases hthread with rfl | hturn
          · exact Iff.rfl
          · exact missed_compute (hfits .compute) hturn hsignal
      | output =>
        refine hother (.inl (by simp)) ?_
        rcases turn_cases hthread with rfl | hturn
        · exact Iff.rfl
        · exact missed_output h (hfits .output) hturn
      | input =>
        refine hother (.inl (by simp)) ?_
        rcases turn_cases hthread with rfl | hturn
        · exact Iff.rfl
        · exact missed_input h hturn

/-- Places and locals agree in every state. -/
theorem fits_step {s s' : State} {move : Move} {out : Option Event}
    (hfits : ∀ t, Fits t (s.threads.place t)) (hstep : step s move = .ok (s', out)) (t : Thread) :
    Fits t (s'.threads.place t) := by
  cases move with
  | main =>
    simp only [step, mainStep] at hstep
    split at hstep
    · cases hstep
      split <;> exact hfits t
    · split at hstep <;> cases hstep
      exact hfits t
    · cases hstep
      exact hfits t
  | thread m =>
    obtain ⟨⟨threads, out'⟩, hthread, hpure⟩ := bind_ok_iff.mp hstep
    cases hpure
    exact step_places (fun env t p d next => fits_target) (fun t p p' => fits_woken) hfits hthread t

theorem hung_iff_missed {s : State} {past : List Event} (h : Inv s past)
    (hfits : ∀ t, Fits t (s.threads.place t)) (hrest : AtRest s) : Hung s ↔ Missed s := by
  constructor
  · intro hhung
    refine ⟨.inl ((hfits .compute).2 hhung.compute), ?_⟩
    simp only [Output.mustWait, hhung.output]
  · intro hmissed
    rcases h.at_rest_iff.mp hrest with hreturned | hhung
    · have hmain := h.main
      unfold MainAt at hmain
      rw [hreturned] at hmain
      have hwait := hmissed.2
      have hpc : s.output.pc = .finished := hmain.1 .output
      simp only [Output.mustWait, hpc] at hwait
      cases hwait
    · exact hhung

/-- Without spurious wake-ups the program hangs exactly if the signal that follows `quit`
comes while `outputThread` has yet to wait. -/
theorem hangs_iff {moves : List Move} {s : State} {outs : List (Option Event)}
    (hspurious : ∀ move ∈ moves, move.spurious = false)
    (hrun : run step start moves = .ok (s, outs)) (hrest : AtRest s) :
    Hung s ↔ ∃ pre move post s₁ outs₁, moves = pre ++ move :: post ∧
      run step start pre = .ok (s₁, outs₁) ∧ MissesSignal s₁ move := by
  have hfits : ∀ t, Fits t (s.threads.place t) :=
    (run_keeps (I := fun s => ∀ t, Fits t (s.threads.place t)) (R := fun _ => True)
      (fun _ _ _ _ h hstep => ⟨fits_step h hstep, trivial⟩) fits_start hrun).1
  rw [hung_iff_missed (inv_run hrun) hfits hrest]
  have hmarked := run_marked (P := Missed) (Q := MissesSignal)
    (fun past s => Inv s past ∧ ∀ t, Fits t (s.threads.place t))
    (fun _ _ _ _ _ h hstep => ⟨h.1.step hstep, fits_step h.2 hstep⟩) ⟨inv_start, fits_start⟩
    (fun _ _ move _ _ hmem h hstep => missed_step h.1 h.2 (hspurious move hmem) hstep) hrun
  rw [hmarked]
  refine or_iff_right ?_
  intro hmissed
  rcases hmissed.1 with hq | ⟨hpc, -⟩
  · cases hq
  · cases hpc

/-- `computeThread` makes its last round while `outputThread` has not yet come to its wait. -/
def lostSignal : List Move :=
  turns .output 6 ++ List.replicate 19 (.thread (.turn .input ⟨3, 'q'.toNat⟩ fun _ => true)) ++
    turns .compute 11 ++ turns .output 3 ++ [.main]

theorem hangs_iff_lost : ∃ s outs, run step start lostSignal = .ok (s, outs) ∧ Hung s ∧
    ∃ pre move post s₁ outs₁, lostSignal = pre ++ move :: post ∧
      run step start pre = .ok (s₁, outs₁) ∧ MissesSignal s₁ move := by
  have hplaces : (run step start lostSignal).map (fun r =>
      (r.1.compute.pc, r.1.output.pc, r.1.input.pc, r.1.main)) =
      .ok (.finished, .asleep, .finished, .joining [.output, .input]) := rfl
  cases hrun : run step start lostSignal with
  | error fault =>
    rw [hrun] at hplaces
    cases hplaces
  | ok r =>
    rw [hrun] at hplaces
    have hpairs := Except.ok.inj hplaces
    simp only [Prod.mk.injEq] at hpairs
    obtain ⟨hcompute, houtput, hinput, hmain⟩ := hpairs
    have hhung : Hung r.1 := ⟨hcompute, houtput, hinput, hmain⟩
    exact ⟨r.1, r.2, rfl, hhung, (hangs_iff (by decide) hrun hhung.at_rest).mp hhung⟩

end Prgsem.Threads
