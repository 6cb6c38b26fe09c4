import Prgsem.Threads.Safety

/-!
# How the three threads end

Once `quit` is set, every step that changes something brings a thread nearer to its
end, so that the program comes to rest whatever the schedule is. It rests with all
threads joined, or with `outputThread` asleep for ever: `computeThread` signals for
the last time and leaves, and a signal is lost on a thread that does not wait yet.
-/

namespace Prgsem.Threads

open CMemory Monitor Run
set_option autoImplicit false

/-! ## Where a turn leads -/

def Compute.next (l : Compute) (d : SharedData) : Compute :=
  match l.pc with
  | .loop => { l with pc := if l.q then .finished else .lockPeriod }
  | .lockPeriod => { l with pc := .readPeriod }
  | .readPeriod => { l with pc := .unlockPeriod, per := d.period }
  | .unlockPeriod => { l with pc := .sleep }
  | .sleep => { l with pc := .lockCounter }
  | .lockCounter => { l with pc := .count }
  | .count => { l with pc := .signal }
  | .signal => { l with pc := .readQuit }
  | .readQuit => { l with pc := .unlockCounter, q := d.quit }
  | .unlockCounter => { l with pc := .loop }
  | .finished => l

theorem Compute.eq_next {l l' : Compute} {d : SharedData}
    (h : (computeThread l).target d = some l') : l.pc ≠ .finished ∧ l' = l.next d := by
  obtain ⟨pc, q, per⟩ := l
  cases pc with
  | loop => cases q <;> cases h <;> exact ⟨by simp, rfl⟩
  | sleep =>
    simp only [computeThread, Action.target] at h
    split at h
    · cases h
    · rename_i next out hr
      obtain ⟨useconds, -, hpure⟩ := bind_ok_iff.mp hr
      cases hpure
      cases h
      exact ⟨by simp, rfl⟩
  | count =>
    simp only [computeThread, Action.target] at h
    split at h
    · cases h
    · rename_i data next hf
      obtain ⟨counter, -, hpure⟩ := bind_ok_iff.mp hf
      cases hpure
      cases h
      exact ⟨by simp, rfl⟩
  | lockPeriod | readPeriod | unlockPeriod | lockCounter | signal | readQuit | unlockCounter =>
    cases h
    exact ⟨by simp, rfl⟩
  | finished => cases h

def Output.next (env : Env) (l : Output) (d : SharedData) : Output :=
  match l.pc with
  | .info => { l with pc := .open }
  | .open => { l with pc := .testOpen, fd := env.serialOpen }
  | .testOpen => { l with pc := if l.fd = -1 then .lockFailed else .lockOpen }
  | .lockFailed => { l with pc := .setQuit }
  | .setQuit => { l with pc := .unlockFailed }
  | .unlockFailed => { l with pc := .lockOpen }
  | .lockOpen => { l with pc := .setOpen }
  | .setOpen => { l with pc := .unlockOpen }
  | .unlockOpen => { l with pc := .loop }
  | .loop => { l with pc := if l.q then .close else .lockWait }
  | .lockWait => { l with pc := .wait }
  | .wait => { l with pc := .asleep }
  | .woken => { l with pc := .readCounter }
  | .readCounter => { l with pc := .readPeriod, tmp := d.counter }
  | .readPeriod => { l with pc := .readQuit, per := d.period }
  | .readQuit => { l with pc := .unlockWait, q := d.quit }
  | .unlockWait => { l with pc := .print }
  | .print => { l with pc := .loop }
  | .close => { l with pc := .leave }
  | .leave => { l with pc := .finished }
  | .asleep | .finished => l

theorem Output.eq_next {env : Env} {l l' : Output} {d : SharedData}
    (h : (outputThread env l).target d = some l') :
    l.pc ≠ .asleep ∧ l.pc ≠ .finished ∧ l' = l.next env d := by
  obtain ⟨pc, fd, q, tmp, per⟩ := l
  cases pc with
  | testOpen =>
    by_cases hfd : fd = -1
    · simp only [outputThread, Action.target, if_pos hfd] at h
      cases h
      simp [next, hfd]
    · simp only [outputThread, Action.target, if_neg hfd] at h
      cases h
      simp [next, hfd]
  | asleep | finished => cases h
  | info | «open» | lockFailed | setQuit | unlockFailed | lockOpen | setOpen | unlockOpen | loop
  | lockWait | wait | woken | readCounter | readPeriod | readQuit | unlockWait | print | close
  | leave =>
    cases h
    exact ⟨by simp, by simp, rfl⟩

def Input.next (env : Env) (l : Input) (d : SharedData) : Input :=
  match l.pc with
  | .spin => { l with pc := if !l.qq && !l.q then .lockOpen else .loop }
  | .lockOpen => { l with pc := .readOpen }
  | .readOpen => { l with pc := .readOpenQuit, qq := d.is_serial_open }
  | .readOpenQuit => { l with pc := .unlockOpen, q := d.quit }
  | .unlockOpen => { l with pc := .spin }
  | .loop => { l with pc := if l.q then .finished else .getchar }
  | .getchar => { l with pc := .testQuit, inC := UInt8.ofInt env.getchar }
  | .testQuit => { l with pc := if l.inC = 'q'.toUInt8 then .lockQuit else .lockPeriod }
  | .lockQuit => { l with pc := .setQuit }
  | .setQuit => { l with pc := .readQuit }
  | .readQuit => { l with pc := .unlockQuit, q := d.quit }
  | .unlockQuit => { l with pc := .lockPeriod }
  | .lockPeriod => { l with pc := .readPeriod }
  | .readPeriod => { l with pc := .switch, per := d.period }
  | .switch =>
    { l with
      pc := if l.inC = 'p'.toUInt8 then .limitHigh
        else if l.inC = 'm'.toUInt8 then .limitLow else .compare }
  | .limitHigh | .limitLow => { l with pc := .compare }
  | .compare => { l with pc := if l.per ≠ d.period then .broadcast else .unlockPeriod }
  | .broadcast => { l with pc := .unlockPeriod }
  | .unlockPeriod => { l with pc := .loop }
  | .finished => l

theorem Input.eq_next {env : Env} {l l' : Input} {d : SharedData}
    (h : (inputThread env l).target d = some l') : l.pc ≠ .finished ∧ l' = l.next env d := by
  obtain ⟨pc, qq, q, inC, per⟩ := l
  cases pc with
  | loop => cases q <;> cases h <;> exact ⟨by simp, rfl⟩
  | «switch» =>
    simp only [inputThread, Action.target] at h
    split at h
    · cases h
    · rename_i data next hf
      cases h
      refine ⟨by simp, ?_⟩
      split at hf
      · rename_i hp
        obtain ⟨period, -, hpure⟩ := bind_ok_iff.mp hf
        cases hpure
        simp only [Input.next, if_pos hp]
      · rename_i hp
        split at hf
        · rename_i hm
          obtain ⟨period, -, hpure⟩ := bind_ok_iff.mp hf
          cases hpure
          simp only [Input.next, if_neg hp, if_pos hm]
        · rename_i hm
          cases hf
          simp only [Input.next, if_neg hp, if_neg hm]
  | spin | lockOpen | readOpen | readOpenQuit | unlockOpen | getchar | testQuit | lockQuit | setQuit
  | readQuit | unlockQuit | lockPeriod | readPeriod | limitHigh | limitLow | compare | broadcast
  | unlockPeriod =>
    cases h
    exact ⟨by simp, rfl⟩
  | finished => cases h

theorem Compute.pc_next {l : Compute} (d : SharedData) (h : l.pc ≠ .finished) :
    (l.next d).pc ≠ l.pc := by
  obtain ⟨pc, q, per⟩ := l
  cases pc with
  | loop => cases q <;> simp [next]
  | finished => exact absurd rfl h
  | _ => simp [next]

theorem Output.pc_next {env : Env} {l : Output} (d : SharedData) (hawake : l.pc ≠ .asleep)
    (h : l.pc ≠ .finished) : (l.next env d).pc ≠ l.pc := by
  obtain ⟨pc, fd, q, tmp, per⟩ := l
  cases pc with
  | testOpen =>
    simp only [next]
    split <;> simp
  | loop => cases q <;> simp [next]
  | asleep => exact absurd rfl hawake
  | finished => exact absurd rfl h
  | _ => simp [next]

theorem Input.pc_next {env : Env} {l : Input} (d : SharedData) (h : l.pc ≠ .finished) :
    (l.next env d).pc ≠ l.pc := by
  obtain ⟨pc, qq, q, inC, per⟩ := l
  cases pc with
  | spin => cases qq <;> cases q <;> simp [next]
  | loop => cases q <;> simp [next]
  | testQuit | compare =>
    simp only [next]
    split <;> simp
  | «switch» =>
    simp only [next]
    split
    · simp
    · split <;> simp
  | finished => exact absurd rfl h
  | _ => simp [next]

/-! ## What is left to do once `quit` is set -/

def Compute.rank (l : Compute) : Nat :=
  match l.pc with
  | .finished => 0
  | .loop => if l.q then 1 else 11
  | .unlockCounter => if l.q then 2 else 12
  | .readQuit => 3
  | .signal => 4
  | .count => 5
  | .lockCounter => 6
  | .sleep => 7
  | .unlockPeriod => 8
  | .readPeriod => 9
  | .lockPeriod => 10

def Output.rank (l : Output) : Nat :=
  match l.pc with
  | .finished => 0
  | .leave => 1
  | .close => 2
  | .loop => if l.q then 3 else 13
  | .print => if l.q then 4 else 14
  | .unlockWait => if l.q then 5 else 15
  | .readQuit => 6
  | .readPeriod => 7
  | .readCounter => 8
  | .woken => 9
  | .asleep => 10
  | .wait => 11
  | .lockWait => 12
  | .unlockOpen => 14
  | .setOpen => 15
  | .lockOpen => 16
  | .unlockFailed => 17
  | .setQuit => 18
  | .lockFailed => 19
  | .testOpen => 20
  | .open => 21
  | .info => 22

def Input.rank (l : Input) : Nat :=
  match l.pc with
  | .finished => 0
  | .loop => if l.q then 1 else 15
  | .unlockPeriod => 2
  | .broadcast => 3
  | .compare => 4
  | .limitHigh | .limitLow => 5
  | .switch => 6
  | .readPeriod => 7
  | .lockPeriod => 8
  | .unlockQuit => 9
  | .readQuit => 10
  | .setQuit => 11
  | .lockQuit => 12
  | .testQuit => 13
  | .getchar => 14
  | .spin => if l.qq || l.q then 16 else 21
  | .unlockOpen => if l.qq || l.q then 17 else 22
  | .readOpenQuit => 18
  | .readOpen => 19
  | .lockOpen => 20

def placeRank : (t : Thread) → Place t → Nat
  | .compute, l => Compute.rank l
  | .output, l => Output.rank l
  | .input, l => Input.rank l

def Main.rank : Main → Nat
  | .joining left => left.length + 1
  | .returned => 0

def State.rank (s : State) : Nat := total placeRank s.threads + s.main.rank

theorem Compute.rank_next {l : Compute} {d : SharedData} (hquit : d.quit = true)
    (h : l.pc ≠ .finished) : (l.next d).rank < l.rank := by
  obtain ⟨pc, q, per⟩ := l
  cases pc with
  | loop | unlockCounter => cases q <;> simp [next, rank]
  | readQuit => simp [next, rank, hquit]
  | finished => exact absurd rfl h
  | _ => simp [next, rank]

theorem Output.rank_next {env : Env} {l : Output} {d : SharedData} (hquit : d.quit = true)
    (hawake : l.pc ≠ .asleep) (h : l.pc ≠ .finished) : (l.next env d).rank < l.rank := by
  obtain ⟨pc, fd, q, tmp, per⟩ := l
  cases pc with
  | testOpen => by_cases hfd : fd = -1 <;> simp [next, rank, hfd]
  | loop | unlockOpen | unlockWait | print => cases q <;> simp [next, rank]
  | readQuit => simp [next, rank, hquit]
  | asleep => exact absurd rfl hawake
  | finished => exact absurd rfl h
  | _ => simp [next, rank]

theorem Input.rank_next {env : Env} {l : Input} {d : SharedData} (hquit : d.quit = true)
    (hassert : l.Asserts d) (h : l.pc ≠ .finished) : (l.next env d).rank < l.rank := by
  obtain ⟨pc, qq, q, inC, per⟩ := l
  cases pc with
  | spin | loop | unlockOpen => cases qq <;> cases q <;> simp [next, rank]
  | readOpenQuit => simp [next, rank, hquit]
  | testQuit => by_cases hinC : inC = 'q'.toUInt8 <;> simp [next, rank, hinC]
  | compare => by_cases hsame : per = d.period <;> simp [next, rank, hsame]
  | «switch» =>
    by_cases hp : inC = 'p'.toUInt8
    · simp [next, rank, hp]
    · by_cases hm : inC = 'm'.toUInt8
      · simp only [next, rank, if_neg hp, if_pos hm]
        omega
      · simp [next, rank, hp, hm]
  | unlockPeriod =>
    obtain ⟨-, hknows, -⟩ := hassert
    have hq : q = true := hknows.symm.trans hquit
    simp [next, rank, hq]
  | finished => exact absurd rfl h
  | _ => simp [next, rank]

theorem quit_of_guarantee {t : Thread} {d d' : SharedData} {past past' : List Event}
    (h : guarantee t d past d' past') (hquit : d.quit = true) : d'.quit = true := by
  cases t with
  | compute =>
    rw [h.1]
    exact hquit
  | output => exact h.2.1 hquit
  | input => exact h.2.1 hquit

theorem Inv.quit {s s' : State} {past : List Event} {move : Move} {out : Option Event}
    (h : Inv s past) (hstep : Threads.step s move = .ok (s', out)) (hquit : s.data.quit = true) :
    s'.data.quit = true := by
  cases move with
  | thread m =>
    obtain ⟨⟨threads, out'⟩, hthread, hpure⟩ := bind_ok_iff.mp hstep
    cases hpure
    rcases h.threads.step_data outline_valid hthread with heq | ⟨t, past', hguar⟩
    · exact (congrArg SharedData.quit heq).trans hquit
    · exact quit_of_guarantee hguar hquit
  | main =>
    simp only [Threads.step, mainStep] at hstep
    split at hstep
    · cases hstep
      split <;> exact hquit
    · split at hstep <;> cases hstep
      exact hquit
    · cases hstep
      exact hquit

theorem Inv.step_rank {s s' : State} {past : List Event} {move : Move} {out : Option Event}
    (h : Inv s past) (hquit : s.data.quit = true) (hstep : Threads.step s move = .ok (s', out)) :
    s' = s ∨ s'.rank < s.rank := by
  cases move with
  | thread m =>
    obtain ⟨⟨threads, out'⟩, hthread, hpure⟩ := bind_ok_iff.mp hstep
    cases hpure
    have hwoken : ∀ t p p', program.woken t p = some p' → placeRank t p' < placeRank t p := by
      intro t p p' hw
      cases t with
      | compute | input => cases hw
      | output =>
        obtain ⟨pc, fd, q, tmp, per⟩ := p
        simp only [program] at hw
        split at hw
        · rename_i hpc
          cases hpc
          cases hw
          simp [placeRank, Output.rank]
        · cases hw
    have htarget : ∀ env t next,
        (program.action env t (s.threads.place t)).target s.threads.data = some next →
          placeRank t next < placeRank t (s.threads.place t) := by
      intro env t next hnext
      cases t with
      | compute =>
        obtain ⟨hpc, rfl⟩ := Compute.eq_next hnext
        exact Compute.rank_next hquit hpc
      | output =>
        obtain ⟨hawake, hpc, rfl⟩ := Output.eq_next hnext
        exact Output.rank_next hquit hawake hpc
      | input =>
        obtain ⟨hpc, rfl⟩ := Input.eq_next hnext
        exact Input.rank_next hquit (h.threads.asserts .input) hpc
    rcases step_total hwoken htarget hthread with heq | hlt
    · exact .inl (by rw [heq])
    · exact .inr (Nat.add_lt_add_right hlt _)
  | main =>
    simp only [Threads.step, mainStep] at hstep
    split at hstep
    · rename_i t left hjoining
      cases hstep
      split
      · refine .inr (Nat.add_lt_add_left ?_ _)
        simp [hjoining, Main.rank]
      · exact .inl rfl
    · rename_i hjoining
      split at hstep
      · cases hstep
        refine .inr (Nat.add_lt_add_left ?_ _)
        simp [hjoining, Main.rank]
      · cases hstep
    · cases hstep
      exact .inl rfl

theorem Inv.rank_le {s : State} {past : List Event} (h : Inv s past) : s.rank ≤ 60 := by
  have htotal : total placeRank s.threads =
      s.compute.rank + (s.output.rank + (s.input.rank + 0)) := rfl
  have hcompute : s.compute.rank ≤ 12 := by
    unfold Compute.rank
    split <;> (try split) <;> omega
  have houtput : s.output.rank ≤ 22 := by
    unfold Output.rank
    split <;> (try split) <;> omega
  have hinput : s.input.rank ≤ 22 := by
    unfold Input.rank
    split <;> (try split) <;> omega
  have hmain : s.main.rank ≤ 4 := by
    have hat := h.main
    unfold MainAt at hat
    cases hm : s.main with
    | joining left =>
      simp only [hm] at hat
      exact Nat.succ_le_succ hat.1.length_le
    | returned => exact Nat.zero_le 4
  unfold State.rank
  omega

/-! ## Where the program rests -/

/-- A wake-up that no `pthread_cond_signal` or `pthread_cond_broadcast` asks for. -/
def Move.spurious : Move → Bool
  | .thread (.wake _) => true
  | _ => false

def AtRest (s : State) : Prop :=
  ∀ move, move.spurious = false → ∃ out, step s move = .ok (s, out)

/-- `main` waits for `outputThread`, which waits for a signal of a thread that is gone. -/
structure Hung (s : State) : Prop where
  compute : s.compute.pc = .finished
  output : s.output.pc = .asleep
  input : s.input.pc = .finished
  main : s.main = .joining [.output, .input]

/-- A turn that changes something moves its thread on. -/
theorem target_ne {env : Env} {t : Thread} {p p' : Place t} {d : SharedData}
    (h : (program.action env t p).target d = some p') : p' ≠ p := by
  cases t with
  | compute =>
    obtain ⟨hpc, rfl⟩ := Compute.eq_next h
    exact fun heq => Compute.pc_next d hpc (congrArg Compute.pc heq)
  | output =>
    obtain ⟨hawake, hpc, rfl⟩ := Output.eq_next h
    exact fun heq => Output.pc_next d hawake hpc (congrArg Output.pc heq)
  | input =>
    obtain ⟨hpc, rfl⟩ := Input.eq_next h
    exact fun heq => Input.pc_next d hpc (congrArg Input.pc heq)

theorem compute_stop {l : Compute} (h : computeThread l = .stop) : l.pc = .finished := by
  obtain ⟨pc, q, per⟩ := l
  cases pc with
  | finished => rfl
  | _ => cases h

theorem output_stop {env : Env} {l : Output} (h : outputThread env l = .stop) :
    l.pc = .asleep ∨ l.pc = .finished := by
  obtain ⟨pc, fd, q, tmp, per⟩ := l
  cases pc with
  | asleep => exact .inl rfl
  | finished => exact .inr rfl
  | _ => cases h

theorem input_stop {env : Env} {l : Input} (h : inputThread env l = .stop) : l.pc = .finished := by
  obtain ⟨pc, qq, q, inC, per⟩ := l
  cases pc with
  | finished => rfl
  | _ => cases h

theorem holds_of_stop {env : Env} {t : Thread} {p : Place t} (h : program.action env t p = .stop) :
    holds t p = false := by
  cases t with
  | compute => simp only [holds, compute_stop h, ComputePc.critical]
  | output =>
    rcases output_stop h with hpc | hpc
    · simp only [holds, hpc, OutputPc.critical]
    · simp only [holds, hpc, OutputPc.critical]
  | input => simp only [holds, input_stop h, InputPc.critical]

/-- A thread that sleeps or has returned leaves everything as it is. -/
theorem turn_rests {s : State} {t : Thread} (env : Env) (chosen : Thread → Bool)
    (h : (program.woken t (s.threads.place t)).isSome = true ∨ s.Stopped t) :
    step s (.thread (.turn t env chosen)) = .ok (s, none) := by
  simp only [step, Program.step]
  rcases h with hsleeps | hstopped
  · obtain ⟨p, hp⟩ := Option.isSome_iff_exists.mp hsleeps
    simp only [hp, ok_bind]
    rfl
  · obtain ⟨hawake, hstop⟩ := stopped_action hstopped
    simp only [hawake, hstop, Program.perform, ok_bind]
    rfl

theorem at_rest_of_returned {s : State} {past : List Event} (h : Inv s past)
    (hreturned : s.main = .returned) : AtRest s := by
  have hmain := h.main
  unfold MainAt at hmain
  rw [hreturned] at hmain
  intro move hmove
  cases move with
  | main => exact ⟨none, by simp only [step, mainStep, hreturned]⟩
  | thread m =>
    cases m with
    | turn t env chosen => exact ⟨none, turn_rests env chosen (.inr (hmain.1 t))⟩
    | wake t => cases hmove

theorem Hung.at_rest {s : State} (h : Hung s) : AtRest s := by
  intro move hmove
  cases move with
  | main =>
    have hnot : ¬ s.Stopped .output := fun hstopped => by
      have hpc := h.output.symm.trans hstopped
      cases hpc
    exact ⟨none, by simp only [step, mainStep, h.main, if_neg hnot]⟩
  | thread m =>
    cases m with
    | turn t env chosen =>
      cases t with
      | compute => exact ⟨none, turn_rests env chosen (.inr h.compute)⟩
      | output =>
        refine ⟨none, turn_rests env chosen (.inl ?_)⟩
        simp only [program, if_pos h.output, Option.isSome_some]
      | input => exact ⟨none, turn_rests env chosen (.inr h.input)⟩
    | wake t => cases hmove

theorem Inv.threads_at_rest {s : State} {past : List Event} (h : Inv s past) (hrest : AtRest s) :
    s.compute.pc = .finished ∧ (s.output.pc = .asleep ∨ s.output.pc = .finished) ∧
      s.input.pc = .finished := by
  have hturns : ∀ t env chosen, ∃ out,
      program.step s.threads (.turn t env chosen) = .ok (s.threads, out) := by
    intro t env chosen
    obtain ⟨out, hstep⟩ := hrest (.thread (.turn t env chosen)) rfl
    obtain ⟨⟨threads, out'⟩, hthread, hpure⟩ := bind_ok_iff.mp hstep
    have heq : threads = s.threads := congrArg State.threads (Prod.mk.inj (Except.ok.inj hpure)).1
    exact ⟨out', heq ▸ hthread⟩
  obtain ⟨-, hstop⟩ := h.threads.at_rest ⟨0, 0⟩ outline_valid
    (fun env t htarget => target_ne htarget rfl) (fun env t => holds_of_stop) hturns
  refine ⟨compute_stop (hstop .compute rfl ⟨0, 0⟩), ?_, input_stop (hstop .input rfl ⟨0, 0⟩)⟩
  by_cases hasleep : s.output.pc = .asleep
  · exact .inl hasleep
  · exact output_stop (hstop .output (if_neg hasleep) ⟨0, 0⟩)

theorem suffix_output {left : List Thread} (h : .output :: left <:+ [.compute, .output, .input]) :
    left = [.input] := by
  simp only [List.suffix_cons_iff, List.cons.injEq, reduceCtorEq, false_and, false_or] at h
  simpa using h

theorem Inv.at_rest_iff {s : State} {past : List Event} (h : Inv s past) :
    AtRest s ↔ s.main = .returned ∨ Hung s := by
  constructor
  · intro hrest
    obtain ⟨hcompute, houtput, hinput⟩ := h.threads_at_rest hrest
    obtain ⟨out, hstep⟩ := hrest .main rfl
    have hat := h.main
    unfold MainAt at hat
    simp only [Threads.step, mainStep] at hstep
    cases hmain : s.main with
    | returned => exact .inl rfl
    | joining left =>
      simp only [hmain] at hstep hat
      obtain ⟨hsuffix, hleft, -⟩ := hat
      cases left with
      | nil =>
        have hall : ∀ t, s.Stopped t := fun t => (hleft t).resolve_left List.not_mem_nil
        rw [if_pos hall] at hstep
        have hnot := congrArg State.main (Prod.mk.inj (Except.ok.inj hstep)).1
        rw [hmain] at hnot
        cases hnot
      | cons t left =>
        have ht : ¬ s.Stopped t := by
          intro ht
          simp only [if_pos ht] at hstep
          have hnot := congrArg State.main (Prod.mk.inj (Except.ok.inj hstep)).1
          rw [hmain] at hnot
          simp at hnot
        cases t with
        | compute => exact absurd hcompute ht
        | input => exact absurd hinput ht
        | output =>
          rcases houtput with hasleep | hfinished
          · rw [suffix_output hsuffix] at hmain
            exact .inr ⟨hcompute, hasleep, hinput, hmain⟩
          · exact absurd hfinished ht
  · intro hcases
    rcases hcases with hreturned | hhung
    · exact at_rest_of_returned h hreturned
    · exact hhung.at_rest

/-- Where the program rests, and that it does so soon once `quit` is set: sixty steps
that change something are the most that any schedule can still make. -/
theorem comes_to_rest {moves : List Move} {s : State} {outs : List (Option Event)}
    (hrun : run step start moves = .ok (s, outs)) :
    (AtRest s ↔ s.main = .returned ∨ Hung s) ∧
      (s.data.quit = true → ∀ more n t, Changes step s more n t → n ≤ 60) := by
  have hinv := inv_run hrun
  refine ⟨hinv.at_rest_iff, ?_⟩
  intro hquit more n t hchanges
  have hle := hchanges.le (fun s => (∃ past, Inv s past) ∧ s.data.quit = true) State.rank
    (fun s move s' out h hstep => by
      obtain ⟨⟨past, hI⟩, hq⟩ := h
      exact ⟨⟨_, hI.step hstep⟩, hI.quit hstep hq⟩)
    (fun s move s' out h hstep => by
      obtain ⟨⟨past, hI⟩, hq⟩ := h
      exact hI.step_rank hq hstep) ⟨⟨_, hinv⟩, hquit⟩
  have hrank := hinv.rank_le
  omega

/-- `outputThread` waits, `q` is typed, and the next signal wakes it. -/
def ending : List Move :=
  turns .output 9 ++ List.replicate 19 (.thread (.turn .input ⟨3, 'q'.toNat⟩ fun _ => true)) ++
    turns .compute 11 ++ turns .output 9 ++ List.replicate 4 .main

theorem comes_to_rest_ending : ∃ s outs, run step start ending = .ok (s, outs) ∧
    finals (shown outs) = [1] ∧ AtRest s ∧ ∀ more n t, Changes step s more n t → n ≤ 60 := by
  have hends : (run step start ending).map (fun r =>
      (r.1.main, r.1.data.quit, finals (shown r.2))) = .ok (.returned, true, [1]) := rfl
  cases hrun : run step start ending with
  | error fault =>
    rw [hrun] at hends
    cases hends
  | ok r =>
    rw [hrun] at hends
    have hpairs := Except.ok.inj hends
    simp only [Prod.mk.injEq] at hpairs
    obtain ⟨hmain, hquit, hfinals⟩ := hpairs
    obtain ⟨hrest, hbound⟩ := comes_to_rest hrun
    exact ⟨r.1, r.2, rfl, hfinals, hrest.mpr (.inl hmain), hbound hquit⟩

end Prgsem.Threads
