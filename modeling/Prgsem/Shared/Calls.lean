import Prgsem.Shared.Monitor

/-!
# Calls of a shared object

A thread calls an operation of an object, attempts it at certain moments, again and
again while it has to wait, and returns with what its last attempt gave. The attempts
of all threads, in their order, are to be a run of the object: then the calls take
effect one at a time, each between its call and its return.
-/

namespace Prgsem.Calls

open Monitor Run
set_option autoImplicit false

inductive Label (ι ω : Type) where
  | called (op : ι)
  | attempted (op : ι) (out : ω)
  | returned (op : ι) (out : ω)
  deriving DecidableEq, Repr

/-- Between two calls, in a call, and behind the attempt that ended its waiting. -/
inductive Status (ι ω : Type) where
  | idle
  | calling (op : ι)
  | answered (op : ι) (out : ω)
  deriving DecidableEq, Repr

variable {ε E σ D T Place ι ω : Type}

def Label.attempt : Label ι ω → Option (ι × ω)
  | .attempted op out => some (op, out)
  | .called _ | .returned _ _ => none

/-- The attempts of all threads. -/
def attempts (past : List (T × Label ι ω)) : List (ι × ω) := past.filterMap fun e => e.2.attempt

/-- The part of the thread `t`. -/
def part [DecidableEq T] (t : T) (past : List (T × Label ι ω)) : List (Label ι ω) :=
  (past.filter fun e => e.1 = t).map Prod.snd

inductive Status.Step (waits : ω → Prop) : Status ι ω → Label ι ω → Status ι ω → Prop where
  | call (op : ι) : Step waits .idle (.called op) (.calling op)
  | wait {op : ι} {out : ω} (h : waits out) :
      Step waits (.calling op) (.attempted op out) (.calling op)
  | answer {op : ι} {out : ω} (h : ¬ waits out) :
      Step waits (.calling op) (.attempted op out) (.answered op out)
  | return {op : ι} {out : ω} : Step waits (.answered op out) (.returned op out) .idle

/-- One call after the other. -/
inductive History (waits : ω → Prop) : List (Label ι ω) → Status ι ω → Prop where
  | nil : History waits [] .idle
  | snoc {past : List (Label ι ω)} {label : Label ι ω} {status status' : Status ι ω}
      (h : History waits past status) (hstep : Status.Step waits status label status') :
      History waits (past ++ [label]) status'

/-- The attempts are a run of the object that ends in `q`. -/
def Follows (step : σ → ι → Except ε (σ × ω)) (init : σ) (log : List (ι × ω)) (q : σ) : Prop :=
  run step init (log.map Prod.fst) = .ok (q, log.map Prod.snd)

theorem follows_nil (step : σ → ι → Except ε (σ × ω)) (init : σ) : Follows step init [] init := rfl

theorem Follows.snoc {step : σ → ι → Except ε (σ × ω)} {init q q' : σ} {log : List (ι × ω)}
    {op : ι} {out : ω} (h : Follows step init log q) (hstep : step q op = .ok (q', out)) :
    Follows step init (log ++ [(op, out)]) q' := by
  unfold Follows
  rw [List.map_append, List.map_append]
  exact run_append h (run_cons hstep rfl)

@[simp] theorem attempts_append (past past' : List (T × Label ι ω)) :
    attempts (past ++ past') = attempts past ++ attempts past' := List.filterMap_append

theorem attempts_none : attempts (none : Option (T × Label ι ω)).toList = [] := rfl

section Part
variable [DecidableEq T]

theorem part_append (t : T) (past past' : List (T × Label ι ω)) :
    part t (past ++ past') = part t past ++ part t past' := by
  simp only [part, List.filter_append, List.map_append]

theorem part_self (t : T) (label : Label ι ω) : part t [(t, label)] = [label] := by
  simp [part]

theorem part_other {t u : T} (h : u ≠ t) (label : Label ι ω) : part u [(t, label)] = [] := by
  simp [part, h.symm]

end Part

/-- Where the calls of a program take effect: what is known at each place, of the data and
the attempts so far, and how far the call is. -/
structure Linearization (D Place ι ω : Type) where
  waits : ω → Prop
  holds : Place → Bool
  status : Place → Status ι ω
  inv : D → List (ι × ω) → Prop
  knows : Place → D → List (ι × ω) → Prop

namespace Linearization
variable (lin : Linearization D Place ι ω)

/-- A step of `t` that shows nothing leaves its call where it is. -/
def Moves (t : T) (p : Place) : Option (T × Label ι ω) → Place → Prop
  | none, next => lin.status next = lin.status p
  | some (u, label), next => u = t ∧ Status.Step lin.waits (lin.status p) label (lin.status next)

/-- The rule of each action. -/
def Allows (t : T) (p : Place) : Action ε D (T × Label ι ω) Place → Prop
  | .lock next => lin.holds p = false ∧ lin.holds next = true ∧ lin.status next = lin.status p ∧
      ∀ d log, lin.knows p d log → lin.inv d log → lin.knows next d log
  | .unlock next | .wait next => lin.holds p = true ∧ lin.holds next = false ∧
      lin.status next = lin.status p ∧
      ∀ d log, lin.knows p d log → lin.inv d log ∧ lin.knows next d log
  | .signal next | .broadcast next => lin.holds next = lin.holds p ∧
      lin.status next = lin.status p ∧ ∀ d log, lin.knows p d log → lin.knows next d log
  | .access f => lin.holds p = true ∧ ∀ d log, lin.knows p d log → ∃ d' next,
      f d = .ok (d', next) ∧ lin.holds next = true ∧ lin.status next = lin.status p ∧
        lin.knows next d' log
  | .commit f => lin.holds p = true ∧ ∀ d log, lin.knows p d log → ∃ d' next out,
      f d = .ok (d', next, out) ∧ lin.holds next = true ∧ lin.Moves t p out next ∧
        lin.knows next d' (log ++ attempts out.toList)
  | .plain r => ∃ next out, r = .ok (next, out) ∧ lin.holds next = lin.holds p ∧
      lin.Moves t p out next ∧ attempts out.toList = [] ∧
        ∀ d log, lin.knows p d log → lin.knows next d log
  | .stop => True

structure Valid (pr : Program ε E D (T × Label ι ω) T fun _ => Place) : Prop where
  allows : ∀ env t p, pr.woken t p = none → lin.Allows t p (pr.action env t p)
  wakes : ∀ t p p', pr.woken t p = some p' → lin.holds p = false ∧ lin.holds p' = false ∧
    lin.status p' = lin.status p ∧ ∀ d log, lin.knows p d log → lin.knows p' d log
  /-- Without the mutex nothing is known that another thread could change. -/
  free : ∀ p d d' log log', lin.holds p = false → lin.knows p d log → lin.knows p d' log'

variable [DecidableEq T]

def outline : Outline ε D (T × Label ι ω) T fun _ => Place where
  holds _ p := lin.holds p
  inv d past := lin.inv d (attempts past)
  asserts t p d past :=
    History lin.waits (part t past) (lin.status p) ∧ lin.knows p d (attempts past)
  guarantee t _ past _ past' := ∀ u, u ≠ t → part u past' = part u past
  shows t _ past past' :=
    (∀ u, u ≠ t → part u past' = part u past) ∧ attempts past' = attempts past
  faults _ _ := False

variable {lin} {t : T} {p next : Place} {past : List (T × Label ι ω)}
  {out : Option (T × Label ι ω)}

theorem Moves.history (h : lin.Moves t p out next)
    (hpast : History lin.waits (part t past) (lin.status p)) :
    History lin.waits (part t (past ++ out.toList)) (lin.status next) := by
  cases out with
  | none =>
    rw [Option.toList_none, List.append_nil, show lin.status next = lin.status p from h]
    exact hpast
  | some event =>
    obtain ⟨u, label⟩ := event
    obtain ⟨rfl, hstep⟩ := h
    rw [Option.toList_some, part_append, part_self]
    exact hpast.snoc hstep

theorem Moves.others (h : lin.Moves t p out next) {u : T} (hu : u ≠ t) :
    part u (past ++ out.toList) = part u past := by
  cases out with
  | none => rw [Option.toList_none, List.append_nil]
  | some event =>
    obtain ⟨t, label⟩ := event
    obtain ⟨rfl, -⟩ := h
    rw [Option.toList_some, part_append, part_other hu, List.append_nil]

theorem Allows.outline {a : Action ε D (T × Label ι ω) Place} (h : lin.Allows t p a) :
    (lin.outline (ε := ε)).Allows t p a := by
  cases a with
  | lock next =>
    obtain ⟨hholds, hnext, hstatus, hknows⟩ := h
    refine ⟨hholds, hnext, ?_⟩
    intro d past hassert hinv
    refine ⟨?_, hknows d _ hassert.2 hinv⟩
    rw [hstatus]
    exact hassert.1
  | unlock next | wait next =>
    obtain ⟨hholds, hnext, hstatus, hknows⟩ := h
    refine ⟨hholds, hnext, ?_⟩
    intro d past hassert
    obtain ⟨hinv, hknows⟩ := hknows d _ hassert.2
    refine ⟨hinv, ?_, hknows⟩
    rw [hstatus]
    exact hassert.1
  | signal next | broadcast next =>
    obtain ⟨hholds, hstatus, hknows⟩ := h
    refine ⟨hholds, ?_⟩
    intro d past hassert
    refine ⟨?_, hknows d _ hassert.2⟩
    rw [hstatus]
    exact hassert.1
  | access f =>
    obtain ⟨hholds, hknows⟩ := h
    refine ⟨hholds, ?_⟩
    intro d past hassert
    obtain ⟨d', next, hf, hnext, hstatus, hafter⟩ := hknows d _ hassert.2
    rw [hf]
    refine ⟨fun e he => (by cases he), ?_⟩
    intro d'' next' heq
    cases heq
    refine ⟨hnext, ⟨?_, hafter⟩, fun u _ => rfl⟩
    rw [hstatus]
    exact hassert.1
  | commit f =>
    obtain ⟨hholds, hknows⟩ := h
    refine ⟨hholds, ?_⟩
    intro d past hassert
    obtain ⟨d', next, out, hf, hnext, hmoves, hafter⟩ := hknows d _ hassert.2
    rw [hf]
    refine ⟨fun e he => (by cases he), ?_⟩
    intro d'' next' out' heq
    cases heq
    rw [← attempts_append] at hafter
    exact ⟨hnext, ⟨hmoves.history hassert.1, hafter⟩, fun u hu => hmoves.others hu⟩
  | plain r =>
    obtain ⟨next, out, rfl, hholds, hmoves, hquiet, hknows⟩ := h
    intro d past hassert
    refine ⟨fun e he => (by cases he), ?_⟩
    intro next' out' heq
    cases heq
    have hattempts : attempts (past ++ out.toList) = attempts past := by
      rw [attempts_append, hquiet, List.append_nil]
    refine ⟨hholds, ⟨hmoves.history hassert.1, ?_⟩, fun u hu => hmoves.others hu, hattempts⟩
    rw [hattempts]
    exact hknows d _ hassert.2
  | stop => trivial

theorem Valid.outline {pr : Program ε E D (T × Label ι ω) T fun _ => Place} (h : lin.Valid pr) :
    lin.outline.Valid pr := by
  refine ⟨?_, ?_, ?_, ?_, ?_⟩
  · intro env t p hawake
    exact (h.allows env t p hawake).outline
  · intro t p p' hw
    obtain ⟨hholds, hnext, hstatus, hknows⟩ := h.wakes t p p' hw
    refine ⟨hholds, hnext, ?_⟩
    intro d past hassert
    refine ⟨?_, hknows d _ hassert.2⟩
    rw [hstatus]
    exact hassert.1
  · intro t u p d past d' past' hne hassert hholds hguar
    refine ⟨?_, h.free p d d' _ _ hholds hassert.2⟩
    rw [hguar u hne.symm]
    exact hassert.1
  · intro t u p d past past' hne hassert hshows
    obtain ⟨hothers, hattempts⟩ := hshows
    refine ⟨?_, ?_⟩
    · rw [hothers u hne.symm]
      exact hassert.1
    · rw [hattempts]
      exact hassert.2
  · intro t d past past' hinv hshows
    have hbefore : lin.inv d (attempts past) := hinv
    rw [← hshows.2] at hbefore
    exact hbefore

theorem inv_idle {s : State D T fun _ => Place} (hfree : s.owner = none)
    (hidle : ∀ t, lin.holds (s.place t) = false ∧ lin.status (s.place t) = .idle ∧
      lin.knows (s.place t) s.data [])
    (hinv : lin.inv s.data []) : (lin.outline (ε := ε)).Inv s [] := by
  refine ⟨?_, fun _ => hinv, ?_⟩
  · intro t
    rw [hfree, show lin.outline.holds t (s.place t) = false from (hidle t).1]
    simp
  · intro t
    refine ⟨?_, (hidle t).2.2⟩
    rw [(hidle t).2.1]
    exact .nil

/-- No run faults, and what it keeps. -/
theorem Valid.run_ok [Fintype T] {pr : Program ε E D (T × Label ι ω) T fun _ => Place}
    (h : lin.Valid pr) {s : State D T fun _ => Place} (hinv : (lin.outline (ε := ε)).Inv s [])
    (moves : List (Move E T)) :
    ∃ s' outs, run pr.step s moves = .ok (s', outs) ∧
      (lin.outline (ε := ε)).Inv s' (shown outs) := by
  have hstart : (lin.outline (ε := ε)).Inv s (shown []) := hinv
  refine run_invariant (fun outs s => (lin.outline (ε := ε)).Inv s (shown outs)) ?_ hstart moves
  intro past s m hpast
  cases hstep : pr.step s m with
  | error fault =>
    obtain ⟨e, -, hfalse⟩ := hpast.step_error h.outline hstep
    exact hfalse.elim
  | ok r =>
    obtain ⟨s', out⟩ := r
    refine ⟨s', out, rfl, ?_⟩
    rw [shown_snoc]
    exact hpast.step h.outline hstep

end Linearization

end Prgsem.Calls
