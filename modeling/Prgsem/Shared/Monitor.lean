import Mathlib.Algebra.Order.BigOperators.Group.Finset
import Mathlib.Data.Fintype.Basic
import Mathlib.Logic.Function.Basic
import Prgsem.Shared.Run

/-!
# Threads under one mutex and one condition variable

A thread is at a place of its program, where one action comes next. A proof
outline gives every place an assertion on the data and on what was shown so far,
and says at which places the mutex is held. A valid outline holds in every state
of every interleaving: the actions of a thread keep what it asserts itself and
what it guarantees the others.
-/

namespace Prgsem.Monitor

open Run
set_option autoImplicit false

/-- What comes next at a place, where `D` is the data under the mutex. -/
inductive Action (ε D O Place : Type) where
  | lock (next : Place)
  | unlock (next : Place)
  /-- `pthread_cond_wait` up to the place where it sleeps, with the mutex released. -/
  | wait (asleep : Place)
  | signal (next : Place)
  | broadcast (next : Place)
  | access (f : D → Except ε (D × Place))
  /-- An access that may show something. -/
  | commit (f : D → Except ε (D × Place × Option O))
  | plain (r : Except ε (Place × Option O))
  | stop

/-- Where an action leads that can be done. -/
def Action.target {ε D O Place : Type} (d : D) : Action ε D O Place → Option Place
  | .lock next | .unlock next | .wait next | .signal next | .broadcast next => some next
  | .access f =>
    match f d with
    | .error _ => none
    | .ok (_, next) => some next
  | .commit f =>
    match f d with
    | .error _ => none
    | .ok (_, next, _) => some next
  | .plain r =>
    match r with
    | .error _ => none
    | .ok (next, _) => some next
  | .stop => none

/-- The action leaves `d'` where the data were `d`. -/
def Action.Stores {ε D O Place : Type} (d d' : D) : Action ε D O Place → Prop
  | .access f => ∃ next, f d = .ok (d', next)
  | .commit f => ∃ next out, f d = .ok (d', next, out)
  | _ => False

def Action.wakes {ε D O Place : Type} : Action ε D O Place → Bool
  | .signal _ | .broadcast _ => true
  | _ => false

inductive Fault (ε : Type) where
  | notOwner
  | race
  | failed (e : ε)
  deriving DecidableEq, Repr

structure Program (ε E D O T : Type) (Place : T → Type) where
  action : E → (t : T) → Place t → Action ε D O (Place t)
  /-- The places that sleep in `pthread_cond_wait`, and where a wake-up leads. -/
  woken : (t : T) → Place t → Option (Place t)

@[ext] structure State (D T : Type) (Place : T → Type) where
  data : D
  owner : Option T
  place : (t : T) → Place t

variable {ε E D O T : Type} {Place : T → Type}

/-- A thread makes a step, with what it learns from outside, and with the sleepers that
a signal of it would wake; or a thread wakes up by itself. -/
inductive Move (E T : Type) where
  | turn (t : T) (env : E) (chosen : T → Bool)
  | wake (t : T)

section
variable [DecidableEq T]

def State.goto (s : State D T Place) (t : T) (p : Place t) : State D T Place :=
  { s with place := Function.update s.place t p }

section Goto
variable (s : State D T Place) (t : T) (p : Place t)

@[simp] theorem State.goto_data : (s.goto t p).data = s.data := rfl

@[simp] theorem State.goto_owner : (s.goto t p).owner = s.owner := rfl

@[simp] theorem State.goto_self : (s.goto t p).place t = p := Function.update_self ..

theorem State.goto_ne {u : T} (h : u ≠ t) : (s.goto t p).place u = s.place u :=
  Function.update_of_ne h ..

end Goto

end

namespace Program
variable (pr : Program ε E D O T Place)

def wakeUp (s : State D T Place) (chosen : T → Bool) : State D T Place :=
  { s with
    place := fun t => if chosen t then (pr.woken t (s.place t)).getD (s.place t) else s.place t }

section
variable [DecidableEq T] [Fintype T]

/-- A signal wakes one sleeper at least, if there is one. -/
def signalled (s : State D T Place) (chosen : T → Bool) : T → Bool :=
  if ∃ t, chosen t = true ∧ (pr.woken t (s.place t)).isSome = true then chosen else fun _ => true

def perform (chosen : T → Bool) (s : State D T Place) (t : T) :
    Action ε D O (Place t) → Except (Fault ε) (State D T Place × Option O)
  | .lock next =>
    .ok (if s.owner = none then { s.goto t next with owner := some t } else s, none)
  | .unlock next | .wait next =>
    if s.owner = some t then .ok ({ s.goto t next with owner := none }, none)
    else .error .notOwner
  | .signal next => .ok ((pr.wakeUp s (pr.signalled s chosen)).goto t next, none)
  | .broadcast next => .ok ((pr.wakeUp s fun _ => true).goto t next, none)
  | .access f =>
    if s.owner = some t then
      match f s.data with
      | .error e => .error (.failed e)
      | .ok (d, next) => .ok ({ s.goto t next with data := d }, none)
    else .error .race
  | .commit f =>
    if s.owner = some t then
      match f s.data with
      | .error e => .error (.failed e)
      | .ok (d, next, out) => .ok ({ s.goto t next with data := d }, out)
    else .error .race
  | .plain r =>
    match r with
    | .error e => .error (.failed e)
    | .ok (next, out) => .ok (s.goto t next, out)
  | .stop => .ok (s, none)

def step (s : State D T Place) : Move E T → Except (Fault ε) (State D T Place × Option O)
  | .turn t env chosen =>
    match pr.woken t (s.place t) with
    | some _ => .ok (s, none)
    | none => pr.perform chosen s t (pr.action env t (s.place t))
  | .wake t => .ok (pr.wakeUp s fun u => u = t, none)

end

end Program

/-! ## What a step does to the places -/

section Places
variable {pr : Program ε E D O T Place} {s s' : State D T Place} {t : T}

theorem wakeUp_place (pr : Program ε E D O T Place) (s : State D T Place) (chosen : T → Bool) (u : T) :
    (pr.wakeUp s chosen).place u = s.place u ∨
      pr.woken u (s.place u) = some ((pr.wakeUp s chosen).place u) := by
  simp only [Program.wakeUp]
  split
  · cases hw : pr.woken u (s.place u) with
    | none => exact .inl rfl
    | some p => exact .inr rfl
  · exact .inl rfl

theorem wakeUp_of_awake (chosen : T → Bool) (hw : pr.woken t (s.place t) = none) :
    (pr.wakeUp s chosen).place t = s.place t := by
  simp only [Program.wakeUp, hw, Option.getD_none, ite_self]

/-- A turn of `t` that changes something. -/
structure Turn (pr : Program ε E D O T Place) (env : E) (t : T) (s s' : State D T Place) : Prop where
  awake : pr.woken t (s.place t) = none
  target : (pr.action env t (s.place t)).target s.data = some (s'.place t)
  others : ∀ u, u ≠ t → s'.place u = s.place u ∨
    (pr.action env t (s.place t)).wakes = true ∧ pr.woken u (s.place u) = some (s'.place u)
  data : s'.data = s.data ∨
    s.owner = some t ∧ (pr.action env t (s.place t)).Stores s.data s'.data

theorem Turn.place_or_woken {env : E} (h : Turn pr env t s s') {u : T} (hu : u ≠ t) :
    s'.place u = s.place u ∨ pr.woken u (s.place u) = some (s'.place u) :=
  (h.others u hu).imp_right And.right

variable [DecidableEq T] [Fintype T]

theorem perform_place {a : Action ε D O (Place t)} {out : Option O} {chosen : T → Bool} {u : T}
    (hstep : pr.perform chosen s t a = .ok (s', out)) (hu : u ≠ t) :
    s'.place u = s.place u ∨ a.wakes = true ∧ pr.woken u (s.place u) = some (s'.place u) := by
  cases a with
  | lock next =>
    cases hstep
    split
    · exact .inl (State.goto_ne _ _ _ hu)
    · exact .inl rfl
  | unlock next | wait next =>
    simp only [Program.perform] at hstep
    split at hstep
    · cases hstep
      exact .inl (State.goto_ne _ _ _ hu)
    · cases hstep
  | signal next | broadcast next =>
    cases hstep
    rw [State.goto_ne _ _ _ hu]
    exact (wakeUp_place pr s _ u).imp_right fun hw => ⟨rfl, hw⟩
  | access f | commit f =>
    simp only [Program.perform] at hstep
    split at hstep
    · split at hstep
      · cases hstep
      · cases hstep
        exact .inl (State.goto_ne _ _ _ hu)
    · cases hstep
  | plain r =>
    simp only [Program.perform] at hstep
    split at hstep
    · cases hstep
    · cases hstep
      exact .inl (State.goto_ne _ _ _ hu)
  | stop =>
    cases hstep
    exact .inl rfl

theorem perform_data {a : Action ε D O (Place t)} {out : Option O} {chosen : T → Bool}
    (hstep : pr.perform chosen s t a = .ok (s', out)) :
    s'.data = s.data ∨ s.owner = some t ∧ a.Stores s.data s'.data := by
  cases a with
  | lock next =>
    cases hstep
    split <;> exact .inl rfl
  | unlock next | wait next =>
    simp only [Program.perform] at hstep
    split at hstep
    · cases hstep
      exact .inl rfl
    · cases hstep
  | signal next | broadcast next | stop =>
    cases hstep
    exact .inl rfl
  | access f =>
    simp only [Program.perform] at hstep
    split at hstep
    · rename_i hown
      split at hstep
      · cases hstep
      · rename_i d next hf
        cases hstep
        exact .inr ⟨hown, next, hf⟩
    · cases hstep
  | commit f =>
    simp only [Program.perform] at hstep
    split at hstep
    · rename_i hown
      split at hstep
      · cases hstep
      · rename_i d next out' hf
        cases hstep
        exact .inr ⟨hown, next, _, hf⟩
    · cases hstep
  | plain r =>
    simp only [Program.perform] at hstep
    split at hstep
    · cases hstep
    · cases hstep
      exact .inl rfl

theorem perform_self {a : Action ε D O (Place t)} {out : Option O} {chosen : T → Bool}
    (hstep : pr.perform chosen s t a = .ok (s', out)) :
    s' = s ∧ (a = .stop ∨ s.owner ≠ none ∧ ∃ next, a = .lock next) ∨
      a.target s.data = some (s'.place t) := by
  cases a with
  | lock next =>
    cases hstep
    split
    · exact .inr (congrArg some (State.goto_self s t next).symm)
    · rename_i hheld
      exact .inl ⟨rfl, .inr ⟨hheld, next, rfl⟩⟩
  | unlock next | wait next =>
    simp only [Program.perform] at hstep
    split at hstep
    · cases hstep
      exact .inr (congrArg some (State.goto_self s t next).symm)
    · cases hstep
  | signal next | broadcast next =>
    cases hstep
    exact .inr (congrArg some (State.goto_self _ t next).symm)
  | access f =>
    simp only [Program.perform] at hstep
    split at hstep
    · split at hstep
      · cases hstep
      · rename_i d next hf
        cases hstep
        simp only [Action.target, hf]
        exact .inr (congrArg some (State.goto_self s t next).symm)
    · cases hstep
  | commit f =>
    simp only [Program.perform] at hstep
    split at hstep
    · split at hstep
      · cases hstep
      · rename_i d next out' hf
        cases hstep
        simp only [Action.target, hf]
        exact .inr (congrArg some (State.goto_self s t next).symm)
    · cases hstep
  | plain r =>
    simp only [Program.perform] at hstep
    split at hstep
    · cases hstep
    · rename_i next out'
      cases hstep
      exact .inr (congrArg some (State.goto_self s t next).symm)
  | stop =>
    cases hstep
    exact .inl ⟨rfl, .inl rfl⟩

theorem turn_cases {env : E} {chosen : T → Bool} {out : Option O}
    (hstep : pr.step s (.turn t env chosen) = .ok (s', out)) : s' = s ∨ Turn pr env t s s' := by
  simp only [Program.step] at hstep
  split at hstep
  · cases hstep
    exact .inl rfl
  · rename_i hawake
    rcases perform_self hstep with ⟨heq, -⟩ | htarget
    · exact .inl heq
    · exact .inr ⟨hawake, htarget, fun u => perform_place hstep, perform_data hstep⟩

theorem signal_wakes {next : Place t} {out : Option O} {chosen : T → Bool} {u : T} {p : Place u}
    (hu : u ≠ t) (honly : ∀ v, v ≠ u → pr.woken v (s.place v) = none)
    (hw : pr.woken u (s.place u) = some p)
    (hstep : pr.perform chosen s t (.signal next) = .ok (s', out)) : s'.place u = p := by
  have hchosen : pr.signalled s chosen u = true := by
    unfold Program.signalled
    split
    · rename_i hsome
      obtain ⟨v, hv, hsleeps⟩ := hsome
      by_cases hvu : v = u
      · exact hvu ▸ hv
      · rw [honly v hvu] at hsleeps
        cases hsleeps
    · rfl
  cases hstep
  rw [State.goto_ne _ _ _ hu]
  simp only [Program.wakeUp, hchosen, if_true, hw, Option.getD_some]

theorem broadcast_wakes {next : Place t} {out : Option O} {chosen : T → Bool} {u : T} {p : Place u}
    (hu : u ≠ t) (hw : pr.woken u (s.place u) = some p)
    (hstep : pr.perform chosen s t (.broadcast next) = .ok (s', out)) : s'.place u = p := by
  cases hstep
  rw [State.goto_ne _ _ _ hu]
  simp only [Program.wakeUp, if_true, hw, Option.getD_some]

/-- A property of the places that every action and every wake-up keeps. -/
theorem step_places {I : (t : T) → Place t → Prop} {m : Move E T} {out : Option O}
    (hnext : ∀ env t p d next, I t p → (pr.action env t p).target d = some next → I t next)
    (hwoken : ∀ t p p', I t p → pr.woken t p = some p' → I t p')
    (hI : ∀ t, I t (s.place t)) (hstep : pr.step s m = .ok (s', out)) (u : T) :
    I u (s'.place u) := by
  have hother : s'.place u = s.place u ∨ pr.woken u (s.place u) = some (s'.place u) →
      I u (s'.place u) := by
    intro h
    rcases h with heq | hw
    · rw [heq]
      exact hI u
    · exact hwoken u _ _ (hI u) hw
  cases m with
  | turn t env chosen =>
    rcases turn_cases hstep with rfl | hturn
    · exact hI u
    · by_cases hu : u = t
      · subst hu
        exact hnext env u _ _ _ (hI u) hturn.target
      · exact hother (hturn.place_or_woken hu)
  | wake t =>
    cases hstep
    exact hother (wakeUp_place pr s _ u)

/-- A thread that does nothing more stays where it is. -/
theorem step_of_stop {m : Move E T} {out : Option O} (hawake : pr.woken t (s.place t) = none)
    (hstop : ∀ env, pr.action env t (s.place t) = .stop) (hstep : pr.step s m = .ok (s', out)) :
    s'.place t = s.place t := by
  cases m with
  | turn u env chosen =>
    rcases turn_cases hstep with rfl | hturn
    · rfl
    · by_cases hu : t = u
      · subst hu
        have htarget := hturn.target
        rw [hstop] at htarget
        cases htarget
      · rcases hturn.place_or_woken hu with heq | hw
        · exact heq
        · rw [hawake] at hw
          cases hw
  | wake u =>
    cases hstep
    exact wakeUp_of_awake _ hawake

/-- Nothing happens where no thread does anything more. -/
theorem step_of_all_stop {m : Move E T} {out : Option O}
    (hawake : ∀ t, pr.woken t (s.place t) = none)
    (hstop : ∀ env t, pr.action env t (s.place t) = .stop) (hstep : pr.step s m = .ok (s', out)) :
    s' = s := by
  cases m with
  | turn t env chosen =>
    simp only [Program.step, hawake, hstop] at hstep
    cases hstep
    rfl
  | wake t =>
    cases hstep
    ext u
    · rfl
    · rfl
    · exact wakeUp_of_awake _ (hawake u)

theorem step_shows {m : Move E T} {out : Option O} (hstep : pr.step s m = .ok (s', out)) :
    out = none ∨ ∃ env t, (∃ next, pr.action env t (s.place t) = .plain (.ok (next, out))) ∨
      ∃ f, pr.action env t (s.place t) = .commit f := by
  cases m with
  | turn t env chosen =>
    simp only [Program.step] at hstep
    split at hstep
    · cases hstep
      exact .inl rfl
    · cases ha : pr.action env t (s.place t) with
      | lock next | signal next | broadcast next | stop =>
        rw [ha] at hstep
        cases hstep
        exact .inl rfl
      | unlock next | wait next =>
        simp only [ha, Program.perform] at hstep
        split at hstep
        · cases hstep
          exact .inl rfl
        · cases hstep
      | access f =>
        simp only [ha, Program.perform] at hstep
        split at hstep
        · split at hstep
          · cases hstep
          · cases hstep
            exact .inl rfl
        · cases hstep
      | commit f => exact .inr ⟨env, t, .inr ⟨f, ha⟩⟩
      | plain r =>
        simp only [ha, Program.perform] at hstep
        split at hstep
        · cases hstep
        · cases hstep
          exact .inr ⟨env, t, .inl ⟨_, ha⟩⟩
  | wake t =>
    cases hstep
    exact .inl rfl

/-- What the threads have left to do, where `r` measures it at each place. -/
def total (r : (t : T) → Place t → Nat) (s : State D T Place) : Nat := ∑ t, r t (s.place t)

theorem step_total {r : (t : T) → Place t → Nat} {m : Move E T} {out : Option O}
    (hwoken : ∀ t p p', pr.woken t p = some p' → r t p' < r t p)
    (htarget : ∀ env t next, (pr.action env t (s.place t)).target s.data = some next →
      r t next < r t (s.place t))
    (hstep : pr.step s m = .ok (s', out)) : s' = s ∨ total r s' < total r s := by
  have hother : ∀ u, s'.place u = s.place u ∨ pr.woken u (s.place u) = some (s'.place u) →
      r u (s'.place u) ≤ r u (s.place u) := by
    intro u h
    rcases h with heq | hw
    · exact heq ▸ le_refl _
    · exact (hwoken u _ _ hw).le
  cases m with
  | turn t env chosen =>
    rcases turn_cases hstep with heq | hturn
    · exact .inl heq
    · have hlt := htarget env t _ hturn.target
      refine .inr (Finset.sum_lt_sum ?_ ⟨t, Finset.mem_univ t, hlt⟩)
      intro u _
      by_cases hu : u = t
      · subst hu
        exact hlt.le
      · exact hother u (hturn.place_or_woken hu)
  | wake t =>
    cases hstep
    have hle := fun u => hother u (wakeUp_place pr s (fun u => u = t) u)
    cases hw : pr.woken t (s.place t) with
    | none =>
      refine .inl ?_
      ext u
      · rfl
      · rfl
      · by_cases hu : u = t
        · subst hu
          exact wakeUp_of_awake _ hw
        · simp only [Program.wakeUp, hu, decide_false, Bool.false_eq_true, if_false]
    | some p =>
      refine .inr (Finset.sum_lt_sum (fun u _ => hle u) ⟨t, Finset.mem_univ t, ?_⟩)
      simp only [Program.wakeUp, decide_true, if_true, hw, Option.getD_some]
      exact hwoken t _ _ hw

end Places

/-! ## Proof outlines -/

/-- An assertion for every place. `inv` holds while the mutex is free, `guarantee t` of every
step of `t` on the data, and `shows t` of what `t` shows without the mutex. -/
structure Outline (ε D O T : Type) (Place : T → Type) where
  holds : (t : T) → Place t → Bool
  inv : D → List O → Prop
  asserts : (t : T) → Place t → D → List O → Prop
  guarantee : T → D → List O → D → List O → Prop
  shows : T → D → List O → List O → Prop
  faults : D → ε → Prop

namespace Outline

/-- The rule of each action. -/
def Allows (o : Outline ε D O T Place) (t : T) (p : Place t) : Action ε D O (Place t) → Prop
  | .lock next => o.holds t p = false ∧ o.holds t next = true ∧
      ∀ d past, o.asserts t p d past → o.inv d past → o.asserts t next d past
  | .unlock next | .wait next => o.holds t p = true ∧ o.holds t next = false ∧
      ∀ d past, o.asserts t p d past → o.inv d past ∧ o.asserts t next d past
  | .signal next | .broadcast next => o.holds t next = o.holds t p ∧
      ∀ d past, o.asserts t p d past → o.asserts t next d past
  | .access f => o.holds t p = true ∧ ∀ d past, o.asserts t p d past →
      (∀ e, f d = .error e → o.faults d e) ∧
      ∀ d' next, f d = .ok (d', next) →
        o.holds t next = true ∧ o.asserts t next d' past ∧ o.guarantee t d past d' past
  | .commit f => o.holds t p = true ∧ ∀ d past, o.asserts t p d past →
      (∀ e, f d = .error e → o.faults d e) ∧
      ∀ d' next out, f d = .ok (d', next, out) → o.holds t next = true ∧
        o.asserts t next d' (past ++ out.toList) ∧ o.guarantee t d past d' (past ++ out.toList)
  | .plain r => ∀ d past, o.asserts t p d past →
      (∀ e, r = .error e → o.faults d e) ∧
      ∀ next out, r = .ok (next, out) → o.holds t next = o.holds t p ∧
        o.asserts t next d (past ++ out.toList) ∧ o.shows t d past (past ++ out.toList)
  | .stop => True

structure Valid (o : Outline ε D O T Place) (pr : Program ε E D O T Place) : Prop where
  allows : ∀ env t p, pr.woken t p = none → o.Allows t p (pr.action env t p)
  wakes : ∀ t p p', pr.woken t p = some p' → o.holds t p = false ∧ o.holds t p' = false ∧
    ∀ d past, o.asserts t p d past → o.asserts t p' d past
  stable : ∀ t u p d past d' past', t ≠ u → o.asserts u p d past → o.holds u p = false →
    o.guarantee t d past d' past' → o.asserts u p d' past'
  stable_shows : ∀ t u p d past past', t ≠ u → o.asserts u p d past →
    o.shows t d past past' → o.asserts u p d past'
  inv_shows : ∀ t d past past', o.inv d past → o.shows t d past past' → o.inv d past'

structure Inv (o : Outline ε D O T Place) (s : State D T Place) (past : List O) : Prop where
  owner : ∀ t, s.owner = some t ↔ o.holds t (s.place t) = true
  free : s.owner = none → o.inv s.data past
  asserts : ∀ t, o.asserts t (s.place t) s.data past

variable {o : Outline ε D O T Place} {pr : Program ε E D O T Place} {s s' : State D T Place}
  {past : List O} {t : T}

/-- An access that cannot fail. -/
theorem allows_access {p : Place t} {f : D → D × Place t} (hheld : o.holds t p = true)
    (h : ∀ d past, o.asserts t p d past → o.holds t (f d).2 = true ∧
      o.asserts t (f d).2 (f d).1 past ∧ o.guarantee t d past (f d).1 past) :
    o.Allows t p (.access fun d => .ok (f d)) := by
  refine ⟨hheld, ?_⟩
  intro d past hassert
  refine ⟨fun e he => (by cases he), ?_⟩
  intro d' next hf
  have heq : f d = (d', next) := Except.ok.inj hf
  have hnext := h d past hassert
  rwa [heq] at hnext

/-- A step without the data that cannot fail. -/
theorem allows_plain {p : Place t} {r : Place t × Option O}
    (h : ∀ d past, o.asserts t p d past → o.holds t r.1 = o.holds t p ∧
      o.asserts t r.1 d (past ++ r.2.toList) ∧ o.shows t d past (past ++ r.2.toList)) :
    o.Allows t p (.plain (.ok r)) := by
  intro d past hassert
  refine ⟨fun e he => (by cases he), ?_⟩
  intro next out hr
  have heq : r = (next, out) := Except.ok.inj hr
  have hnext := h d past hassert
  rwa [heq] at hnext

theorem Inv.exclusion (h : o.Inv s past) {u : T} (ht : o.holds t (s.place t) = true)
    (hu : o.holds u (s.place u) = true) : t = u := by
  have hown := (h.owner t).mpr ht
  rw [(h.owner u).mpr hu, Option.some.injEq] at hown
  exact hown.symm

theorem Inv.wakeUp (hv : o.Valid pr) (h : o.Inv s past) (chosen : T → Bool) :
    o.Inv (pr.wakeUp s chosen) past := by
  refine ⟨?_, h.free, ?_⟩
  · intro u
    rcases wakeUp_place pr s chosen u with heq | hw
    · rw [heq]
      exact h.owner u
    · obtain ⟨hbefore, hafter, -⟩ := hv.wakes u _ _ hw
      have hnot := h.owner u
      rw [hbefore] at hnot
      rw [hafter]
      exact hnot
  · intro u
    rcases wakeUp_place pr s chosen u with heq | hw
    · rw [heq]
      exact h.asserts u
    · obtain ⟨-, -, hafter⟩ := hv.wakes u _ _ hw
      exact hafter _ _ (h.asserts u)

theorem Inv.turn_data {env : E} (hv : o.Valid pr) (h : o.Inv s past) (hturn : Turn pr env t s s') :
    s'.data = s.data ∨ ∃ past', o.guarantee t s.data past s'.data past' := by
  rcases hturn.data with heq | ⟨-, hstores⟩
  · exact .inl heq
  · have hallows := hv.allows env t _ hturn.awake
    cases ha : pr.action env t (s.place t) with
    | access f =>
      rw [ha] at hallows hstores
      obtain ⟨next, hf⟩ := hstores
      exact .inr ⟨past, ((hallows.2 _ _ (h.asserts t)).2 _ next hf).2.2⟩
    | commit f =>
      rw [ha] at hallows hstores
      obtain ⟨next, out, hf⟩ := hstores
      exact .inr ⟨past ++ out.toList, ((hallows.2 _ _ (h.asserts t)).2 _ next out hf).2.2⟩
    | _ =>
      rw [ha] at hstores
      exact hstores.elim

section Steps
variable [DecidableEq T]

/-- A step of `t` seen from the other threads. -/
theorem Inv.move {p : Place t} {d : D} {owner : Option T} {past' : List O} (h : o.Inv s past)
    (howner : owner = some t ↔ o.holds t p = true)
    (hothers : ∀ u, u ≠ t → (owner = some u ↔ s.owner = some u))
    (hfree : owner = none → o.inv d past')
    (hself : o.asserts t p d past')
    (hrest : ∀ u, u ≠ t → o.asserts u (s.place u) d past') :
    o.Inv { s.goto t p with data := d, owner := owner } past' := by
  refine ⟨?_, hfree, ?_⟩
  · intro u
    by_cases hu : u = t
    · subst hu
      rw [State.goto_self]
      exact howner
    · rw [State.goto_ne _ _ _ hu]
      exact (hothers u hu).trans (h.owner u)
  · intro u
    by_cases hu : u = t
    · subst hu
      rw [State.goto_self]
      exact hself
    · rw [State.goto_ne _ _ _ hu]
      exact hrest u hu

theorem Inv.lock {p : Place t} (h : o.Inv s past) (hfree : s.owner = none)
    (hholds : o.holds t p = true) (hself : o.asserts t p s.data past) :
    o.Inv { s.goto t p with owner := some t } past := by
  refine h.move ⟨fun _ => hholds, fun _ => rfl⟩ ?_ (by simp) hself fun u _ => h.asserts u
  intro u hu
  rw [hfree, Option.some.injEq]
  exact ⟨fun heq => absurd heq.symm hu, fun heq => by cases heq⟩

theorem Inv.unlock {p : Place t} (h : o.Inv s past) (hown : s.owner = some t)
    (hholds : o.holds t p = false) (hinv : o.inv s.data past)
    (hself : o.asserts t p s.data past) :
    o.Inv { s.goto t p with owner := none } past := by
  refine h.move (by simp [hholds]) ?_ (fun _ => hinv) hself fun u _ => h.asserts u
  intro u hu
  rw [hown, Option.some.injEq]
  exact ⟨fun heq => (by cases heq), fun heq => absurd heq.symm hu⟩

/-- The other threads do not hold the mutex while `t` changes the data. -/
theorem Inv.access {p : Place t} {d : D} {past' : List O} (hv : o.Valid pr) (h : o.Inv s past)
    (hown : s.owner = some t) (hholds : o.holds t p = true) (hself : o.asserts t p d past')
    (hguar : o.guarantee t s.data past d past') : o.Inv { s.goto t p with data := d } past' := by
  have hmove : (s.owner = none → o.inv d past') →
      (∀ u, u ≠ t → o.asserts u (s.place u) d past') →
        o.Inv { s.goto t p with data := d, owner := s.owner } past' := fun hfree hrest =>
    h.move ⟨fun _ => hholds, fun _ => hown⟩ (fun _ _ => Iff.rfl) hfree hself hrest
  refine hmove ?_ ?_
  · intro hfree
    rw [hown] at hfree
    cases hfree
  · intro u hu
    refine hv.stable t u _ _ _ _ _ hu.symm (h.asserts u) ?_ hguar
    cases huholds : o.holds u (s.place u) with
    | false => rfl
    | true => exact absurd (h.exclusion ((h.owner t).mp hown) huholds).symm hu

/-- A step of `t` that leaves the data and the mutex. -/
theorem Inv.plain {p : Place t} {past' : List O} (hv : o.Valid pr) (h : o.Inv s past)
    (hholds : o.holds t p = o.holds t (s.place t)) (hself : o.asserts t p s.data past')
    (hshows : o.shows t s.data past past') : o.Inv (s.goto t p) past' := by
  refine h.move ((h.owner t).trans (by rw [hholds])) (fun _ _ => Iff.rfl)
    (fun hfree => hv.inv_shows t _ _ _ (h.free hfree) hshows) hself ?_
  intro u hu
  exact hv.stable_shows t u _ _ _ _ hu.symm (h.asserts u) hshows

theorem Inv.goto {p : Place t} (h : o.Inv s past) (hholds : o.holds t p = o.holds t (s.place t))
    (hself : o.asserts t p s.data past) : o.Inv (s.goto t p) past :=
  h.move ((h.owner t).trans (by rw [hholds])) (fun _ _ => Iff.rfl) h.free hself
    fun u _ => h.asserts u

variable [Fintype T]

/-- The action of `t` at the place where it is. -/
theorem Inv.perform {a : Action ε D O (Place t)} {out : Option O} {chosen : T → Bool}
    (hv : o.Valid pr) (h : o.Inv s past) (hawake : pr.woken t (s.place t) = none)
    (hallows : o.Allows t (s.place t) a) (hstep : pr.perform chosen s t a = .ok (s', out)) :
    o.Inv s' (past ++ out.toList) := by
  have hself := h.asserts t
  cases a with
  | lock next =>
    obtain ⟨-, hholds, hnext⟩ := hallows
    cases hstep
    simp only [Option.toList_none, List.append_nil]
    split
    · rename_i hfree
      exact h.lock hfree hholds (hnext _ _ hself (h.free hfree))
    · exact h
  | unlock next | wait next =>
    obtain ⟨-, hholds, hnext⟩ := hallows
    obtain ⟨hinv, hassert⟩ := hnext _ _ hself
    simp only [Program.perform] at hstep
    split at hstep
    · rename_i hown
      cases hstep
      simp only [Option.toList_none, List.append_nil]
      exact h.unlock hown hholds hinv hassert
    · cases hstep
  | signal next | broadcast next =>
    obtain ⟨hholds, hnext⟩ := hallows
    cases hstep
    simp only [Option.toList_none, List.append_nil]
    refine (h.wakeUp hv _).goto ?_ (hnext _ _ hself)
    rw [wakeUp_of_awake _ hawake]
    exact hholds
  | access f =>
    obtain ⟨-, hnext⟩ := hallows
    simp only [Program.perform] at hstep
    split at hstep
    · rename_i hown
      split at hstep
      · cases hstep
      · rename_i d next hf
        cases hstep
        obtain ⟨hholds, hassert, hguar⟩ := (hnext _ _ hself).2 d next hf
        simp only [Option.toList_none, List.append_nil]
        exact h.access hv hown hholds hassert hguar
    · cases hstep
  | commit f =>
    obtain ⟨-, hnext⟩ := hallows
    simp only [Program.perform] at hstep
    split at hstep
    · rename_i hown
      split at hstep
      · cases hstep
      · rename_i hf
        cases hstep
        obtain ⟨hholds, hassert, hguar⟩ := (hnext _ _ hself).2 _ _ _ hf
        exact h.access hv hown hholds hassert hguar
    · cases hstep
  | plain r =>
    simp only [Program.perform] at hstep
    split at hstep
    · cases hstep
    · cases hstep
      obtain ⟨hholds, hassert, hshows⟩ := (hallows _ _ hself).2 _ _ rfl
      exact h.plain hv hholds hassert hshows
  | stop =>
    cases hstep
    simp only [Option.toList_none, List.append_nil]
    exact h

/-- A thread uses the mutex and the data only as the owner, so that a fault is one of
its own making. -/
theorem Inv.perform_error {a : Action ε D O (Place t)} {chosen : T → Bool} {fault : Fault ε}
    (h : o.Inv s past) (hallows : o.Allows t (s.place t) a)
    (hstep : pr.perform chosen s t a = .error fault) :
    ∃ e, fault = .failed e ∧ o.faults s.data e := by
  have hself := h.asserts t
  cases a with
  | lock next | signal next | broadcast next | stop => cases hstep
  | unlock next | wait next =>
    have hown := (h.owner t).mpr hallows.1
    simp only [Program.perform, if_pos hown] at hstep
    cases hstep
  | access f | commit f =>
    have hown := (h.owner t).mpr hallows.1
    simp only [Program.perform, if_pos hown] at hstep
    split at hstep
    · rename_i e hf
      cases hstep
      exact ⟨e, rfl, (hallows.2 _ _ hself).1 e hf⟩
    · cases hstep
  | plain r =>
    simp only [Program.perform] at hstep
    split at hstep
    · rename_i e
      cases hstep
      exact ⟨e, rfl, (hallows _ _ hself).1 e rfl⟩
    · cases hstep

theorem Inv.step {m : Move E T} {out : Option O} (hv : o.Valid pr) (h : o.Inv s past)
    (hstep : pr.step s m = .ok (s', out)) : o.Inv s' (past ++ out.toList) := by
  cases m with
  | turn t env chosen =>
    simp only [Program.step] at hstep
    split at hstep
    · cases hstep
      simp only [Option.toList_none, List.append_nil]
      exact h
    · rename_i hawake
      exact h.perform hv hawake (hv.allows env t _ hawake) hstep
  | wake t =>
    cases hstep
    simp only [Option.toList_none, List.append_nil]
    exact h.wakeUp hv _

/-- A step changes the data only as the guarantee of a thread allows. -/
theorem Inv.step_data {m : Move E T} {out : Option O} (hv : o.Valid pr) (h : o.Inv s past)
    (hstep : pr.step s m = .ok (s', out)) :
    s'.data = s.data ∨ ∃ t past', o.guarantee t s.data past s'.data past' := by
  cases m with
  | wake t =>
    cases hstep
    exact .inl rfl
  | turn t env chosen =>
    rcases turn_cases hstep with rfl | hturn
    · exact .inl rfl
    · exact (h.turn_data hv hturn).imp_right fun hguar => ⟨t, hguar⟩

/-- Where no turn of a thread changes anything the mutex is free, and each thread sleeps
or has nothing left to do. -/
theorem Inv.at_rest (env : E) (hv : o.Valid pr) (h : o.Inv s past)
    (hmoves : ∀ env t, (pr.action env t (s.place t)).target s.data ≠ some (s.place t))
    (hstops : ∀ env t, pr.action env t (s.place t) = .stop → o.holds t (s.place t) = false)
    (hrest : ∀ t env chosen, ∃ out, pr.step s (.turn t env chosen) = .ok (s, out)) :
    s.owner = none ∧ ∀ t, pr.woken t (s.place t) = none →
      ∀ env, pr.action env t (s.place t) = .stop := by
  have hstill : ∀ t, pr.woken t (s.place t) = none → ∀ env,
      pr.action env t (s.place t) = .stop ∨
        s.owner ≠ none ∧ ∃ next, pr.action env t (s.place t) = .lock next := by
    intro t hawake env
    obtain ⟨out, hstep⟩ := hrest t env fun _ => true
    simp only [Program.step, hawake] at hstep
    rcases perform_self hstep with ⟨-, hstill⟩ | hp
    · exact hstill
    · exact absurd hp (hmoves env t)
  have hfree : s.owner = none := by
    cases hown : s.owner with
    | none => rfl
    | some t =>
      have hholds := (h.owner t).mp hown
      cases hw : pr.woken t (s.place t) with
      | some p' =>
        rw [(hv.wakes t _ _ hw).1] at hholds
        cases hholds
      | none =>
        rcases hstill t hw env with hstop | ⟨-, next, hlock⟩
        · rw [hstops env t hstop] at hholds
          cases hholds
        · have hallows := hv.allows env t _ hw
          rw [hlock] at hallows
          rw [hallows.1] at hholds
          cases hholds
  refine ⟨hfree, ?_⟩
  intro t hawake env
  rcases hstill t hawake env with hstop | ⟨hheld, -⟩
  · exact hstop
  · exact absurd hfree hheld

theorem Inv.step_error {m : Move E T} {fault : Fault ε} (hv : o.Valid pr) (h : o.Inv s past)
    (hstep : pr.step s m = .error fault) : ∃ e, fault = .failed e ∧ o.faults s.data e := by
  cases m with
  | turn t env chosen =>
    simp only [Program.step] at hstep
    split at hstep
    · cases hstep
    · rename_i hawake
      exact h.perform_error (hv.allows env t _ hawake) hstep
  | wake t => cases hstep

end Steps

end Outline

end Prgsem.Monitor
