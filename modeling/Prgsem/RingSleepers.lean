import Prgsem.RingThreads

/-!
# Who is woken in the earlier event queue

`queue_push` and `queue_pop` broadcast whenever they change the ring, so that a thread
sleeps only where it would have to wait anyway. `set_quit` changes what `queue_pop`
waits for and tells nobody.
-/

namespace Prgsem.RingQueue.Concurrent

open Calls CMemory Run
open Monitor hiding Move
set_option autoImplicit false

variable {T : Type} {capacity : Nat} {q q' : Queue} {p next : Place} {op : Move} {t : T}

def Place.broadcasts : Place → Bool
  | .queuePop .broadcast _ | .queuePush .broadcast _ => true
  | _ => false

/-- In front of `q.out=(q.out+1)%QUEUE_CAPACITY`. -/
def Place.advances : Place → Bool
  | .queuePop .advance _ | .queuePush .advance _ => true
  | _ => false

/-- What a sleeping thread waits for has not happened; `quit` is left out. -/
def Place.Blocked (capacity : Nat) (q : Queue) : Place → Prop
  | .queuePop .asleep _ => q.in_ = q.out
  | .queuePush .asleep _ => Full capacity q
  | _ => True

theorem Place.Blocked.congr (h : p.Blocked capacity q) (hin : q'.in_ = q.in_)
    (hout : q'.out = q.out) : p.Blocked capacity q' := by
  cases p with
  | queuePop pc ev =>
    cases pc with
    | asleep => exact (hin.trans h).trans hout.symm
    | _ => trivial
  | queuePush pc ev =>
    cases pc with
    | asleep =>
      unfold Blocked Full at h ⊢
      rw [hin, hout]
      exact h
    | _ => trivial
  | _ => trivial

theorem blocked_of_awake (h : (program capacity).woken t p = none) : p.Blocked capacity q := by
  cases p with
  | queuePop pc ev =>
    cases pc with
    | asleep => simp [program] at h
    | _ => trivial
  | queuePush pc ev =>
    cases pc with
    | asleep => simp [program] at h
    | _ => trivial
  | _ => trivial

theorem awake_of_woken (h : (program capacity).woken t p = some next) :
    (program capacity).woken t next = none ∧ p.broadcasts = false ∧ next.broadcasts = false := by
  rcases woken_cases h with ⟨ev, rfl, rfl⟩ | ⟨ev, rfl, rfl⟩
  · exact ⟨rfl, rfl, rfl⟩
  · exact ⟨rfl, rfl, rfl⟩

/-! ## What a turn does -/

theorem action_broadcasts (capacity : Nat) (op : Move) (t : T) (hb : p.broadcasts = true) :
    ∃ next, (program capacity).action op t p = .broadcast next ∧
      (program capacity).woken t next = none := by
  cases p with
  | queuePop pc ev =>
    cases pc with
    | broadcast => exact ⟨.queuePop .unlock ev, rfl, rfl⟩
    | _ => cases hb
  | queuePush pc ev =>
    cases pc with
    | broadcast => exact ⟨.queuePush .unlock ev, rfl, rfl⟩
    | _ => cases hb
  | _ => cases hb

theorem action_advances (ha : p.advances = true)
    (htarget : ((program capacity).action op t p).target q = some next) :
    next.broadcasts = true := by
  cases p with
  | queuePop pc ev =>
    cases pc with
    | advance =>
      cases htarget
      rfl
    | _ => cases ha
  | queuePush pc ev =>
    cases pc with
    | advance =>
      cases htarget
      rfl
    | _ => cases ha
  | _ => cases ha

/-- Only `out` and only there. -/
theorem action_stores (ha : p.advances = false)
    (hstores : ((program capacity).action op t p).Stores q q') :
    q'.in_ = q.in_ ∧ q'.out = q.out := by
  cases p with
  | idle => exact hstores.elim
  | queuePop pc ev =>
    cases pc with
    | advance => cases ha
    | take =>
      obtain ⟨next, hf⟩ := hstores
      simp only at hf
      split at hf
      · cases hf
        exact ⟨rfl, rfl⟩
      · cases hf
    | test | testIn =>
      obtain ⟨next, out, hf⟩ := hstores
      simp only [Except.ok.injEq] at hf
      split at hf <;> cases hf <;> exact ⟨rfl, rfl⟩
    | _ => exact hstores.elim
  | queuePush pc ev =>
    cases pc with
    | advance => cases ha
    | store =>
      obtain ⟨next, hf⟩ := hstores
      simp only at hf
      split at hf
      · cases hf
        exact ⟨rfl, rfl⟩
      · cases hf
    | test =>
      obtain ⟨next, out, hf⟩ := hstores
      simp only [Except.ok.injEq] at hf
      split at hf <;> cases hf <;> exact ⟨rfl, rfl⟩
    | _ => exact hstores.elim
  | isQuit pc quit =>
    cases pc with
    | read =>
      obtain ⟨next, out, hf⟩ := hstores
      cases hf
      exact ⟨rfl, rfl⟩
    | _ => exact hstores.elim
  | setQuit pc =>
    cases pc with
    | store =>
      obtain ⟨next, out, hf⟩ := hstores
      cases hf
      exact ⟨rfl, rfl⟩
    | _ => exact hstores.elim

/-- A thread goes to sleep only where it found that it has to wait. -/
theorem action_blocked {log : List (Move × Outcome)} (hknows : p.Knows capacity q log)
    (ha : p.advances = false)
    (htarget : ((program capacity).action op t p).target q = some next) :
    next.Blocked capacity q ∧ next.broadcasts = false := by
  cases p with
  | idle =>
    cases htarget
    cases op <;> exact ⟨trivial, rfl⟩
  | queuePop pc ev =>
    cases pc with
    | advance => cases ha
    | asleep => cases htarget
    | wait =>
      cases htarget
      exact ⟨hknows.2.2, rfl⟩
    | take =>
      simp only [program, queuePop, Action.target] at htarget
      split at htarget
      · cases htarget
      · rename_i hf
        split at hf
        · cases hf
          cases htarget
          exact ⟨trivial, rfl⟩
        · cases hf
    | test =>
      simp only [program, queuePop, Action.target] at htarget
      split at htarget <;> cases htarget <;> exact ⟨trivial, rfl⟩
    | testIn =>
      simp only [program, queuePop, Action.target] at htarget
      split at htarget <;> cases htarget <;> exact ⟨trivial, rfl⟩
    | _ =>
      cases htarget
      exact ⟨trivial, rfl⟩
  | queuePush pc ev =>
    cases pc with
    | advance => cases ha
    | asleep => cases htarget
    | wait =>
      cases htarget
      exact ⟨hknows.2, rfl⟩
    | store =>
      simp only [program, queuePush, Action.target] at htarget
      split at htarget
      · cases htarget
      · rename_i hf
        split at hf
        · cases hf
          cases htarget
          exact ⟨trivial, rfl⟩
        · cases hf
    | test =>
      simp only [program, queuePush, Action.target] at htarget
      split at htarget <;> cases htarget <;> exact ⟨trivial, rfl⟩
    | _ =>
      cases htarget
      exact ⟨trivial, rfl⟩
  | isQuit pc quit | setQuit pc =>
    cases pc <;> cases htarget <;> exact ⟨trivial, rfl⟩

theorem broadcasts_holds (hb : p.broadcasts = true) : p.holds = true := by
  cases p with
  | queuePop pc ev | queuePush pc ev =>
    cases pc with
    | broadcast => rfl
    | _ => cases hb
  | _ => cases hb

theorem wakes_broadcasts (h : ((program capacity).action op t p).wakes = true) :
    p.broadcasts = true := by
  cases p with
  | idle => cases h
  | queuePop pc ev =>
    cases pc with
    | broadcast => rfl
    | _ => cases h
  | queuePush pc ev =>
    cases pc with
    | broadcast => rfl
    | _ => cases h
  | isQuit pc quit | setQuit pc => cases pc <;> cases h

/-- Whoever sleeps has to wait still, or is about to be woken. -/
def Sleeping (capacity : Nat) (s : State T) : Prop :=
  ∀ t, (s.place t).Blocked capacity s.data ∨ ∃ u, (s.place u).broadcasts = true

theorem sleeping_start (capacity : Nat) : Sleeping capacity (start capacity : State T) :=
  fun _ => .inl trivial

theorem Sleeping.wake {s : State T} (h : Sleeping capacity s) (chosen : T → Bool) :
    Sleeping capacity ((program capacity).wakeUp s chosen) := by
  intro t
  rcases wakeUp_place (program capacity) s chosen t with heq | hw
  · rcases h t with hblocked | ⟨u, hu⟩
    · rw [heq]
      exact .inl hblocked
    · refine .inr ⟨u, ?_⟩
      rw [wakeUp_of_awake chosen ?_]
      · exact hu
      · cases hw : (program capacity).woken u (s.place u) with
        | none => rfl
        | some next =>
          rw [(awake_of_woken hw).2.1] at hu
          cases hu
  · exact .inl (blocked_of_awake (awake_of_woken hw).1)

section Steps
variable [DecidableEq T] {s s' : State T} {past : List (T × Label Move Outcome)}
  {out : Option (T × Label Move Outcome)}

theorem Inv.knows (h : Inv capacity s past) (t : T) :
    (s.place t).Knows capacity s.data (attempts past) := (h.asserts t).2

/-- A turn that neither broadcasts nor advances `out`. -/
theorem turn_still (h : Inv capacity s past) (hturn : Turn (program capacity) op t s s')
    (hb : (s.place t).broadcasts = false) (ha : (s.place t).advances = false) :
    (∀ u, u ≠ t → s'.place u = s.place u) ∧
      (s'.data.in_ = s.data.in_ ∧ s'.data.out = s.data.out) ∧
      (s'.place t).Blocked capacity s.data ∧ (s'.place t).broadcasts = false := by
  refine ⟨?_, ?_, action_blocked (h.knows t) ha hturn.target⟩
  · intro u hu
    rcases hturn.others u hu with heq | ⟨hwakes, -⟩
    · exact heq
    · rw [wakes_broadcasts hwakes] at hb
      cases hb
  · rcases hturn.data with heq | ⟨-, hstores⟩
    · rw [heq]
      exact ⟨rfl, rfl⟩
    · exact action_stores ha hstores

variable [Fintype T]

/-- After a broadcast nobody sleeps. -/
theorem sleeping_broadcast {chosen : T → Bool} (hb : (s.place t).broadcasts = true)
    (hstep : (program capacity).step s (.turn t op chosen) = .ok (s', out)) :
    Sleeping capacity s' := by
  intro u
  obtain ⟨next, haction, hawake⟩ := action_broadcasts capacity op t hb
  have hself : (program capacity).woken t (s.place t) = none := by
    cases hw : (program capacity).woken t (s.place t) with
    | none => rfl
    | some next =>
      rw [(awake_of_woken hw).2.1] at hb
      cases hb
  simp only [Program.step, hself, haction] at hstep
  by_cases hu : u = t
  · subst hu
    cases hstep
    rw [State.goto_self]
    exact .inl (blocked_of_awake hawake)
  · cases hw : (program capacity).woken u (s.place u) with
    | some p =>
      rw [broadcast_wakes hu hw hstep]
      exact .inl (blocked_of_awake (awake_of_woken hw).1)
    | none =>
      rcases perform_place hstep hu with heq | ⟨-, hwoken⟩
      · rw [heq]
        exact .inl (blocked_of_awake hw)
      · rw [hw] at hwoken
        cases hwoken

theorem Sleeping.step {m : Monitor.Move Move T} (h : Sleeping capacity s)
    (hinv : Inv capacity s past)
    (hstep : (program capacity).step s m = .ok (s', out)) : Sleeping capacity s' := by
  cases m with
  | wake t =>
    cases hstep
    exact h.wake _
  | turn t op chosen =>
    rcases turn_cases hstep with rfl | hturn
    · exact h
    · cases hb : (s.place t).broadcasts with
      | true => exact sleeping_broadcast hb hstep
      | false =>
        cases ha : (s.place t).advances with
        | true => exact fun u => .inr ⟨t, action_advances ha hturn.target⟩
        | false =>
          obtain ⟨hothers, ⟨hin, hout⟩, hblocked, -⟩ := turn_still hinv hturn hb ha
          intro u
          by_cases hu : u = t
          · subst hu
            exact .inl (hblocked.congr hin hout)
          · rw [hothers u hu]
            rcases h u with hblocked | ⟨v, hv⟩
            · exact .inl (hblocked.congr hin hout)
            · refine .inr ⟨v, ?_⟩
              have hne : v ≠ t := by
                rintro rfl
                rw [hv] at hb
                cases hb
              rw [hothers v hne]
              exact hv

/-! ## The end of a sleep -/

/-- The attempts behind which a sleeping thread need not wait any more. -/
def Place.EndedBy : Place → Move × Outcome → Prop
  | .queuePop _ _, e => ∃ ev, e = (.push ev, .done)
  | .queuePush _ _, e => ∃ ev, e = (.pop, .popped ev)
  | _, _ => False

/-- The thread `t` sleeps at `p`, and nobody is about to wake it. -/
structure Stays (capacity : Nat) (t : T) (p : Place) (s : State T) : Prop where
  place : s.place t = p
  blocked : p.Blocked capacity s.data
  quiet : ∀ u, (s.place u).broadcasts = false

theorem advances_cases (ha : p.advances = true) :
    (∃ ev, p = .queuePop .advance ev) ∨ ∃ ev, p = .queuePush .advance ev := by
  cases p with
  | queuePop pc ev =>
    cases pc with
    | advance => exact .inl ⟨ev, rfl⟩
    | _ => cases ha
  | queuePush pc ev =>
    cases pc with
    | advance => exact .inr ⟨ev, rfl⟩
    | _ => cases ha
  | _ => cases ha

/-- A thread that sleeps although nothing ends its waiting meets only the other function. -/
theorem Stays.advance {chosen : T → Bool} {u : T} (h : Stays capacity t p s)
    (hasleep : (program capacity).woken t p ≠ none) (hinv : Inv capacity s past)
    (ha : (s.place u).advances = true)
    (hstep : (program capacity).step s (.turn u op chosen) = .ok (s', out)) :
    ∃ e ∈ attempts out.toList, p.EndedBy e := by
  have hblocked := h.blocked
  have hknows := hinv.knows u
  have howner := hinv.owner u
  obtain ⟨p', hw⟩ := Option.ne_none_iff_exists'.mp hasleep
  simp only [Program.step] at hstep
  rcases advances_cases ha with ⟨ev, hplace⟩ | ⟨ev, hplace⟩
  · rw [hplace] at hstep hknows howner
    have hown : s.owner = some u := howner.mpr rfl
    simp only [program, queuePop, reduceCtorEq, if_false, Program.perform, if_pos hown] at hstep
    cases hstep
    rcases woken_cases hw with ⟨ev', rfl, -⟩ | ⟨ev', rfl, -⟩
    · exact absurd hblocked hknows.2.1
    · exact ⟨_, List.mem_singleton_self _, ev, rfl⟩
  · rw [hplace] at hstep hknows howner
    have hown : s.owner = some u := howner.mpr rfl
    simp only [program, queuePush, reduceCtorEq, if_false, Program.perform, if_pos hown] at hstep
    cases hstep
    rcases woken_cases hw with ⟨ev', rfl, -⟩ | ⟨ev', rfl, -⟩
    · exact ⟨_, List.mem_singleton_self _, ev, rfl⟩
    · obtain ⟨q', -, hroom, hdata⟩ := hknows
      have hfull : Full capacity s.data := hblocked
      rw [hdata] at hfull
      exact absurd hfull hroom

theorem Stays.step {m : Monitor.Move Move T} (h : Stays capacity t p s)
    (hasleep : (program capacity).woken t p ≠ none) (hinv : Inv capacity s past)
    (hspurious : ∀ u, m ≠ .wake u)
    (hstep : (program capacity).step s m = .ok (s', out)) :
    Stays capacity t p s' ∨ ∃ e ∈ attempts out.toList, p.EndedBy e := by
  cases m with
  | wake u => exact absurd rfl (hspurious u)
  | turn u op chosen =>
    rcases turn_cases hstep with rfl | hturn
    · exact .inl h
    · cases ha : (s.place u).advances with
      | true => exact .inr (h.advance hasleep hinv ha hstep)
      | false =>
        have hne : t ≠ u := by
          intro heq
          have hawake := hturn.awake
          rw [← heq, h.place] at hawake
          exact hasleep hawake
        obtain ⟨hothers, ⟨hin, hout⟩, -, hquiet⟩ := turn_still hinv hturn (h.quiet u) ha
        refine .inl ⟨(hothers t hne).trans h.place, h.blocked.congr hin hout, ?_⟩
        intro v
        by_cases hv : v = u
        · rw [hv]
          exact hquiet
        · rw [hothers v hv]
          exact h.quiet v

theorem Stays.run {moves : List (Monitor.Move Move T)}
    {outs : List (Option (T × Label Move Outcome))}
    (h : Stays capacity t p s) (hasleep : (program capacity).woken t p ≠ none)
    (hinv : Inv capacity s past) (hspurious : ∀ u, .wake u ∉ moves)
    (hrun : run (program capacity).step s moves = .ok (s', outs)) :
    s'.place t = p ∨ ∃ e ∈ attempts (shown outs), p.EndedBy e := by
  induction moves generalizing s past outs with
  | nil =>
    cases hrun
    exact .inl h.place
  | cons m moves ih =>
    obtain ⟨s₁, out, outs', hstep, hrest, rfl⟩ := run_cons_ok_iff.mp hrun
    have hfirst : ∀ u, m ≠ .wake u := by
      intro u heq
      exact hspurious u (heq ▸ List.mem_cons_self)
    rw [shown_cons, attempts_append]
    rcases h.step hasleep hinv hfirst hstep with hstays | ⟨e, he, hended⟩
    · have hlater := ih hstays (hinv.step (linearization_valid capacity).outline hstep)
        (fun u hmem => hspurious u (List.mem_cons_of_mem m hmem)) hrest
      rcases hlater with hplace | ⟨e, he, hended⟩
      · exact .inl hplace
      · exact .inr ⟨e, List.mem_append_right _ he, hended⟩
    · exact .inr ⟨e, List.mem_append_left _ he, hended⟩

/-- In every reachable state in which the mutex is free a thread sleeps in `queue_pop` only
while the ring is empty and in `queue_push` only while it is full. From there, unless it wakes
up by itself, it sleeps until a push or a pop is carried out: `set_quit` wakes nobody. -/
theorem sleeps_on {moves moves' : List (Monitor.Move Move T)} {s s' : State T}
    {outs outs' : List (Option (T × Label Move Outcome))} (hcapacity : 0 < capacity)
    (hrun : run (program capacity).step (start capacity) moves = .ok (s, outs))
    (hfree : s.owner = none) (hspurious : ∀ u, .wake u ∉ moves')
    (hrun' : run (program capacity).step s moves' = .ok (s', outs')) (t : T) (ev : Event) :
    (s.place t = .queuePop .asleep ev → s.data.in_ = s.data.out ∧
      ((∀ ev', (.push ev', .done) ∉ attempts (shown outs')) → s'.place t = s.place t)) ∧
    (s.place t = .queuePush .asleep ev → Full capacity s.data ∧
      ((∀ ev', (.pop, .popped ev') ∉ attempts (shown outs')) → s'.place t = s.place t)) := by
  obtain ⟨hinv, hsleeping⟩ := run_shown
    (fun past s => Inv capacity s past ∧ Sleeping capacity s)
    (fun past s m s' out h hstep => ⟨h.1.step (linearization_valid capacity).outline hstep,
      h.2.step h.1 hstep⟩)
    ⟨inv_start hcapacity, sleeping_start capacity⟩ hrun
  have hquiet : ∀ u, (s.place u).broadcasts = false := by
    intro u
    cases hb : (s.place u).broadcasts with
    | false => rfl
    | true =>
      have hown := (Outline.Inv.owner hinv u).mpr (broadcasts_holds hb)
      rw [hfree] at hown
      cases hown
  have hblocked : (s.place t).Blocked capacity s.data := by
    rcases hsleeping t with hblocked | ⟨u, hu⟩
    · exact hblocked
    · rw [hquiet u] at hu
      cases hu
  have hstays : Stays capacity t (s.place t) s := ⟨rfl, hblocked, hquiet⟩
  refine ⟨?_, ?_⟩
  · intro hplace
    rw [hplace] at hblocked hstays ⊢
    refine ⟨hblocked, ?_⟩
    intro hnone
    rcases hstays.run (by simp [program]) hinv hspurious hrun' with hsame | ⟨e, he, ev', rfl⟩
    · exact hsame
    · exact absurd he (hnone ev')
  · intro hplace
    rw [hplace] at hblocked hstays ⊢
    refine ⟨hblocked, ?_⟩
    intro hnone
    rcases hstays.run (by simp [program]) hinv hspurious hrun' with hsame | ⟨e, he, ev', rfl⟩
    · exact hsame
    · exact absurd he (hnone ev')

end Steps

/-- One thread waits for an event, the other one sets `quit`. -/
theorem sleeps_on_quit : ∃ s s' outs outs',
    run (program 32).step (start 32) (List.replicate 4 (.turn false .pop fun _ => true)) =
      .ok (s, outs) ∧ s.owner = none ∧
    run (program 32).step s (List.replicate 5 (.turn true .setQuit fun _ => true)) =
      .ok (s', outs') ∧ s'.data.quit = true ∧ s'.place false = .queuePop .asleep .dummy := by
  have hsleeps : ∀ s s' outs outs',
      run (program 32).step (start 32) (List.replicate 4 (.turn false .pop fun _ => true)) =
        .ok (s, outs) → s.owner = none → s.place false = .queuePop .asleep .dummy →
      run (program 32).step s (List.replicate 5 (.turn true .setQuit fun _ => true)) =
        .ok (s', outs') → (∀ ev, (.push ev, .done) ∉ attempts (shown outs')) →
      s'.place false = .queuePop .asleep .dummy := by
    intro s s' outs outs' hwaits hfree hplace hquits hnone
    have hsleeps := sleeps_on (by decide) hwaits hfree (by simp) hquits false .dummy
    exact ((hsleeps.1 hplace).2 hnone).trans hplace
  refine ⟨_, _, _, _, rfl, rfl, rfl, rfl, hsleeps _ _ _ _ rfl rfl rfl rfl ?_⟩
  intro ev hmem
  cases hmem with
  | tail _ hmem => cases hmem

end Prgsem.RingQueue.Concurrent
