import Prgsem.Application

/-!
# The end of the application

Once `q` has been typed and `open` has returned, `main_thread` has at most three steps
left, and `queue_cleanup` a round for every event in the queue and one more. Nothing
else in between takes longer or brings anything back. As before, no push comes inside
a `queue_pop`.
-/

namespace Prgsem.Application

open CMemory Run
set_option autoImplicit false

def Move.isMain : Move → Bool
  | .main _ => true
  | _ => false

def Move.isCleanup : Move → Bool
  | .cleanup => true
  | _ => false

/-- The steps of `main_thread` until it returns, when `quit` is set. -/
def stepsLeft (s : State) : Nat :=
  match s.sys.phase with
  | .opening => 4
  | .body => 3
  | .test => if s.receiving then 2 else 1
  | .ended => 0
  | .cleaned => 0

/-- The rounds of `queue_cleanup` that are left. -/
def cleanupsLeft (s : State) : Nat :=
  if s.sys.phase = .cleaned then 0 else s.sys.q.size.toNat + 1

/-- What a step does on the way to the end. -/
structure Nears (s : State) (m : Move) (s' : State) : Prop where
  quit : s'.sys.q.quit = true
  opened : s'.sys.phase ≠ .opening
  steps : stepsLeft s' = stepsLeft s - if m.isMain then 1 else 0
  cleanups : cleanupsLeft s' ≤
    cleanupsLeft s - if stepsLeft s = 0 ∧ m.isCleanup = true then 1 else 0

theorem stepsLeft_le {s : State} (hopened : s.sys.phase ≠ .opening) : stepsLeft s ≤ 3 := by
  unfold stepsLeft
  split
  · rename_i hphase
    exact absurd hphase hopened
  · exact Nat.le_refl 3
  · split <;> decide
  · exact Nat.zero_le 3
  · exact Nat.zero_le 3

theorem stepsLeft_eq_zero_iff {s : State} :
    stepsLeft s = 0 ↔ s.sys.phase = .ended ∨ s.sys.phase = .cleaned := by
  unfold stepsLeft
  cases s.sys.phase with
  | test => cases s.receiving <;> simp
  | opening | body | ended | cleaned => simp

section Steps
variable {abi : Abi} {heap : Heap} {results : Matrix sizeX sizeY} {past : List Shown}
  {s s' : State} {x : Shown} {dropped : List UInt8} {l : List Item}

/-- A step after which both threads are where they were. -/
theorem nears_of_still {m : Move} (hquit : s.sys.q.quit = true) (hopened : s.sys.phase ≠ .opening)
    (hsys : s'.sys = s.sys) (hreceiving : s'.receiving = s.receiving)
    (hmain : m.isMain = true → stepsLeft s = 0)
    (hcleanup : m.isCleanup = true → s.sys.phase ≠ .ended) : Nears s m s' := by
  have hsteps : stepsLeft s' = stepsLeft s := by rw [stepsLeft, hsys, hreceiving, stepsLeft]
  have hcleanups : cleanupsLeft s' = cleanupsLeft s := by rw [cleanupsLeft, hsys, cleanupsLeft]
  refine ⟨by rw [hsys, hquit], by rwa [hsys], ?_, ?_⟩
  · rw [hsteps]
    split
    · rename_i hm
      rw [hmain hm]
    · rfl
  · rw [hcleanups]
    split
    · rename_i hcase
      rcases stepsLeft_eq_zero_iff.mp hcase.1 with hended | hcleaned
      · exact absurd hended (hcleanup hcase.2)
      · rw [cleanupsLeft, if_pos hcleaned]
    · exact Nat.le_refl _

/-- A step of `main_thread` that takes at most something out of the queue. -/
theorem nears_of_main {env : Env} (hquit : s'.sys.q.quit = true)
    (hopened : s'.sys.phase ≠ .opening) (hsteps : stepsLeft s' = stepsLeft s - 1)
    (hphase : s.sys.phase ≠ .cleaned) (hsize : s'.sys.q.size ≤ s.sys.q.size) :
    Nears s (.main env) s' := by
  refine ⟨hquit, hopened, hsteps, ?_⟩
  rw [if_neg (by simp [Move.isCleanup]), Nat.sub_zero, cleanupsLeft, cleanupsLeft, if_neg hphase]
  split <;> omega

theorem Inv.main_nears (h : Inv abi heap results past s dropped l) (hquit : s.sys.q.quit = true)
    (hopened : s.sys.phase ≠ .opening) {env : Env}
    (hstep : Application.step abi s (.main env) = .ok (s', x)) : Nears s (.main env) s' := by
  by_cases hreceiving : s.receiving = true
  · have hphase := h.receiving hreceiving
    cases hreceive : receive abi env s.main with
    | error e =>
      simp only [Application.step, if_pos hreceiving, hreceive, error_bind] at hstep
      cases hstep
    | ok out =>
      simp only [Application.step, if_pos hreceiving, hreceive, ok_bind] at hstep
      cases hstep
      refine nears_of_main hquit hopened ?_ (by simp [hphase]) (Int.le_refl _)
      simp [stepsLeft, hphase, hreceiving]
  by_cases hbody : s.sys.phase = .body
  · have htake : ∃ key q' log l', Ownership.takeEvent s.sys.q = .ok (key, q', log) ∧
        Represents q' l' ∧ q'.quit = s.sys.q.quit ∧ l'.length ≤ l.length := by
      cases l with
      | nil => exact ⟨_, _, _, [], Ownership.takeEvent_nil h.owned.represents,
          h.owned.represents, rfl, Nat.le_refl _⟩
      | cons y l =>
        obtain ⟨q', log, htake, hrep, hsame⟩ :=
          Ownership.takeEvent_cons h.owned.represents (h.keyboard y List.mem_cons_self)
        exact ⟨_, q', log, l, htake, hrep, hsame, by simp⟩
    obtain ⟨key, q', log, l', htake, hrep, hsame, hlen⟩ := htake
    have hbefore := h.owned.represents.count
    have hafter := hrep.count
    simp only [Application.step, if_neg hreceiving, if_pos hbody, htake, ok_bind] at hstep
    cases hevent : handleEvent abi { env with key := key } with
    | error e =>
      rw [hevent] at hstep
      cases hstep
    | ok sent =>
      rw [hevent] at hstep
      cases hstep
      refine nears_of_main ?_ (by simp) ?_ (by simp [hbody]) ?_
      · exact hsame.trans hquit
      · simp [stepsLeft, hbody]
      · simp only
        omega
  obtain ⟨⟨q, phase⟩, receiving, main⟩ := s
  simp only [Application.step, if_neg hreceiving, if_neg hbody] at hstep
  cases phase with
  | opening => exact absurd rfl hopened
  | body => exact absurd rfl hbody
  | test =>
    simp only at hquit hreceiving
    simp only [queueStep, Ownership.step, hquit, ok_bind] at hstep
    cases hstep
    refine nears_of_main hquit (by simp) ?_ (by simp) (Int.le_refl _)
    simp [stepsLeft, hreceiving]
  | ended | cleaned =>
    simp only [queueStep, Ownership.step, ok_bind] at hstep
    cases hstep
    exact nears_of_still hquit hopened rfl rfl (fun _ => rfl) (by simp [Move.isCleanup])

theorem Inv.cleanup_nears (h : Inv abi heap results past s dropped l)
    (hquit : s.sys.q.quit = true) (hopened : s.sys.phase ≠ .opening)
    (hstep : Application.step abi s .cleanup = .ok (s', x)) : Nears s .cleanup s' := by
  obtain ⟨⟨q, phase⟩, receiving, main⟩ := s
  by_cases hended : phase = .ended
  · subst hended
    simp only at hquit
    have hcount := h.owned.represents.count
    cases l with
    | nil =>
      have hsize : ¬ 0 < q.size := fun hpos => h.owned.represents.size_pos_iff.mp hpos rfl
      simp only [Application.step, queueStep, Ownership.step, hquit, and_self, if_true,
        if_neg hsize, ok_bind] at hstep
      cases hstep
      exact ⟨hquit, by simp, rfl, by simp [cleanupsLeft]⟩
    | cons y l =>
      have hsize : 0 < q.size := h.owned.represents.size_pos_iff.mpr (List.cons_ne_nil y l)
      obtain ⟨q', e, hpop, -, hsame, -, -, -, -, hfree, hrep⟩ := h.owned.represents.pop_free
      have hafter := hrep.count
      simp only [Application.step, queueStep, Ownership.step, hquit, and_self, if_true,
        if_pos hsize, hpop, ok_bind, hfree] at hstep
      cases hstep
      refine ⟨hsame.trans hquit, by simp, rfl, ?_⟩
      simp only [List.length_cons] at hcount hafter
      simp [cleanupsLeft, stepsLeft, Move.isCleanup]
      omega
  · have hnot : ¬ (phase = .ended ∧ q.quit = true) := fun hboth => hended hboth.1
    simp only [Application.step, queueStep, Ownership.step, if_neg hnot, ok_bind] at hstep
    cases hstep
    exact nears_of_still hquit hopened rfl rfl (by simp [Move.isMain]) fun _ => hended

theorem Inv.nears (h : Inv abi heap results past s dropped l) (hquit : s.sys.q.quit = true)
    (hopened : s.sys.phase ≠ .opening) {m : Move}
    (hstep : Application.step abi s m = .ok (s', x)) : Nears s m s' := by
  cases m with
  | opened fd =>
    obtain ⟨⟨q, phase⟩, receiving, main⟩ := s
    cases phase with
    | opening => exact absurd rfl hopened
    | test | body | ended | cleaned =>
      cases hstep
      exact nears_of_still hquit hopened rfl rfl (by simp [Move.isMain]) (by simp [Move.isCleanup])
  | key a junk c =>
    simp only [Application.step, queueStep, Ownership.step, if_pos hquit, ok_bind] at hstep
    cases hstep
    exact nears_of_still hquit hopened rfl rfl (by simp [Move.isMain]) (by simp [Move.isCleanup])
  | arrive outcomes =>
    cases hstep
    exact nears_of_still hquit hopened rfl rfl (by simp [Move.isMain]) (by simp [Move.isCleanup])
  | main env => exact h.main_nears hquit hopened hstep
  | cleanup => exact h.cleanup_nears hquit hopened hstep

/-- No step with a defined behaviour fails. -/
theorem Inv.runs (h : Inv abi heap results past s dropped l) {moves : List Move}
    (halong : Along (Application.step abi) (fun s m => Fresh s m ∧ ¬ Undefined s m) s moves) :
    ∃ t shown, run (Application.step abi) s moves = .ok (t, shown) := by
  have hkeep : ∀ past s m, (∃ dropped l, Inv abi heap results past s dropped l) →
      Fresh s m ∧ ¬ Undefined s m → ∃ s' x, Application.step abi s m = .ok (s', x) ∧
        ∃ dropped l, Inv abi heap results (past ++ [x]) s' dropped l := by
    intro past s m hinv hlegal
    obtain ⟨dropped, l, hinv⟩ := hinv
    rcases hinv.step hlegal.1 with ⟨hundef, -⟩ | ⟨-, s', x, dropped', l', hstep, hinv'⟩
    · exact absurd hundef hlegal.2
    · exact ⟨s', x, hstep, dropped', l', hinv'⟩
  obtain ⟨t, shown, hrun, -⟩ := run_total _ hkeep ⟨dropped, l, h⟩ halong
  exact ⟨t, shown, hrun⟩

/-- A state of a run in which `quit` is set and the port has been tried. -/
def Stopping (abi : Abi) (heap : Heap) (results : Matrix sizeX sizeY) (s : State) : Prop :=
  (∃ past dropped l, Inv abi heap results past s dropped l) ∧ s.sys.q.quit = true ∧
    s.sys.phase ≠ .opening

theorem Stopping.step {m : Move} (h : Stopping abi heap results s) (hfresh : Fresh s m)
    (hstep : Application.step abi s m = .ok (s', x)) :
    Stopping abi heap results s' ∧ Nears s m s' := by
  obtain ⟨⟨past, dropped, l, hinv⟩, hquit, hopened⟩ := h
  have hnears := hinv.nears hquit hopened hstep
  obtain ⟨dropped', l', hinv'⟩ := (hinv.step hfresh).keeps hstep
  exact ⟨⟨⟨_, dropped', l', hinv'⟩, hnears.quit, hnears.opened⟩, hnears⟩

theorem Stopping.main_returns (h : Stopping abi heap results s) {moves : List Move} {t : State}
    {shown : List Shown} (halong : Along (Application.step abi) Fresh s moves)
    (hrun : run (Application.step abi) s moves = .ok (t, shown)) :
    Stopping abi heap results t ∧ stepsLeft t ≤ stepsLeft s - moves.countP Move.isMain ∧
      cleanupsLeft t ≤ cleanupsLeft s := by
  have hsteps := run_countdown (Stopping abi heap results) stepsLeft Move.isMain
    (fun s m s' x hs hfresh hstep =>
      ⟨(hs.step hfresh hstep).1, Nat.le_of_eq (hs.step hfresh hstep).2.steps⟩) h halong hrun
  have hcleanups := run_countdown (Stopping abi heap results) cleanupsLeft (fun _ => false)
    (fun s m s' x hs hfresh hstep =>
      ⟨(hs.step hfresh hstep).1, (hs.step hfresh hstep).2.cleanups.trans (Nat.sub_le _ _)⟩)
    h halong hrun
  exact ⟨hsteps.1, hsteps.2, hcleanups.2.trans (Nat.sub_le _ _)⟩

theorem Stopping.cleanup_returns (h : Stopping abi heap results s) (hended : stepsLeft s = 0)
    {moves : List Move} {t : State} {shown : List Shown}
    (halong : Along (Application.step abi) Fresh s moves)
    (hrun : run (Application.step abi) s moves = .ok (t, shown)) :
    cleanupsLeft t ≤ cleanupsLeft s - moves.countP Move.isCleanup := by
  refine (run_countdown (fun s => Stopping abi heap results s ∧ stepsLeft s = 0) cleanupsLeft
    Move.isCleanup ?_ ⟨h, hended⟩ halong hrun).2
  intro s m s' x hs hfresh hstep
  obtain ⟨hstops, hnears⟩ := hs.1.step hfresh hstep
  have hsteps := hnears.steps
  have hcleanups := hnears.cleanups
  rw [hs.2, Nat.zero_sub] at hsteps
  simp only [hs.2, true_and] at hcleanups
  exact ⟨⟨hstops, hsteps⟩, hcleanups⟩

end Steps

/-- Three steps of `main_thread` and, after them, a round of `queue_cleanup` for each event
left and one more end the program, whatever comes between them. Everything allocated has then
been freed, and every key that was typed was handled or dropped. This is about runs whose
operations on the queue do not overlap. -/
theorem quit_ends (abi : Abi) (heap : Heap) (results : Matrix sizeX sizeY)
    {moves mains cleanups : List Move} {s : State} {shown : List Shown}
    (halong : Along (step abi) Fresh (start heap results) moves)
    (hrun : run (step abi) (start heap results) moves = .ok (s, shown))
    (hquit : s.sys.q.quit = true) (hopened : s.sys.phase ≠ .opening)
    (hmore : Along (step abi) (fun s m => Fresh s m ∧ ¬ Undefined s m) s (mains ++ cleanups))
    (hmains : 3 ≤ mains.countP Move.isMain)
    (hcleanups : s.sys.q.size < cleanups.countP Move.isCleanup) :
    ∃ t shown', run (step abi) s (mains ++ cleanups) = .ok (t, shown') ∧
      t.sys.phase = .cleaned ∧ t.sys.q.heap = heap ∧
      Ownership.mallocs (allocs (shown ++ shown')) = Ownership.frees (allocs (shown ++ shown')) ∧
      ∃ dropped, typedKeys (shown ++ shown') = poppedKeys (shown ++ shown') ++ dropped := by
  obtain ⟨dropped, l, hinv⟩ := inv_run heap results halong hrun
  obtain ⟨t, shown', hrest⟩ := hinv.runs hmore
  have hfresh : Along (step abi) Fresh s (mains ++ cleanups) := hmore.imp fun _ _ h => h.1
  have hstopping : Stopping abi heap results s := ⟨⟨_, dropped, l, hinv⟩, hquit, hopened⟩
  obtain ⟨u, shown₁, shown₂, hfirst, hsecond, rfl⟩ := run_append_ok_iff.mp hrest
  obtain ⟨hmain, hcleanup⟩ := along_append.mp hfresh
  obtain ⟨hu, hsteps, hless⟩ := hstopping.main_returns hmain hfirst
  have hthree := stepsLeft_le hopened
  have hcount := hinv.owned.represents.count
  have hended : stepsLeft u = 0 := by omega
  have hleft := hu.cleanup_returns hended (hcleanup u shown₁ hfirst) hsecond
  have hcleaned : t.sys.phase = .cleaned := by
    by_contra hphase
    have hsize : cleanupsLeft s ≤ s.sys.q.size.toNat + 1 := by
      unfold cleanupsLeft
      split <;> omega
    rw [cleanupsLeft, if_neg hphase] at hleft
    omega
  obtain ⟨dropped', l', hinv'⟩ := inv_run heap results
    (along_append_of_ok halong hrun hfresh) (run_append hrun hrest)
  obtain ⟨-, -, hfreed, hheap⟩ := hinv'.owned.owned.cleaned hcleaned
  obtain ⟨-, rfl⟩ := hinv'.owned.quit hcleaned
  refine ⟨t, _, hrest, hcleaned, hheap, hfreed, dropped', ?_⟩
  rw [hinv'.keys, List.map_nil, List.append_nil]

/-- `q` is typed while the key before it is still waiting. -/
theorem quit_ends_waiting : ∃ s shown,
    run (step .sysV) (start (fun _ => none) (.init sizeX sizeY fun _ => 0))
      [.opened 3, .key 0 none 'g'.toUInt8, .key 1 none 'q'.toUInt8] = .ok (s, shown) ∧
    ∃ t shown', run (step .sysV) s ([.main Env.zero, .main Env.zero, .main Env.zero] ++
      [.cleanup, .cleanup]) = .ok (t, shown') ∧
    t.sys.phase = .cleaned ∧ t.sys.q.heap = (fun _ => none) ∧
    Ownership.mallocs (allocs (shown ++ shown')) = Ownership.frees (allocs (shown ++ shown')) ∧
    ∃ dropped, typedKeys (shown ++ shown') = poppedKeys (shown ++ shown') ++ dropped := by
  have hrun : run (step .sysV) (start (fun _ => none) (.init sizeX sizeY fun _ => 0))
      [.opened 3, .key 0 none 'g'.toUInt8, .key 1 none 'q'.toUInt8] = .ok (_, _) := rfl
  have hdefined (s : State) (hreceiving : s.receiving = false) (hphase : s.sys.phase ≠ .body) :
      ¬ Undefined s (.main Env.zero) := by
    simp [Undefined, hreceiving, hphase]
  refine ⟨_, _, hrun, @quit_ends .sysV _ _ _ [.main Env.zero, .main Env.zero, .main Env.zero]
    [.cleanup, .cleanup] _ _ ?_ hrun rfl ?_ ?_ ?_ ?_⟩
  · exact along_cons trivial rfl (along_cons (fun _ => rfl) rfl (along_singleton fun _ => rfl))
  · decide
  · refine along_cons ⟨trivial, hdefined _ rfl (by decide)⟩ rfl ?_
    refine along_cons ⟨trivial, hdefined _ rfl (by decide)⟩ rfl ?_
    refine along_cons ⟨trivial, hdefined _ rfl (by decide)⟩ rfl ?_
    exact along_cons ⟨trivial, id⟩ rfl (along_singleton ⟨trivial, id⟩)
  · decide
  · decide

end Prgsem.Application
