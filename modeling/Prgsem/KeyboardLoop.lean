import Prgsem.EventOwnership

/-!
# The loop of the keyboard thread

`keyboard_thread` with its input: the bytes typed, and the end of file from then
on. `main_thread` may take events between any two rounds. The result of `getchar`
is narrowed to a `char`, so that the end of file is the key 255, and the loop is
left for the key `q` alone.
-/

namespace Prgsem.KeyboardLoop

open CMemory Run Ownership
set_option autoImplicit false

inductive MutexOp where
  | lock
  | unlock
  deriving DecidableEq, Repr

def eof : Int := -1

/-- `getchar()`, and the input behind what it has read. -/
def getchar : List UInt8 → Int × List UInt8
  | [] => (eof, [])
  | b :: input => (b.toNat, input)

structure State where
  q : EventQueue
  input : List UInt8

/-- What a round of the loop does: its operations on `event_queue.mtx` and the key
that it pushes. -/
structure Round where
  mutex : List MutexOp
  pushed : Option UInt8

/-- `queue_push` with the event of the key `c`, and its operations on the mutex. -/
def queuePushLocked (a : Addr) (junk : Option Addr) (c : UInt8) (q : EventQueue) :
    Except Fault (EventQueue × List MutexOp) := do
  let q ← keyboardPush a junk c q
  return (q, [.lock, .unlock])

/-- The body of the loop, where `malloc` returns `a`. -/
def body (a : Addr) (junk : Option Addr) (s : State) : Except Fault (State × Round) := do
  let (ch, input) := getchar s.input
  let c := UInt8.ofInt ch
  if c = 'q'.toUInt8 then
    return (⟨{ s.q with quit := true }, input⟩,
      ⟨[.unlock] ++ [.lock, .unlock] ++ [.lock], none⟩)
  else
    let (q, ops) ← queuePushLocked a junk c s.q
    return (⟨q, input⟩, ⟨[.unlock] ++ ops ++ [.lock], some c⟩)

/-- `keyboard_thread` makes a round of its loop unless it has left it, or `main_thread`
takes an event. -/
inductive Move where
  | keyboard (a : Addr) (junk : Option Addr)
  | main

def step (s : State) : Move → Except Fault (State × Option Round)
  | .keyboard a junk =>
    if s.q.quit then .ok (s, none)
    else do
      let (s, round) ← body a junk s
      return (s, some round)
  | .main => do
    let (_, q, _) ← takeEvent s.q
    return ({ s with q := q }, none)

def start (input : List UInt8) : State := ⟨.empty fun _ => none, input⟩

/-- `malloc` returns the address of no event that is allocated. -/
def Fresh (s : State) : Move → Prop
  | .keyboard a _ => s.q.heap a = none
  | .main => True

/-- The rounds that `keyboard_thread` has had time for. -/
def turns (moves : List Move) : Nat :=
  moves.countP fun
    | .keyboard _ _ => true
    | .main => false

/-- The mutex in either branch of a round. -/
def roundOps : List MutexOp := [.unlock, .lock, .unlock, .lock]

def pushedKeys (outs : List (Option Round)) : List UInt8 := (shown outs).filterMap Round.pushed

/-- The keys typed before the first `q`. -/
def keysBeforeQuit (input : List UInt8) : List UInt8 := input.takeWhile (· ≠ 'q'.toUInt8)

@[simp] theorem pushedKeys_none (outs : List (Option Round)) :
    pushedKeys (outs ++ [none]) = pushedKeys outs := by
  simp [pushedKeys]

@[simp] theorem pushedKeys_some (outs : List (Option Round)) (ops : List MutexOp)
    (key : Option UInt8) :
    pushedKeys (outs ++ [some ⟨ops, key⟩]) = pushedKeys outs ++ key.toList := by
  cases key <;> simp [pushedKeys]

@[simp] theorem turns_keyboard (moves : List Move) (a : Addr) (junk : Option Addr) :
    turns (moves ++ [.keyboard a junk]) = turns moves + 1 := by
  simp [turns]

@[simp] theorem turns_main (moves : List Move) : turns (moves ++ [.main]) = turns moves := by
  simp [turns]

theorem keysBeforeQuit_quit (input : List UInt8) : keysBeforeQuit ('q'.toUInt8 :: input) = [] := by
  simp [keysBeforeQuit]

theorem keysBeforeQuit_cons {b : UInt8} (hb : b ≠ 'q'.toUInt8) (input : List UInt8) :
    keysBeforeQuit (b :: input) = b :: keysBeforeQuit input := by
  simp [keysBeforeQuit, hb]

/-! ## One round -/

theorem ofInt_toNat (b : UInt8) : UInt8.ofInt b.toNat = b := by
  apply UInt8.toNat_inj.mp
  have hlt := b.toNat_lt
  simp only [UInt8.ofInt, UInt8.toNat_ofNat']
  omega

section Steps
variable {q : EventQueue} {input rest : List UInt8} {c : UInt8} {ch : Int} {l : List Item} {a : Addr}

theorem step_left (junk : Option Addr) (hquit : q.quit = true) :
    step ⟨q, input⟩ (.keyboard a junk) = .ok (⟨q, input⟩, none) := by
  simp only [step, if_pos hquit]

theorem step_quit (junk : Option Addr) (hquit : q.quit = false) (hget : getchar input = (ch, rest))
    (hc : UInt8.ofInt ch = 'q'.toUInt8) :
    step ⟨q, input⟩ (.keyboard a junk) =
      .ok (⟨{ q with quit := true }, rest⟩, some ⟨roundOps, none⟩) := by
  simp only [step, hquit, Bool.false_eq_true, if_false, body, hget, if_pos hc]
  rfl

theorem step_push (junk : Option Addr) (h : Represents q l) (hquit : q.quit = false)
    (hget : getchar input = (ch, rest)) (hc : UInt8.ofInt ch ≠ 'q'.toUInt8)
    (hroom : q.size < intMax) (ha : q.heap a = none) :
    ∃ q', step ⟨q, input⟩ (.keyboard a junk) =
        .ok (⟨q', rest⟩, some ⟨roundOps, some (UInt8.ofInt ch)⟩) ∧
      Represents q' (l ++ [⟨a, keyContent (UInt8.ofInt ch)⟩]) ∧ q'.quit = false ∧
      ∀ b, b ∉ addrs l → b ≠ a → q'.heap b = q.heap b := by
  obtain ⟨q', hpush, hrep, hquit', -, -, hframe⟩ :=
    h.keyboardPush junk (UInt8.ofInt ch) hroom ha
  refine ⟨q', ?_, hrep, hquit'.trans hquit, hframe⟩
  simp only [step, hquit, Bool.false_eq_true, if_false, body, hget, if_neg hc, queuePushLocked,
    hpush, ok_bind]
  rfl

theorem step_overflow (junk : Option Addr) (h : Represents q l) (hquit : q.quit = false)
    (hget : getchar input = (ch, rest)) (hc : UInt8.ofInt ch ≠ 'q'.toUInt8)
    (hfull : q.size = intMax) (ha : q.heap a = none) :
    step ⟨q, input⟩ (.keyboard a junk) = .error .overflow := by
  have hl : l ≠ [] := by
    apply h.size_pos_iff.mp
    rw [hfull]
    decide
  have hpush := keyboardPush_overflow junk (UInt8.ofInt ch) h.toLinked hl hfull ha
  simp only [step, hquit, Bool.false_eq_true, if_false, body, hget, if_neg hc, queuePushLocked,
    hpush, error_bind]

end Steps

/-! ## Inputs with a `q` -/

/-- What holds while the keys before the first `q` are pushed. -/
structure Inv (input : List UInt8) (moves : List Move) (past : List (Option Round)) (s : State)
    (l : List Item) : Prop where
  represents : Represents s.q l
  keyboard : ∀ x ∈ l, x.content.type = .keyboard
  queued : l.length ≤ (pushedKeys past).length
  running : s.q.quit = false → 'q'.toUInt8 ∈ s.input ∧
    turns moves + s.input.length = input.length ∧
    keysBeforeQuit input = pushedKeys past ++ keysBeforeQuit s.input
  left : s.q.quit = true → keysBeforeQuit input = pushedKeys past

theorem inv_start {input : List UInt8} (h : 'q'.toUInt8 ∈ input) :
    Inv input [] [] (start input) [] where
  represents := represents_empty _
  keyboard := by simp
  queued := by simp
  running := fun _ => ⟨h, by simp [turns, start], rfl⟩
  left := by simp [start, EventQueue.empty]

section Inv
variable {input : List UInt8} {moves : List Move} {past : List (Option Round)} {s : State}
variable {l : List Item} {a : Addr}

/-- A round that reads a key other than `q`. -/
theorem Inv.key {q : EventQueue} {b : UInt8} {rest : List UInt8}
    (h : Inv input moves past ⟨q, b :: rest⟩ l) (junk : Option Addr) (hrun : q.quit = false)
    (hb : b ≠ 'q'.toUInt8) (hroom : ((keysBeforeQuit input).length : Int) ≤ intMax)
    (ha : q.heap a = none) :
    ∃ s' out l', step ⟨q, b :: rest⟩ (.keyboard a junk) = .ok (s', out) ∧
      Inv input (moves ++ [.keyboard a junk]) (past ++ [out]) s' l' := by
  obtain ⟨hmem, hturns, hkeys⟩ := h.running hrun
  simp only at hmem hturns hkeys
  rw [keysBeforeQuit_cons hb] at hkeys
  have hcount : q.size = l.length := h.represents.count
  have hqueued := h.queued
  have hsmall : q.size < intMax := by
    have hlen := congrArg List.length hkeys
    simp only [List.length_append, List.length_cons] at hlen
    omega
  have hget : getchar (b :: rest) = ((b.toNat : Int), rest) := rfl
  have hkey : UInt8.ofInt b.toNat = b := ofInt_toNat b
  obtain ⟨q', hstep, hrep, hquit, -⟩ :=
    step_push junk h.represents hrun hget (by rwa [hkey]) hsmall ha
  rw [hkey] at hstep hrep
  refine ⟨_, _, _, hstep, hrep, ?_, ?_, ?_, ?_⟩
  · intro x hx
    rcases List.mem_append.mp hx with hx | hx
    · exact h.keyboard x hx
    · cases List.mem_singleton.mp hx
      rfl
  · simp only [pushedKeys_some, List.length_append, List.length_singleton, Option.toList_some]
    omega
  · intro _
    refine ⟨(List.mem_cons.mp hmem).resolve_left (Ne.symm hb), ?_, ?_⟩
    · rw [List.length_cons] at hturns
      simp only [turns_keyboard]
      omega
    · simp only [hkeys, pushedKeys_some, Option.toList_some, List.append_assoc,
        List.singleton_append]
  · intro hleft
    rw [hquit] at hleft
    cases hleft

theorem Inv.keyboardMove (h : Inv input moves past s l) (junk : Option Addr)
    (hroom : ((keysBeforeQuit input).length : Int) ≤ intMax) (ha : s.q.heap a = none) :
    ∃ s' out l', step s (.keyboard a junk) = .ok (s', out) ∧
      Inv input (moves ++ [.keyboard a junk]) (past ++ [out]) s' l' := by
  obtain ⟨q, bytes⟩ := s
  by_cases hquit : q.quit = true
  · refine ⟨⟨q, bytes⟩, none, l, step_left junk hquit, h.represents, h.keyboard, ?_, ?_, ?_⟩
    · rw [pushedKeys_none]
      exact h.queued
    · intro hrun
      rw [hquit] at hrun
      cases hrun
    · rw [pushedKeys_none]
      exact h.left
  · have hrun : q.quit = false := Bool.eq_false_of_not_eq_true hquit
    obtain ⟨hmem, -, hkeys⟩ := h.running hrun
    cases bytes with
    | nil => cases hmem
    | cons b rest =>
      by_cases hb : b = 'q'.toUInt8
      · subst hb
        have hget : getchar ('q'.toUInt8 :: rest) = (('q'.toUInt8.toNat : Int), rest) := rfl
        refine ⟨_, _, l, step_quit junk hrun hget (ofInt_toNat _), h.represents.withQuit true,
          h.keyboard, ?_, ?_, ?_⟩
        · rw [pushedKeys_some, Option.toList_none, List.append_nil]
          exact h.queued
        · intro hrun'
          cases hrun'
        · intro _
          rw [hkeys, keysBeforeQuit_quit, pushedKeys_some, Option.toList_none]
      · exact h.key junk hrun hb hroom ha

theorem Inv.main (h : Inv input moves past s l) :
    ∃ s' out l', step s .main = .ok (s', out) ∧
      Inv input (moves ++ [.main]) (past ++ [out]) s' l' := by
  obtain ⟨q, bytes⟩ := s
  obtain ⟨key, q', log, l', htake, hrep, hquit, hkeyboard, hlen⟩ : ∃ key q' log l',
      takeEvent q = .ok (key, q', log) ∧ Represents q' l' ∧ q'.quit = q.quit ∧
        (∀ x ∈ l', x.content.type = .keyboard) ∧ l'.length ≤ l.length := by
    cases l with
    | nil => exact ⟨_, q, _, [], takeEvent_nil h.represents, h.represents, rfl, h.keyboard, by simp⟩
    | cons x l =>
      obtain ⟨q', log, htake, hrep, hquit⟩ :=
        takeEvent_cons h.represents (h.keyboard x List.mem_cons_self)
      exact ⟨_, q', log, l, htake, hrep, hquit,
        fun y hy => h.keyboard y (List.mem_cons_of_mem x hy), by simp⟩
  have hqueued := h.queued
  refine ⟨⟨q', bytes⟩, none, l', ?_, hrep, hkeyboard, ?_, ?_, ?_⟩
  · simp only [step, htake, ok_bind]
    rfl
  · rw [pushedKeys_none]
    omega
  · rw [pushedKeys_none, turns_main]
    exact fun hrun => h.running (hquit.symm.trans hrun)
  · rw [pushedKeys_none]
    exact fun hleft => h.left (hquit.symm.trans hleft)

end Inv

/-- The loop ends after as many rounds as there are bytes of input, if not before. -/
theorem left_of_quit {input : List UInt8} (hmem : 'q'.toUInt8 ∈ input)
    (hroom : ((keysBeforeQuit input).length : Int) ≤ intMax) {moves : List Move}
    (hfresh : Along step Fresh (start input) moves) (hturns : input.length ≤ turns moves) :
    ∃ t outs, run step (start input) moves = .ok (t, outs) ∧ t.q.quit = true ∧
      pushedKeys outs = keysBeforeQuit input := by
  obtain ⟨t, outs, hrun, l, hinv⟩ := run_total_history
    (fun moves past s => ∃ l, Inv input moves past s l) (P := Fresh) (by
      rintro moves past s move ⟨l, hinv⟩ hmove
      cases move with
      | keyboard a junk =>
        obtain ⟨s', out, l', hstep, hinv'⟩ := hinv.keyboardMove junk hroom hmove
        exact ⟨s', out, hstep, l', hinv'⟩
      | main =>
        obtain ⟨s', out, l', hstep, hinv'⟩ := hinv.main
        exact ⟨s', out, hstep, l', hinv'⟩) [] ⟨[], inv_start hmem⟩ hfresh
  refine ⟨t, outs, hrun, ?_⟩
  by_cases hquit : t.q.quit = true
  · exact ⟨hquit, (hinv.left hquit).symm⟩
  · obtain ⟨hrest, hcount, -⟩ := hinv.running (by simpa using hquit)
    have hpos := List.length_pos_of_mem hrest
    rw [List.nil_append] at hcount
    omega

/-! ## All inputs -/

/-- Only the keyboard moves, and every event has a new address. -/
def typing (n : Nat) : List Move := (List.range n).map fun a => .keyboard a none

/-- What a run of rounds alone leaves, whatever the input: all events pushed are
still queued, so there are no more than the counter can count. -/
structure Typed (input : List UInt8) (n : Nat) (past : List (Option Round)) (s : State)
    (l : List Item) : Prop where
  represents : Represents s.q l
  queued : l.length = (pushedKeys past).length
  counted : (l.length : Int) ≤ intMax
  free : ∀ a, n ≤ a → s.q.heap a = none
  below : ∀ a ∈ addrs l, a < n
  suffix : ∀ b ∈ s.input, b ∈ input
  quit : s.q.quit = true → 'q'.toUInt8 ∈ input

theorem typed_start (input : List UInt8) : Typed input 0 [] (start input) [] where
  represents := represents_empty _
  queued := rfl
  counted := by decide
  free := fun _ _ => rfl
  below := by simp [addrs]
  suffix := fun _ hb => hb
  quit := by simp [start, EventQueue.empty]

/-- The end of the file is not the key `q`. -/
theorem getchar_cases (input : List UInt8) : ∃ ch rest, getchar input = (ch, rest) ∧
    (∀ b ∈ rest, b ∈ input) ∧ (UInt8.ofInt ch = 'q'.toUInt8 → 'q'.toUInt8 ∈ input) := by
  cases input with
  | nil => exact ⟨eof, [], rfl, by simp, by decide⟩
  | cons b rest =>
    refine ⟨b.toNat, rest, rfl, fun x hx => List.mem_cons_of_mem b hx, ?_⟩
    intro hc
    rw [ofInt_toNat] at hc
    rw [← hc]
    exact List.mem_cons_self

theorem Typed.push {input : List UInt8} {n : Nat} {past : List (Option Round)} {q q' : EventQueue}
    {bytes rest : List UInt8} {l : List Item} {key : UInt8} (h : Typed input n past ⟨q, bytes⟩ l)
    (hsuffix : ∀ b ∈ rest, b ∈ input) (hroom : q.size < intMax)
    (hrep : Represents q' (l ++ [⟨n, keyContent key⟩])) (hquit : q'.quit = false)
    (hframe : ∀ b, b ∉ addrs l → b ≠ n → q'.heap b = q.heap b) :
    Typed input (n + 1) (past ++ [some ⟨roundOps, some key⟩]) ⟨q', rest⟩
      (l ++ [⟨n, keyContent key⟩]) where
  represents := hrep
  queued := by
    simp only [pushedKeys_some, List.length_append, List.length_singleton, Option.toList_some,
      h.queued]
  counted := by
    have hcount : q.size = l.length := h.represents.count
    rw [List.length_append, List.length_singleton]
    omega
  free := by
    intro a ha
    have hnotin : a ∉ addrs l := by
      intro hmem
      exact absurd (h.below a hmem) (Nat.not_lt.mpr (Nat.le_of_lt ha))
    exact (hframe a hnotin (Nat.ne_of_gt ha)).trans (h.free a (Nat.le_of_lt ha))
  below := by
    intro a ha
    rw [addrs_append, List.mem_append] at ha
    rcases ha with ha | ha
    · exact Nat.lt_succ_of_lt (h.below a ha)
    · rw [List.mem_singleton.mp ha]
      exact Nat.lt_succ_self n
  suffix := hsuffix
  quit := by
    intro hleft
    rw [hquit] at hleft
    cases hleft

theorem Typed.step {input : List UInt8} {n : Nat} {past : List (Option Round)} {s : State}
    {l : List Item} (h : Typed input n past s l) :
    (∃ e, step s (.keyboard n none) = .error e) ∨
    ∃ s' out l', step s (.keyboard n none) = .ok (s', out) ∧
      Typed input (n + 1) (past ++ [out]) s' l' := by
  obtain ⟨q, bytes⟩ := s
  have hbelow (a : Addr) (ha : a ∈ addrs l) : a < n + 1 := Nat.lt_succ_of_lt (h.below a ha)
  have hfree (a : Addr) (ha : n + 1 ≤ a) : q.heap a = none := h.free a (Nat.le_of_lt ha)
  by_cases hquit : q.quit = true
  · refine .inr ⟨_, none, l, step_left none hquit, h.represents, ?_, h.counted, hfree, hbelow,
      h.suffix, h.quit⟩
    rw [pushedKeys_none]
    exact h.queued
  · have hrun : q.quit = false := Bool.eq_false_of_not_eq_true hquit
    obtain ⟨ch, rest, hget, hrest, hq⟩ := getchar_cases bytes
    have hsuffix (b : UInt8) (hb : b ∈ rest) : b ∈ input := h.suffix b (hrest b hb)
    have hnew : q.heap n = none := h.free n (Nat.le_refl n)
    by_cases hc : UInt8.ofInt ch = 'q'.toUInt8
    · refine .inr ⟨_, _, l, step_quit none hrun hget hc, h.represents.withQuit true, ?_, h.counted,
        hfree, hbelow, hsuffix, fun _ => h.suffix _ (hq hc)⟩
      rw [pushedKeys_some, Option.toList_none, List.append_nil]
      exact h.queued
    · by_cases hfull : q.size = intMax
      · exact .inl ⟨_, step_overflow none h.represents hrun hget hc hfull hnew⟩
      · have hcount : q.size = l.length := h.represents.count
        have hcounted := h.counted
        have hsmall : q.size < intMax := by omega
        obtain ⟨q', hstep, hrep, hquit', hframe⟩ :=
          step_push none h.represents hrun hget hc hsmall hnew
        exact .inr ⟨_, _, _, hstep, h.push hsuffix hsmall hrep hquit' hframe⟩

theorem typing_succ (n : Nat) : typing (n + 1) = typing n ++ [.keyboard n none] := by
  simp [typing, List.range_succ]

theorem run_typing (input : List UInt8) (n : Nat) :
    Along step Fresh (start input) (typing n) ∧
    ((∃ e, run step (start input) (typing n) = .error e) ∨
      ∃ t outs l, run step (start input) (typing n) = .ok (t, outs) ∧ Typed input n outs t l) := by
  induction n with
  | zero => exact ⟨trivial, .inr ⟨_, [], [], rfl, typed_start input⟩⟩
  | succ n ih =>
    rw [typing_succ]
    obtain ⟨hfresh, ⟨e, herror⟩ | ⟨t, outs, l, hrun, htyped⟩⟩ := ih
    · exact ⟨along_append_of_error hfresh herror, .inl ⟨e, run_error_append herror⟩⟩
    · refine ⟨along_append_of_ok hfresh hrun (along_singleton (htyped.free n (Nat.le_refl n))), ?_⟩
      rcases htyped.step with ⟨e, herror⟩ | ⟨s', out, l', hstep, htyped'⟩
      · exact .inl ⟨e, run_append_error hrun (by simp only [run, herror])⟩
      · exact .inr ⟨s', _, l', run_append hrun (run_cons hstep rfl), htyped'⟩

/-- However the rounds are scheduled, and whatever addresses `malloc` returns, the
loop is left after finitely many of them, with one event pushed for each key before
the first `q`, or before the end of the file. -/
def Ends (input : List UInt8) : Prop :=
  ∃ n, ∀ moves, Along step Fresh (start input) moves → n ≤ turns moves →
    ∃ t outs, run step (start input) moves = .ok (t, outs) ∧ t.q.quit = true ∧
      pushedKeys outs = keysBeforeQuit input

theorem turns_typing (n : Nat) : turns (typing n) = n := by
  induction n with
  | zero => rfl
  | succ n ih =>
    rw [typing_succ, turns_keyboard, ih]

theorem quit_of_ends {input : List UInt8} (h : Ends input) :
    'q'.toUInt8 ∈ input ∧ ((keysBeforeQuit input).length : Int) ≤ intMax := by
  obtain ⟨n, hends⟩ := h
  obtain ⟨hfresh, hresult⟩ := run_typing input n
  obtain ⟨t, outs, hrun, hquit, hkeys⟩ := hends (typing n) hfresh (Nat.le_of_eq (turns_typing n).symm)
  rcases hresult with ⟨e, herror⟩ | ⟨t', outs', l, hrun', htyped⟩
  · rw [hrun] at herror
    cases herror
  · rw [hrun] at hrun'
    cases hrun'
    refine ⟨htyped.quit hquit, ?_⟩
    rw [← hkeys, ← htyped.queued]
    exact htyped.counted

/-- The loop ends for the inputs with a `q` and for no others. The keys before it
have to fit into the counter of the queue. -/
theorem ends_iff (input : List UInt8) : Ends input ↔
    'q'.toUInt8 ∈ input ∧ ((keysBeforeQuit input).length : Int) ≤ intMax :=
  ⟨quit_of_ends, fun h => ⟨input.length, fun _ => left_of_quit h.1 h.2⟩⟩

/-- The key `g`, then the end of the file. -/
theorem runs_past_eof : ¬ Ends [103] := by
  intro h
  exact absurd (quit_of_ends h).1 (by decide)

end Prgsem.KeyboardLoop
