import Prgsem.Firmware.EndToEnd

/-!
# The LED of the firmware

The ticker flips the LED whenever it wants while it is attached. At the head of the
loop it is attached exactly while a job is under way, and the LED is off when there is
none. Between, what the loop has still to do in its iteration says how far it is from that.
-/

namespace Prgsem.Firmware.System

open CMemory Run
set_option autoImplicit false

structure Lights where
  computing : Bool
  ticker : Bool
  led : Bool

def State.lights (s : State) : Lights := ⟨s.computation.computing, s.ticker, s.led⟩

/-- The ticker may have flipped the LED any number of times. -/
def Lights.Flips (x y : Lights) : Prop :=
  y.computing = x.computing ∧ y.ticker = x.ticker ∧ (x.ticker = false → y.led = x.led)

def Lights.InStep (x : Lights) : Prop :=
  x.ticker = x.computing ∧ (x.computing = false → x.led = false)

/-- The statements `code` put the LED and the ticker in step with the computation,
whenever the ticker flips the LED before one of them. -/
def Settles : List Stmt → Lights → Prop
  | [], x => x.InStep
  | stmt :: code, x => ∀ y, x.Flips y →
    match stmt with
    | .attach => Settles code { y with ticker := true }
    | .detach => Settles code { y with ticker := false }
    | .ledOff => Settles code { y with led := false }
    | .loop .startComputing => Settles code { y with computing := true }
    | .loop .stopComputing => Settles code { y with computing := false }
    -- the answer comes first, then the LED is switched off
    | .loop .testAbort => y.computing = false
    | .loop .receive => code = [] ∧ y.InStep
    | .loop .parse | .loop .switch | .loop .testComputing | .loop .testTask => y.InStep
    | .loop _ => Settles code y

namespace Lights
variable {x y z : Lights}

theorem flips_refl (x : Lights) : x.Flips x := ⟨rfl, rfl, fun _ => rfl⟩

theorem Flips.trans (h : x.Flips y) (h' : y.Flips z) : x.Flips z := by
  obtain ⟨hcomputing, hticker, hled⟩ := h
  obtain ⟨hcomputing', hticker', hled'⟩ := h'
  refine ⟨hcomputing'.trans hcomputing, hticker'.trans hticker, ?_⟩
  intro hoff
  exact (hled' (hticker.trans hoff)).trans (hled hoff)

theorem InStep.flips (h : x.InStep) (hflips : x.Flips y) : y.InStep := by
  obtain ⟨hticker, hled⟩ := h
  obtain ⟨hcomputing, hsame, hkeep⟩ := hflips
  refine ⟨by rw [hsame, hcomputing, hticker], ?_⟩
  intro hoff
  rw [hcomputing] at hoff
  exact (hkeep (hticker.trans hoff)).trans (hled hoff)

end Lights

theorem Settles.flips {code : List Stmt} {x y : Lights} (h : Settles code x) (hflips : x.Flips y) :
    Settles code y := by
  cases code with
  | nil => exact Lights.InStep.flips h hflips
  | cons stmt code => exact fun z hz => h z (hflips.trans hz)

/-- A statement that leaves the LED, its ticker and the computation as they are. -/
def Stmt.Quiet : Stmt → Bool
  | .loop (.assign _) | .loop .send | .loop .wait | .loop .nextTask | .loop .clearAbort
  | .loop .saveChunkId | .loop .saveNbrTasks | .loop .resetTaskId => true
  | _ => false

theorem settles_cons_quiet {stmt : Stmt} {code : List Stmt} {x : Lights} (h : stmt.Quiet = true) :
    Settles (stmt :: code) x ↔ ∀ y, x.Flips y → Settles code y := by
  cases stmt with
  | loop m => cases m <;> first | exact Iff.rfl | cases h
  | _ => cases h

theorem settles_of_inStep {code : List Stmt} {x : Lights} (h : x.InStep)
    (hcode : ∀ stmt ∈ code, stmt.Quiet = true) : Settles code x := by
  induction code generalizing x with
  | nil => exact h
  | cons stmt code ih =>
    obtain ⟨hquiet, hrest⟩ := List.forall_mem_cons.mp hcode
    rw [settles_cons_quiet hquiet]
    intro y hflips
    exact ih (h.flips hflips) hrest

theorem settles_detach {x : Lights} (h : x.computing = false) : Settles [.detach, .ledOff] x := by
  rintro y ⟨hy, -, -⟩ z ⟨hz, hticker, -⟩
  have hoff : z.computing = false := hz.trans (hy.trans h)
  exact ⟨hticker.trans hoff.symm, fun _ => rfl⟩

theorem settles_onAbort (x : Lights) : Settles onAbort x := by
  intro _ _ _ _ _ _
  exact settles_detach rfl

theorem settles_finish (x : Lights) : Settles [.loop .stopComputing, .loop .testAbort] x := by
  rintro y - z ⟨hz, -, -⟩
  exact hz

theorem settles_onCompute (x : Lights) : Settles onCompute x := by
  rintro _ - _ - _ - _ - y ⟨hon, -, -⟩
  exact settles_of_inStep ⟨hon.symm, fun hoff => absurd (hon.symm.trans hoff) (by simp)⟩ (by decide)

/-- Whatever the loop does next, it begins in step. -/
theorem Settles.of_inStep {x : Lights} (h : x.InStep) {stmt : Stmt}
    (hstmt : stmt = .loop .receive ∨ stmt = .loop .parse ∨ stmt = .loop .switch ∨
      stmt = .loop .testComputing ∨ stmt = .loop .testTask) : Settles [stmt] x := by
  rcases hstmt with rfl | rfl | rfl | rfl | rfl
  · exact fun y hflips => ⟨rfl, h.flips hflips⟩
  all_goals exact fun y hflips => h.flips hflips

/-! ## One step -/

/-- While `receive_message` is called nothing else is left to do in the iteration. -/
structure LedInv (s : State) : Prop where
  call : s.receivePc ≠ .idle → s.code = []
  settles : Settles s.code s.lights

theorem exec_led {rand : Nat} {s s' : State} {stmt : Stmt} {code : List Stmt} {out : Option Event}
    (hcall : s.receivePc = .idle) (h : Settles (stmt :: code) s.lights)
    (hexec : exec rand { s with code := code } stmt = .ok (s', out)) : LedInv s' := by
  have hnow := h s.lights (Lights.flips_refl _)
  cases stmt with
  | attach | detach | ledOff =>
    cases hexec
    exact ⟨fun hne => absurd hcall hne, hnow⟩
  | loop m =>
    cases m with
    | receive =>
      obtain ⟨⟨r, result⟩, -, hexec⟩ := bind_ok_iff.mp hexec
      cases hexec
      obtain ⟨rfl, hstep⟩ := hnow
      exact ⟨fun _ => rfl, hstep⟩
    | parse =>
      obtain ⟨⟨accepted, msg⟩, -, hexec⟩ := bind_ok_iff.mp hexec
      cases accepted with
      | true =>
        cases hexec
        exact ⟨fun hne => absurd hcall hne, .of_inStep hnow (by simp)⟩
      | false =>
        cases hexec
        exact ⟨fun hne => absurd hcall hne, settles_of_inStep hnow (by simp only; decide)⟩
    | switch =>
      cases hexec
      refine ⟨fun hne => absurd hcall hne, ?_⟩
      simp only
      split
      · exact settles_of_inStep hnow (by decide)
      · exact settles_onAbort _
      · exact settles_onCompute _
      · exact hnow
    | send =>
      obtain ⟨⟨ret, msgBuf, len⟩, -, hexec⟩ := bind_ok_iff.mp hexec
      cases ret with
      | true =>
        cases hexec
        exact ⟨fun hne => absurd hcall hne, hnow⟩
      | false =>
        cases hexec
        exact ⟨fun hne => absurd hcall hne, hnow⟩
    | testComputing =>
      cases hexec
      refine ⟨fun hne => absurd hcall hne, ?_⟩
      simp only
      split
      · exact .of_inStep hnow (by simp)
      · exact hnow
    | testTask =>
      simp only [exec] at hexec
      split at hexec
      · cases hexec
        exact ⟨fun hne => absurd hcall hne, settles_of_inStep hnow (by simp only; decide)⟩
      · cases hexec
        exact ⟨fun hne => absurd hcall hne, settles_finish _⟩
    | testAbort =>
      cases hexec
      refine ⟨fun hne => absurd hcall hne, ?_⟩
      rintro y ⟨hy, -, -⟩ z ⟨hz, -, -⟩
      exact settles_detach (hz.trans (hy.trans hnow))
    | assign | stopComputing | saveChunkId | saveNbrTasks | resetTaskId | startComputing
    | clearAbort | wait | nextTask =>
      cases hexec
      exact ⟨fun hne => absurd hcall hne, hnow⟩

theorem mainStep_led {rand : Nat} {s s' : State} {out : Option Event} (h : LedInv s)
    (hstep : mainStep rand s = .ok (s', out)) : LedInv s' := by
  by_cases hcall : s.receivePc = .idle
  · by_cases hsend : s.sendPc = .idle
    · cases hcode : s.code with
      | nil =>
        have hinStep := h.settles
        rw [hcode] at hinStep
        unfold mainStep at hstep
        rw [if_neg (not_not_intro hcall), if_neg (not_not_intro hsend), hcode] at hstep
        cases hstep
        refine ⟨fun hne => absurd hcall hne, ?_⟩
        simp only
        split
        · exact .of_inStep hinStep (by simp)
        · exact .of_inStep hinStep (by simp)
      | cons stmt code =>
        have hsettles := h.settles
        rw [mainStep_stmt rand hcall hsend hcode] at hstep
        rw [hcode] at hsettles
        exact exec_led hcall hsettles hstep
    · unfold mainStep at hstep
      rw [if_neg (not_not_intro hcall), if_pos hsend] at hstep
      obtain ⟨⟨t, result⟩, -, hstep⟩ := bind_ok_iff.mp hstep
      cases hstep
      exact ⟨h.call, h.settles⟩
  · have hcode := h.call hcall
    have hinStep := h.settles
    rw [hcode] at hinStep
    unfold mainStep at hstep
    rw [if_pos hcall] at hstep
    obtain ⟨⟨r, result⟩, hcallStep, hstep⟩ := bind_ok_iff.mp hstep
    rcases receive_result hcallStep with ⟨rfl, -, -⟩ | ⟨-, rfl, rfl⟩
    · cases hstep
      exact ⟨fun _ => hcode, h.settles⟩
    · cases hstep
      refine ⟨fun hne => absurd rfl hne, ?_⟩
      simp only
      split
      · exact .of_inStep hinStep (by simp)
      · exact hinStep

theorem step_led {s s' : State} {move : Move} {out : Option Event} (h : LedInv s)
    (hstep : step s move = .ok (s', out)) : LedInv s' := by
  cases move with
  | main rand => exact mainStep_led h hstep
  | rxInterrupt n =>
    simp only [step] at hstep
    split at hstep
    · obtain ⟨rx, -, hstep⟩ := bind_ok_iff.mp hstep
      cases hstep
      exact ⟨h.call, h.settles⟩
    · cases hstep
      exact h
  | txInterrupt =>
    simp only [step] at hstep
    split at hstep
    · obtain ⟨tx, -, hstep⟩ := bind_ok_iff.mp hstep
      cases hstep
      exact ⟨h.call, h.settles⟩
    · cases hstep
      exact h
  | pressed =>
    cases hstep
    exact ⟨h.call, h.settles⟩
  | flip =>
    cases hstep
    refine ⟨h.call, h.settles.flips ⟨rfl, rfl, ?_⟩⟩
    intro hoff
    have hticker : s.ticker = false := hoff
    simp [State.lights, hticker]

/-- With the LED off at power-on: whenever the loop has nothing left to do in its
iteration, also while it waits for the rest of a message, the ticker is attached exactly
while a job is under way, and without a job the LED is off. -/
theorem led_follows (input : List UInt8) (boot : Boot) (hled : boot.led = false)
    (moves : List Move) :
    ∃ s t outs, start input boot = .ok s ∧ run step s moves = .ok (t, outs) ∧
      (t.code = [] → t.ticker = t.computation.computing ∧
        (t.computation.computing = false → t.led = false)) := by
  obtain ⟨s, hstart, hinv⟩ := start_ok input boot
  have hoff : LedInv s := by
    obtain ⟨⟨ret, msgBuf, msgLen⟩, -, hok⟩ := bind_ok_iff.mp hstart
    cases hok
    exact ⟨fun hne => absurd rfl hne, rfl, fun _ => hled⟩
  obtain ⟨t, outs, hrun, -⟩ := run_ok hinv moves
  have hinv' : LedInv t :=
    (run_keeps (R := fun _ => True) (fun _ _ _ _ h hstep => ⟨step_led h hstep, trivial⟩) hoff hrun).1
  refine ⟨s, t, outs, hstart, hrun, ?_⟩
  intro hcode
  have hsettles := hinv'.settles
  rw [hcode] at hsettles
  exact hsettles

set_option maxRecDepth 2000 in
/-- One request for two tasks: at the head of the loop the ticker is attached and has lit
the LED. -/
theorem led_follows_compute :
    ∃ s t outs, start [7, 0, 7, 0, 2, 239] ⟨fun _ => 0, fun _ => 0, false, false, fun _ => 0,
        fun _ => 0, 0, false, 0, 0, ⟨[], 0, 0⟩⟩ = .ok s ∧
      run step s (.rxInterrupt 6 :: List.replicate 60 (.main 0) ++ [.flip]) = .ok (t, outs) ∧
      (t.code = [] ∧ t.ticker = true ∧ t.led = true) ∧
      (t.code = [] → t.ticker = t.computation.computing ∧
        (t.computation.computing = false → t.led = false)) := by
  have hlights : (start [7, 0, 7, 0, 2, 239] ⟨fun _ => 0, fun _ => 0, false, false, fun _ => 0,
        fun _ => 0, 0, false, 0, 0, ⟨[], 0, 0⟩⟩ >>= fun s =>
      (run step s (.rxInterrupt 6 :: List.replicate 60 (.main 0) ++ [.flip])).map
        (fun r => (r.1.code, r.1.ticker, r.1.led))) = .ok ([], true, true) := rfl
  obtain ⟨s, t, outs, hstart, hrun, hfollows⟩ := led_follows [7, 0, 7, 0, 2, 239]
    ⟨fun _ => 0, fun _ => 0, false, false, fun _ => 0, fun _ => 0, 0, false, 0, 0, ⟨[], 0, 0⟩⟩ rfl
    (.rxInterrupt 6 :: List.replicate 60 (.main 0) ++ [.flip])
  obtain ⟨s', hstart', hmap⟩ := bind_ok_iff.mp hlights
  obtain rfl : s = s' := by simpa using hstart.symm.trans hstart'
  rw [hrun] at hmap
  simp only [Except.map, Except.ok.injEq, Prod.mk.injEq] at hmap
  exact ⟨s, t, outs, hstart, hrun, hmap, hfollows⟩

end Prgsem.Firmware.System
