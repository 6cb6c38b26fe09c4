import Prgsem.Firmware.MainLoop

/-!
# A job from its start to its end

As long as no message comes in and the button is not pressed, the loop reports one
task in every iteration, and after the last one that the job is done. Then it idles.
-/

namespace Prgsem.Firmware.MainLoop

open CMemory Run
set_option autoImplicit false

/-- At the head of the loop, with the job `c` under way. -/
structure Busy (c : Computation) (messageAbort : Bool) (s : State) : Prop where
  code : s.code = []
  computation : s.computation = c
  computing : c.computing = true
  pressed : s.messageAbort = messageAbort
  room : s.msgBuf.length = sizeofMessage

/-- The statements of `main` while no message is ready, with the results of `rand()`. -/
def quiet (rands : List Nat) : List Move := rands.map fun rand => .main ⟨false, .ok, rand⟩

section Iteration
variable {msg : Message} {msgBuf : List UInt8} {msgLen : Int} {c : Computation}
variable {messageAbort : Bool} {code : List Stmt}

theorem head_step (rand : Nat) :
    step ⟨msg, msgBuf, msgLen, c, messageAbort, []⟩ (.main ⟨false, .ok, rand⟩) =
      .ok (⟨msg, msgBuf, msgLen, c, messageAbort, [.testComputing]⟩, none) := rfl

theorem busy_step (rand : Nat) (hon : c.computing = true) :
    step ⟨msg, msgBuf, msgLen, c, messageAbort, [.testComputing]⟩ (.main ⟨false, .ok, rand⟩) =
      .ok (⟨msg, msgBuf, msgLen, c, messageAbort, [.testTask]⟩, none) := by
  simp only [step, exec, if_pos hon]

theorem task_step (rand : Nat) (hmore : c.taskId < c.nbrTasks) :
    step ⟨msg, msgBuf, msgLen, c, false, [.testTask]⟩ (.main ⟨false, .ok, rand⟩) =
      .ok (⟨msg, msgBuf, msgLen, c, false, onTask⟩, none) :=
  if_pos ⟨hmore, rfl⟩

theorem finish_step (rand : Nat) (hend : messageAbort = true ∨ ¬ c.taskId < c.nbrTasks) :
    step ⟨msg, msgBuf, msgLen, c, messageAbort, [.testTask]⟩ (.main ⟨false, .ok, rand⟩) =
      .ok (⟨msg, msgBuf, msgLen, c, messageAbort, [.stopComputing, .testAbort]⟩, none) := by
  apply if_neg
  rintro ⟨hmore, hpressed⟩
  rcases hend with hend | hend
  · have hpressed' : messageAbort = false := hpressed
    rw [hend] at hpressed'
    cases hpressed'
  · exact hend hmore

theorem send_step (rand : Nat) {p : Payload} (hroom : msgBuf.length = sizeofMessage)
    (hmsg : payload msg = some p) :
    step ⟨msg, msgBuf, msgLen, c, messageAbort, .send :: code⟩ (.main ⟨false, .ok, rand⟩) =
      .ok (⟨msg, p.frame ++ msgBuf.drop p.frame.length, msgLen, c, messageAbort, code⟩,
        some (.sent p.frame)) := by
  have hle := p.length_frame_le
  have hsize : sizeofMessage = 14 := rfl
  have hfill := fillMessageBuf_eq msg p msgBuf msgLen hmsg (by omega)
  simp only [step, exec, hfill, ok_bind, if_true, Int.toNat_natCast, List.take_left]
  rfl

theorem length_sent (p : Payload) (hroom : msgBuf.length = sizeofMessage) :
    (p.frame ++ msgBuf.drop p.frame.length).length = sizeofMessage := by
  have hle := p.length_frame_le
  have hsize : sizeofMessage = 14 := rfl
  rw [List.length_append, List.length_drop]
  omega

end Iteration

/-- One iteration reports one task. -/
theorem Busy.task {c : Computation} {s : State} (h : Busy c false s)
    (hmore : c.taskId < c.nbrTasks) (r₀ r₁ r₂ r₃ r₄ r₅ r₆ r₇ r₈ r₉ : Nat) :
    ∃ s' outs, run step s (quiet [r₀, r₁, r₂, r₃, r₄, r₅, r₆, r₇, r₈, r₉]) = .ok (s', outs) ∧
      shown outs = [.sent (Payload.computeData c.chunkId (c.taskId + 1)
        (UInt8.ofNat (r₈ % 255))).frame] ∧
      Busy { c with taskId := c.taskId + 1 } false s' := by
  obtain ⟨msg, msgBuf, msgLen, c', messageAbort, code⟩ := s
  obtain ⟨rfl, rfl, hon, rfl, hroom⟩ := h
  let msg' : Message := { msg with
    type := MessageType.computeData.toByte
    data := ((msg.data.store16 Offset.chunk_id c'.chunkId).store16 Offset.task_id
      (c'.taskId + 1)).set Offset.result (UInt8.ofNat (r₈ % 255)) }
  have hmsg : payload msg' =
      some (.computeData c'.chunkId (c'.taskId + 1) (UInt8.ofNat (r₈ % 255))) := by
    simp (disch := omega) [msg', payload, Mem.load16_store16_disjoint, Mem.load16_set_disjoint]
  refine ⟨_, _, run_cons (head_step r₀) (run_cons (busy_step r₁ hon)
    (run_cons (task_step r₂ hmore)
    (run_cons rfl (run_cons rfl (run_cons rfl (run_cons rfl (run_cons rfl (run_cons rfl
      (run_cons (send_step r₉ hroom hmsg) (run_nil _)))))))))), rfl, ?_⟩
  exact ⟨rfl, rfl, hon, rfl, length_sent _ hroom⟩

/-- The last iteration. -/
theorem Busy.finish {c : Computation} {messageAbort : Bool} {s : State}
    (h : Busy c messageAbort s) (hend : messageAbort = true ∨ ¬ c.taskId < c.nbrTasks)
    (r₀ r₁ r₂ r₃ r₄ r₅ r₆ : Nat) :
    ∃ s' outs, run step s (quiet [r₀, r₁, r₂, r₃, r₄, r₅, r₆]) = .ok (s', outs) ∧
      shown outs = [.sent (if messageAbort then Payload.abort else Payload.done).frame] ∧
      s'.code = [] ∧ s'.computation.computing = false := by
  obtain ⟨msg, msgBuf, msgLen, c', messageAbort', code⟩ := s
  obtain ⟨rfl, rfl, hon, rfl, hroom⟩ := h
  let msg' : Message := { msg with
    type := (if messageAbort' then MessageType.abort else MessageType.done).toByte }
  have hmsg : payload msg' = some (if messageAbort' then .abort else .done) := by
    cases messageAbort' <;> rfl
  exact ⟨_, _, run_cons (head_step r₀) (run_cons (busy_step r₁ hon)
    (run_cons (finish_step r₂ hend) (run_cons rfl (run_cons rfl (run_cons rfl
      (run_cons (send_step r₆ hroom hmsg) (run_nil _))))))), rfl, rfl, rfl⟩

/-- Without a job nothing happens. -/
theorem idle_run {s : State} (hcode : s.code = [] ∨ s.code = [.testComputing])
    (hoff : s.computation.computing = false) (rands : List Nat) :
    ∃ t outs, run step s (quiet rands) = .ok (t, outs) ∧ shown outs = [] ∧
      t.computation.computing = false := by
  induction rands generalizing s with
  | nil => exact ⟨s, [], rfl, rfl, hoff⟩
  | cons rand rands ih =>
    obtain ⟨msg, msgBuf, msgLen, c, messageAbort, code⟩ := s
    have hnext : ∃ code', (code' = [] ∨ code' = [.testComputing]) ∧
        step ⟨msg, msgBuf, msgLen, c, messageAbort, code⟩ (.main ⟨false, .ok, rand⟩) =
          .ok (⟨msg, msgBuf, msgLen, c, messageAbort, code'⟩, none) := by
      have hoff' : ¬ c.computing = true := by simp only at hoff; simp [hoff]
      rcases hcode with rfl | rfl
      · exact ⟨_, .inr rfl, head_step rand⟩
      · exact ⟨[], .inl rfl, by simp only [step, exec, if_neg hoff']⟩
    obtain ⟨code', hcode', hstep⟩ := hnext
    obtain ⟨t, outs, hrun, hshown, hoff'⟩ :=
      ih (s := ⟨msg, msgBuf, msgLen, c, messageAbort, code'⟩) hcode' hoff
    exact ⟨t, _, run_cons hstep hrun, hshown, hoff'⟩

theorem quiet_append (rands rands' : List Nat) : quiet (rands ++ rands') = quiet rands ++ quiet rands' :=
  List.map_append

/-- What a job under way still shows: its tasks from the next one on, each with a result
of `rand()`, and then how it ended. -/
def Reports (c : Computation) (n : Nat) (p : Payload) (events : List Event) : Prop :=
  ∃ data : List (UInt16 × UInt8),
    events = data.map (fun d => .sent (Payload.computeData c.chunkId d.1 d.2).frame) ++
      [.sent p.frame] ∧
    data.map (fun d => d.1.toNat) = List.range' (c.taskId.toNat + 1) n

theorem Busy.ends {c : Computation} {messageAbort : Bool} {s : State} (h : Busy c messageAbort s)
    (hend : messageAbort = true ∨ ¬ c.taskId < c.nbrTasks) (rands : List Nat)
    (hlen : 7 ≤ rands.length) :
    ∃ t outs, run step s (quiet rands) = .ok (t, outs) ∧
      Reports c 0 (if messageAbort then Payload.abort else Payload.done) (shown outs) ∧
      t.computation.computing = false := by
  have hseven : (rands.take 7).length = 7 := by rw [List.length_take]; omega
  rw [← List.take_append_drop 7 rands, quiet_append]
  generalize rands.take 7 = first at hseven
  match first, hseven with
  | [r₀, r₁, r₂, r₃, r₄, r₅, r₆], _ =>
    obtain ⟨s', outs, hrun, hshown, hcode, hoff⟩ := h.finish hend r₀ r₁ r₂ r₃ r₄ r₅ r₆
    obtain ⟨t, outs', hrun', hnone, hoff'⟩ := idle_run (.inl hcode) hoff (rands.drop 7)
    refine ⟨t, _, run_append hrun hrun', ⟨[], ?_, rfl⟩, hoff'⟩
    rw [shown_append, hshown, hnone, List.append_nil]
    rfl

theorem Busy.runs {n : Nat} {c : Computation} {s : State} (h : Busy c false s)
    (hn : c.nbrTasks.toNat = c.taskId.toNat + n) (rands : List Nat)
    (hlen : 10 * n + 7 ≤ rands.length) :
    ∃ t outs, run step s (quiet rands) = .ok (t, outs) ∧ Reports c n Payload.done (shown outs) ∧
      t.computation.computing = false := by
  induction n generalizing c s rands with
  | zero =>
    have hall : ¬ c.taskId < c.nbrTasks := by
      rw [UInt16.lt_iff_toNat_lt]
      omega
    exact h.ends (.inr hall) rands (by omega)
  | succ n ih =>
    have hmore : c.taskId < c.nbrTasks := by
      rw [UInt16.lt_iff_toNat_lt]
      omega
    have hnext : (c.taskId + 1).toNat = c.taskId.toNat + 1 := by
      have hbound := c.nbrTasks.toNat_lt
      rw [UInt16.toNat_add, UInt16.toNat_one]
      omega
    have hten : (rands.take 10).length = 10 := by rw [List.length_take]; omega
    rw [← List.take_append_drop 10 rands, quiet_append]
    generalize rands.take 10 = first at hten
    match first, hten with
    | [r₀, r₁, r₂, r₃, r₄, r₅, r₆, r₇, r₈, r₉], _ =>
      obtain ⟨s', outs, hrun, hshown, hbusy⟩ := h.task hmore r₀ r₁ r₂ r₃ r₄ r₅ r₆ r₇ r₈ r₉
      obtain ⟨t, outs', hrun', ⟨data, hdata, htasks⟩, hoff⟩ :=
        ih hbusy (by simp only [hnext]; omega) (rands.drop 10) (by rw [List.length_drop]; omega)
      refine ⟨t, _, run_append hrun hrun',
        ⟨(c.taskId + 1, UInt8.ofNat (r₈ % 255)) :: data, ?_, ?_⟩, hoff⟩
      · rw [shown_append, hshown, hdata]
        rfl
      · simp only [hnext] at htasks
        rw [List.map_cons, htasks, hnext, List.range'_succ]

/-- A job that is left alone ends: when the button was pressed, with `MSG_ABORT` and no
more tasks, else with `MSG_DONE` after all tasks that are left, each reported once and in
order. It takes ten statements for a task, with the tests at the head of the iteration
and `wait`, and seven up to the one that sends the last message; the statements for
the ticker and the LED behind that one are no steps here. Nothing is sent from then
on. -/
theorem job_ends {c : Computation} {messageAbort : Bool} {s : State} (h : Busy c messageAbort s)
    (hcount : c.taskId ≤ c.nbrTasks) (rands : List Nat)
    (hlen : 10 * (c.nbrTasks.toNat - c.taskId.toNat) + 7 ≤ rands.length) :
    ∃ t outs, run step s (quiet rands) = .ok (t, outs) ∧
      Reports c (if messageAbort then 0 else c.nbrTasks.toNat - c.taskId.toNat)
        (if messageAbort then Payload.abort else Payload.done) (shown outs) ∧
      t.computation.computing = false := by
  have hle := UInt16.le_iff_toNat_le.mp hcount
  cases messageAbort with
  | true => exact h.ends (.inl rfl) rands (by omega)
  | false =>
    have hleft : c.nbrTasks.toNat = c.taskId.toNat + (c.nbrTasks.toNat - c.taskId.toNat) := by omega
    exact h.runs hleft rands hlen

/-- Two tasks of three are left. -/
theorem job_ends_two :
    ∃ t outs, run step ⟨⟨0, fun _ => 0, 0⟩, List.replicate 14 0, 0, ⟨7, 3, 1, true⟩, false, []⟩
        (quiet (List.range 40)) = .ok (t, outs) ∧
      Reports ⟨7, 3, 1, true⟩ 2 Payload.done (shown outs) ∧ t.computation.computing = false :=
  job_ends ⟨rfl, rfl, rfl, rfl, rfl⟩ (by decide) (List.range 40) (by decide)

end Prgsem.Firmware.MainLoop
