import Prgsem.Firmware.EndToEnd

/-!
# What an unknown byte does to the firmware

`receive_message` leaves a byte that is no type in the ring, and `main` tests the ring
first in every iteration. So such a byte stops everything: no message behind it is
received, and the tasks of a job under way are never looked at again.
-/

namespace Prgsem.Firmware.System

open CMemory Run Receive
set_option autoImplicit false

/-! ## The bytes behind it -/

theorem wellSized_known {f : List UInt8} (hf : WellSized f) :
    ∃ c l, f = c :: l ∧ Progress.Known c := by
  obtain ⟨c, hhead, hsize⟩ := hf
  obtain ⟨l, rfl⟩ := List.head?_eq_some_iff.mp hhead
  refine ⟨c, l, rfl, ?_⟩
  rcases Progress.getMessageSize_cases c with ⟨hknown, -⟩ | ⟨-, hget⟩
  · exact hknown
  · rw [hget] at hsize
    cases hsize

/-- A message ends where its type says. -/
theorem wellSized_unique {f g x y : List UInt8} (hf : WellSized f) (hg : WellSized g)
    (h : f ++ x = g ++ y) : f = g ∧ x = y := by
  obtain ⟨c, hfhead, hfsize⟩ := hf
  obtain ⟨d, hghead, hgsize⟩ := hg
  have hsame : some c = some d := by
    rw [← Progress.head?_append_of_some hfhead x, h, Progress.head?_append_of_some hghead y]
  obtain rfl : c = d := Option.some.inj hsame
  rw [hfsize, Prod.mk.injEq] at hgsize
  exact List.append_inj h (Int.ofNat.inj hgsize.2)

theorem cuts_of_unknown {cuts frames : List (List UInt8)} {b : UInt8} {x rest : List UInt8}
    (hcuts : ∀ f ∈ cuts, WellSized f) (hframes : ∀ f ∈ frames, WellSized f)
    (hb : ¬ Progress.Known b) (h : frames.flatten ++ b :: rest = cuts.flatten ++ x) :
    cuts <+: frames := by
  induction cuts generalizing frames with
  | nil => exact List.nil_prefix
  | cons f cuts ih =>
    obtain ⟨hf, hcuts'⟩ := List.forall_mem_cons.mp hcuts
    cases frames with
    | nil =>
      obtain ⟨c, l, rfl, hc⟩ := wellSized_known hf
      cases h
      exact absurd hc hb
    | cons g frames =>
      obtain ⟨hg, hframes'⟩ := List.forall_mem_cons.mp hframes
      rw [List.flatten_cons, List.flatten_cons, List.append_assoc, List.append_assoc] at h
      obtain ⟨rfl, hrest⟩ := wellSized_unique hg hf h
      exact (List.prefix_cons_inj g).mpr (ih hcuts' hframes' hrest)

/-! ## The loop in front of it -/

theorem receive_keeps_uart {r r' : Receive.State} {result : Option Return}
    (h : Receive.mainStep r = .ok (r', result)) : r'.rx.uart = r.rx.uart := by
  obtain ⟨nvic, rx, pc, loc⟩ := r
  cases pc with
  | loop =>
    simp only [Receive.mainStep] at h
    split at h <;> cases h <;> rfl
  | take =>
    obtain ⟨c, -, hcall⟩ := bind_ok_iff.mp h
    cases hcall
    rfl
  | store =>
    simp only [Receive.mainStep] at h
    split at h
    · split at h
      · obtain ⟨msgBuf, -, hcall⟩ := bind_ok_iff.mp h
        cases hcall
        rfl
      · cases h
        rfl
    · obtain ⟨msgBuf, -, hcall⟩ := bind_ok_iff.mp h
      cases hcall
      rfl
  | idle | disable | testEmpty | open_ | wait | close | advance | leave =>
    cases h
    rfl

section Stuck
variable {stream ring : List UInt8} {past : List (Option Progress.Finished)}
variable {s : Progress.Polling} {b : UInt8}

/-- The first byte that a call has removed is a type. -/
theorem first_removed_known {loc : Receive.Locals} {first c : UInt8} {l : List UInt8}
    {pc : Receive.Pc} (h : Progress.At loc first (c :: l) ring pc) : Progress.Known c := by
  have begun {r : List UInt8} (hbegins : (c :: r).head? = some first)
      (hsized : Progress.Sized loc first) : Progress.Known c := by
    rw [List.head?_cons, Option.some.injEq] at hbegins
    rw [hbegins]
    exact hsized.bounds.1
  cases pc with
  | idle => cases h
  | disable => cases h.1
  | loop => exact begun h.1.begins (h.2 (by simp))
  | testEmpty => exact begun (Progress.More.toCopied h).begins (Progress.More.sized h (by simp)).1
  | open_ => exact begun (Progress.More.toCopied h).begins (Progress.More.sized h (by simp)).1
  | wait => exact begun (Progress.More.toCopied h).begins (Progress.More.sized h (by simp)).1
  | close => exact begun h.1.begins (h.1.sized (by simp)).1
  | take => exact begun h.1.begins (h.1.sized (by simp)).1
  | store => exact begun h.1.begins (h.1.sized (by simp)).1
  | advance =>
    obtain ⟨d, rest, -, hcopied, hsized⟩ := h
    exact begun hcopied.begins hsized
  | leave =>
    cases h with
    | message known ret len copied begins sized =>
      rw [List.head?_cons, Option.some.injEq] at begins
      rwa [begins]
    | unknown unknown ret nothing => cases nothing

/-- No call removes anything when the first byte is unknown, also the current one. -/
theorem nothing_removed (h : Progress.Inv stream past s ring) (hhead : stream.head? = some b)
    (hb : ¬ Progress.Known b) :
    (∀ call ∈ shown past, call.ret.ret = false) ∧ s.removed = [] ∧
      ring ++ s.call.rx.uart = stream := by
  have hstuck := h.stuck hhead hb
  have hpast : (shown past).flatMap Progress.Finished.removed = [] :=
    List.flatMap_eq_nil_iff.mpr fun call hcall => (hstuck call hcall).1
  have haccount := h.account
  rw [hpast, List.nil_append] at haccount
  have hnone : s.removed = [] := by
    by_contra hne
    obtain ⟨c, l, hremoved⟩ := List.exists_cons_of_ne_nil hne
    -- the byte that the call was made for is the first of the stream, and its type is known
    have hc : c = b := by
      rw [← haccount, hremoved] at hhead
      exact Option.some.inj hhead
    have hplace := h.place
    rw [hremoved] at hplace
    have hknown : Progress.Known c := first_removed_known hplace
    exact hb (hc ▸ hknown)
  refine ⟨fun call hcall => (hstuck call hcall).2, hnone, ?_⟩
  rwa [hnone, List.nil_append] at haccount

end Stuck

/-- The loop in front of the unknown byte `b`, with the job `c`. -/
structure Silent (b : UInt8) (c : MainLoop.Computation) (s : State) : Prop where
  call : s.receivePc ≠ .idle → s.code = []
  send : s.sendPc = .idle
  code : s.code = [] ∨ s.code = [.loop .receive]
  computation : s.computation = c
  reads : ∃ stream past first ring, stream.head? = some b ∧
    Progress.Inv stream past ⟨s.receiving, first, []⟩ (b :: ring)

theorem Silent.ready {b : UInt8} {c : MainLoop.Computation} {s : State} (h : Silent b c s) :
    s.rx.rxIn ≠ s.rx.rxOut := by
  obtain ⟨stream, past, first, ring, -, hinv⟩ := h.reads
  have hholds : s.rx.Holds (b :: ring) := hinv.holds
  exact hholds.in_ne_out

section Step
variable {b : UInt8} {c : MainLoop.Computation} {s : State}

/-- A statement of `receive_message` in front of the unknown byte. -/
theorem Silent.receive (h : Silent b c s) (hb : ¬ Progress.Known b) :
    ∃ r result, Receive.mainStep s.receiving = .ok (r, result) ∧
      (∀ ret, result = some ret → ret.ret = false) ∧
      ∃ stream past first ring, stream.head? = some b ∧
        Progress.Inv stream past ⟨r, first, []⟩ (b :: ring) := by
  obtain ⟨stream, past, first, ring, hhead, hinv⟩ := h.reads
  obtain ⟨⟨r, first', removed⟩, out, ring', hstep, hinv'⟩ := Progress.mainStep_ok hinv
  have hcall := call_step hstep fun _ => h.ready
  obtain ⟨-, -, hbefore⟩ := nothing_removed hinv hhead hb
  obtain ⟨hfailed, rfl, hafter⟩ := nothing_removed hinv' hhead hb
  refine ⟨r, out.map Progress.Finished.ret, hcall, ?_, stream, past ++ [out], first', ring, hhead,
    ?_⟩
  · rintro ret hret
    obtain ⟨call, rfl, rfl⟩ := Option.map_eq_some_iff.mp hret
    exact hfailed call (by simp)
  · -- the statement takes nothing from the UART, so the ring is as it was
    have hsame : ring' ++ r.rx.uart = b :: ring ++ r.rx.uart := by
      have huart : r.rx.uart = s.receiving.rx.uart := receive_keeps_uart hcall
      rw [huart] at hafter ⊢
      exact hafter.trans hbefore.symm
    rw [← List.append_cancel_right hsame]
    exact hinv'

theorem Silent.mainStep (h : Silent b c s) (hb : ¬ Progress.Known b) {rand : Nat} {s' : State}
    {out : Option Event} (hstep : mainStep rand s = .ok (s', out)) : Silent b c s' ∧ out = none := by
  by_cases hcall : s.receivePc = .idle
  · rcases h.code with hcode | hcode
    · unfold System.mainStep at hstep
      rw [if_neg (not_not_intro hcall), if_neg (not_not_intro h.send), hcode] at hstep
      cases hstep
      exact ⟨⟨fun hne => absurd hcall hne, h.send, .inr (if_pos h.ready), h.computation, h.reads⟩, rfl⟩
    · obtain ⟨r, result, hcallStep, -, stream, past, first, ring, hhead, hinv⟩ := h.receive hb
      have hcallStep' : Receive.mainStep (State.receiving { s with code := [] }) =
          .ok (r, result) := hcallStep
      rw [mainStep_stmt rand hcall h.send hcode, exec, hcallStep', ok_bind] at hstep
      cases hstep
      have hback : State.receiving (State.setReceiving { s with code := [] } r) = r :=
        receiving_setReceiving s hinv.size []
      refine ⟨⟨fun _ => rfl, h.send, .inl rfl, h.computation, stream, past, first, ring, hhead, ?_⟩,
        rfl⟩
      rwa [hback]
  · have hcode := h.call hcall
    obtain ⟨r, result, hcallStep, hfailed, stream, past, first, ring, hhead, hinv⟩ := h.receive hb
    unfold System.mainStep at hstep
    rw [if_pos hcall, hcallStep, ok_bind] at hstep
    cases result with
    | none =>
      cases hstep
      refine ⟨⟨fun _ => hcode, h.send, .inl hcode, h.computation, stream, past, first, ring, hhead,
        ?_⟩, rfl⟩
      rwa [receiving_setReceiving s hinv.size]
    | some ret =>
      have hnone : (if ret.ret = true then [Stmt.loop .parse] else []) = [] :=
        if_neg (by simp [hfailed ret rfl])
      simp only [hnone] at hstep
      cases hstep
      refine ⟨⟨fun _ => rfl, h.send, .inl rfl, h.computation, stream, past, first, ring, hhead, ?_⟩,
        rfl⟩
      rwa [receiving_setReceiving s hinv.size]

theorem Silent.step (h : Silent b c s) (hb : ¬ Progress.Known b) {move : Move} {s' : State}
    {out : Option Event} (hstep : step s move = .ok (s', out)) :
    Silent b c s' ∧ ∀ e, out = some e → e = .pressed := by
  cases move with
  | main rand =>
    obtain ⟨h', rfl⟩ := h.mainStep hb hstep
    exact ⟨h', fun e he => by cases he⟩
  | rxInterrupt n =>
    simp only [System.step] at hstep
    split at hstep
    · obtain ⟨stream, past, first, ring, hhead, hinv⟩ := h.reads
      obtain ⟨rx, bytes, hrun, hinv'⟩ := call_interrupt hinv n
      rw [hrun, ok_bind] at hstep
      cases hstep
      exact ⟨⟨h.call, h.send, h.code, h.computation, stream, past, first, ring ++ bytes, hhead, hinv'⟩,
        fun e he => by cases he⟩
    · cases hstep
      exact ⟨h, fun e he => by cases he⟩
  | txInterrupt =>
    simp only [System.step] at hstep
    split at hstep
    · obtain ⟨tx, -, hstep⟩ := bind_ok_iff.mp hstep
      cases hstep
      exact ⟨⟨h.call, h.send, h.code, h.computation, h.reads⟩, fun e he => by cases he⟩
    · cases hstep
      exact ⟨h, fun e he => by cases he⟩
  | pressed =>
    cases hstep
    exact ⟨⟨h.call, h.send, h.code, h.computation, h.reads⟩, fun e he => (Option.some.inj he).symm⟩
  | flip =>
    cases hstep
    exact ⟨⟨h.call, h.send, h.code, h.computation, h.reads⟩, fun e he => by cases he⟩

end Step

/-- Behind the first unknown byte nothing is received. Once the loop finds it at the
front of the ring, only presses of the button are seen, and a job under way stays as it is. -/
theorem unknown_silences (frames : List (List UInt8)) (hsized : ∀ f ∈ frames, WellSized f)
    {b : UInt8} (hb : ¬ Progress.Known b) (rest : List UInt8) (boot : Boot) (moves : List Move) :
    ∃ s t outs, start (frames.flatten ++ b :: rest) boot = .ok s ∧
      run step s moves = .ok (t, outs) ∧
      receivedFrames (shown outs) <+: frames.filter Intact ∧
      (t.code = [] → t.receivePc = .idle → t.sendPc = .idle → ∀ ring, t.rx.Holds (b :: ring) →
        ∀ moves', ∃ u outs', run step t moves' = .ok (u, outs') ∧
          (∀ e ∈ shown outs', e = .pressed) ∧ u.computation = t.computation) := by
  obtain ⟨s, hstart, hinv⟩ := start_ok (frames.flatten ++ b :: rest) boot
  obtain ⟨t, outs, hrun, ph, hand, hinv'⟩ := run_ok hinv moves
  refine ⟨s, t, outs, hstart, hrun, ?_, ?_⟩
  · obtain ⟨past, first, removed, ring, cuts, hreads, hcuts, hframes, hcut⟩ := hinv'.reads
    have haccount := hreads.account
    rw [hcut, List.append_assoc, List.append_assoc, List.append_assoc] at haccount
    rw [List.nil_append] at hframes
    rw [hframes]
    exact (cuts_of_unknown hcuts hsized hb haccount.symm).filter Intact
  · intro hcode hcall hsend ring hring moves'
    have hready : Progress.Ready ⟨t.receiving, 0, []⟩ (b :: ring) :=
      ⟨hcall, hring, hinv'.reads.room, hinv'.reads.size, rfl⟩
    have hsilent : Silent b t.computation t :=
      ⟨fun hne => absurd hcall hne, hsend, .inl hcode, rfl, _, [], 0, ring, rfl, hready.inv⟩
    obtain ⟨u, outs', hrun', -⟩ := run_ok hinv' moves'
    obtain ⟨hsilent', hshown⟩ := run_keeps (R := fun out => ∀ e, out = some e → e = .pressed)
      (fun _ _ _ _ h hstep => h.step hb hstep) hsilent hrun'
    exact ⟨u, outs', hrun', fun e he => hshown _ (mem_shown.mp he) e rfl, hsilent'.computation⟩

/-- The ring once the loop has read the request for the version. -/
def letterRing : Rx :=
  ⟨[], (((((List.replicate bufSize 0).set 0 4).set 1 251).set 2 65).set 3 2).set 4 253, 5, 2⟩

theorem holds_letterRing : letterRing.Holds [65, 2, 253] := by
  have hempty : Stored (List.replicate bufSize 0) 0 0 [] := stored_nil List.length_replicate
  have hrequest := (hempty.push (by decide) 4).push (by decide) 251
  have hall := ((hrequest.push (by decide) 65).push (by decide) 2).push (by decide) 253
  exact hall.pop.pop

set_option maxRecDepth 2000 in
/-- A request for the version, the letter `A` and an abort: between two calls the letter is
at the front of the ring. -/
theorem unknown_silences_letter :
    ∃ s t outs, start [4, 251, 65, 2, 253] ⟨fun _ => 0, fun _ => 0, false, false, fun _ => 0,
        fun _ => 0, 0, false, 0, 0, ⟨[], 0, 0⟩⟩ = .ok s ∧
      run step s (.rxInterrupt 5 :: List.replicate 60 (.main 0)) = .ok (t, outs) ∧
      receivedFrames (shown outs) <+: [[4, 251]].filter Intact ∧
      (t.code = [] ∧ t.receivePc = .idle ∧ t.sendPc = .idle ∧ t.rx.Holds [65, 2, 253]) ∧
      ∀ moves', ∃ u outs', run step t moves' = .ok (u, outs') ∧
          (∀ e ∈ shown outs', e = .pressed) ∧ u.computation = t.computation := by
  have hsized : ∀ f ∈ [[4, 251]], WellSized f := by
    intro f hf
    rw [List.mem_singleton.mp hf]
    exact ⟨4, rfl, rfl⟩
  have hwaits : (start [4, 251, 65, 2, 253] ⟨fun _ => 0, fun _ => 0, false, false, fun _ => 0,
        fun _ => 0, 0, false, 0, 0, ⟨[], 0, 0⟩⟩ >>= fun s =>
      (run step s (.rxInterrupt 5 :: List.replicate 60 (.main 0))).map
        (fun r => (r.1.code, r.1.receivePc, r.1.sendPc, r.1.rx))) =
          .ok ([], .idle, .idle, letterRing) := rfl
  obtain ⟨s, t, outs, hstart, hrun, hreceived, hsilent⟩ := unknown_silences [[4, 251]] hsized
    Progress.not_known_letter [2, 253] ⟨fun _ => 0, fun _ => 0, false, false, fun _ => 0,
      fun _ => 0, 0, false, 0, 0, ⟨[], 0, 0⟩⟩ (.rxInterrupt 5 :: List.replicate 60 (.main 0))
  obtain ⟨s', hstart', hmap⟩ := bind_ok_iff.mp hwaits
  obtain rfl : s = s' := by simpa using hstart.symm.trans hstart'
  rw [hrun] at hmap
  simp only [Except.map, Except.ok.injEq, Prod.mk.injEq] at hmap
  obtain ⟨hcode, hcall, hsend, hrx⟩ := hmap
  have hring : t.rx.Holds [65, 2, 253] := hrx ▸ holds_letterRing
  exact ⟨s, t, outs, hstart, hrun, hreceived, ⟨hcode, hcall, hsend, hring⟩,
    hsilent hcode hcall hsend [2, 253] hring⟩

end Prgsem.Firmware.System
