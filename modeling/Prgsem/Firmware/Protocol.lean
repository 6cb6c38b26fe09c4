import Prgsem.Firmware.Messages
import Prgsem.Shared.Trace

/-!
# The computation protocol

What a peer of the firmware can rely on, as a transition system over the events at
its edge: messages that come in, presses of the abort button and frames that go
out. An acknowledged `MSG_COMPUTE` starts a job, its tasks are reported in order
and the job ends with one terminator; an acknowledged `MSG_ABORT` ends it silently.
-/

namespace Prgsem.Firmware

set_option autoImplicit false

inductive Event where
  | received (p : Payload)
  | pressed
  | sent (bytes : List UInt8)

/-- The chunk that is computed and the number of its tasks reported so far. -/
structure Job where
  chunk_id : UInt16
  nbr_tasks : UInt16
  reported : Nat

/-- The last message that came in, whether the button was pressed since the last
`MSG_COMPUTE` came in, and the job that was acknowledged and is not finished. -/
structure Phase where
  request : Option Payload
  pressed : Bool
  job : Option Job

namespace Phase

def start : Phase := ⟨none, false, none⟩

def receive (ph : Phase) (p : Payload) : Phase :=
  match p with
  | .compute _ _ => { ph with request := some p, pressed := false }
  | _ => { ph with request := some p }

def press (ph : Phase) : Phase := { ph with pressed := true }

@[simp] theorem receive_request (ph : Phase) (p : Payload) :
    (ph.receive p).request = some p := by
  cases p <;> rfl

@[simp] theorem receive_job (ph : Phase) (p : Payload) : (ph.receive p).job = ph.job := by
  cases p <;> rfl

end Phase

inductive Allowed : Phase → Event → Phase → Prop where
  | received (ph : Phase) (p : Payload) : Allowed ph (.received p) (ph.receive p)
  | pressed (ph : Phase) : Allowed ph .pressed ph.press
  | start {ph : Phase} {c n : UInt16} (hrequest : ph.request = some (.compute c n)) :
      Allowed ph (.sent Payload.ok.frame) { ph with job := some ⟨c, n, 0⟩ }
  | stop {ph : Phase} (hrequest : ph.request = some .abort) :
      Allowed ph (.sent Payload.ok.frame) { ph with job := none }
  | data {ph : Phase} {c n t : UInt16} {k : Nat} (r : UInt8) (hjob : ph.job = some ⟨c, n, k⟩)
      (hmore : k < n.toNat) (ht : t.toNat = k + 1) :
      Allowed ph (.sent (Payload.computeData c t r).frame)
        { ph with job := some ⟨c, n, k + 1⟩ }
  | done {ph : Phase} {c n : UInt16} (hjob : ph.job = some ⟨c, n, n.toNat⟩) :
      Allowed ph (.sent Payload.done.frame) { ph with job := none }
  | abort {ph : Phase} {job : Job} (hjob : ph.job = some job) (hpressed : ph.pressed = true) :
      Allowed ph (.sent Payload.abort.frame) { ph with job := none }
  | answer (ph : Phase) {p : Payload} (hp : p.type = .version ∨ p.type = .error) :
      Allowed ph (.sent p.frame) ph

/-- The frames that report on a job: its data and its terminators. -/
def isReport (bytes : List UInt8) : Bool :=
  match bytes.head?.bind MessageType.ofByte with
  | some .computeData | some .done | some .abort => true
  | _ => false

def Event.report : Event → Option (List UInt8)
  | sent bytes => if isReport bytes then some bytes else none
  | _ => none

def reports (events : List Event) : List (List UInt8) := events.filterMap Event.report

theorem Payload.type_of_frame_eq {p q : Payload} (h : p.frame = q.frame) : p.type = q.type := by
  rw [frame_eq_cons, frame_eq_cons, List.cons.injEq] at h
  exact MessageType.toByte_inj h.1

theorem isReport_frame (p : Payload) :
    isReport p.frame = true ↔ p.type = .computeData ∨ p.type = .done ∨ p.type = .abort := by
  rw [isReport, Payload.frame_eq_cons, List.head?_cons, Option.bind_some,
    MessageType.ofByte_toByte]
  cases p.type <;> simp

/-- What is still reported on a job, up to the next acknowledgement: the tasks that
follow in order, no more than there are, then at most one terminator, which is
`MSG_DONE` only after all tasks. -/
def Remaining (c n : UInt16) (k : Nat) (rs : List (List UInt8)) : Prop :=
  ∃ (data : List (UInt16 × UInt8)) (terminator : List (List UInt8)),
    rs = data.map (fun d => (Payload.computeData c d.1 d.2).frame) ++ terminator ∧
    data.map (fun d => d.1.toNat) = List.range' (k + 1) data.length ∧
    k + data.length ≤ n.toNat ∧
    (terminator = [] ∨ terminator = [Payload.done.frame] ∧ k + data.length = n.toNat ∨
      terminator = [Payload.abort.frame])

/-- The protocol as a property of the events so far. The acknowledgement of a
message is the `MSG_OK` with no other message received in between. -/
structure Obeys (events : List Event) : Prop where
  /-- After an acknowledged `MSG_COMPUTE`, up to the next acknowledgement, its job is
  reported from its first task on, and `MSG_ABORT` is sent only after a press. -/
  compute : ∀ before c n mid seg after,
    events = before ++ .received (.compute c n) :: mid ++ .sent Payload.ok.frame :: seg ++ after →
    (∀ p, .received p ∉ mid) → .sent Payload.ok.frame ∉ seg →
    Remaining c n 0 (reports seg) ∧
      ∀ seg₁ seg₂, seg = seg₁ ++ .sent Payload.abort.frame :: seg₂ → .pressed ∈ mid ++ seg₁
  /-- After an acknowledged `MSG_ABORT` nothing is reported. -/
  abort : ∀ before mid seg after,
    events = before ++ .received .abort :: mid ++ .sent Payload.ok.frame :: seg ++ after →
    (∀ p, .received p ∉ mid) → .sent Payload.ok.frame ∉ seg → reports seg = []

/-! ## What the transition system promises -/

theorem Remaining.nil (c n : UInt16) {k : Nat} (hk : k ≤ n.toNat) : Remaining c n k [] :=
  ⟨[], [], rfl, rfl, hk, .inl rfl⟩

theorem Remaining.data {c n t : UInt16} {k : Nat} (r : UInt8) {rs : List (List UInt8)}
    (ht : t.toNat = k + 1) (h : Remaining c n (k + 1) rs) :
    Remaining c n k ((Payload.computeData c t r).frame :: rs) := by
  rcases h with ⟨data, terminator, hrs, htasks, hcount, hend⟩
  refine ⟨(t, r) :: data, terminator, by rw [hrs]; rfl, ?_, ?_, ?_⟩
  · rw [List.map_cons, htasks, ht, List.length_cons, List.range'_succ]
  · rw [List.length_cons]
    omega
  · rw [List.length_cons, Nat.add_comm data.length 1, ← Nat.add_assoc]
    exact hend

section Inversion
variable {ph ph' : Phase}

theorem Allowed.of_ok (h : Allowed ph (.sent Payload.ok.frame) ph') :
    (∃ c n, ph.request = some (.compute c n) ∧ ph' = { ph with job := some ⟨c, n, 0⟩ }) ∨
      ph.request = some .abort ∧ ph' = { ph with job := none } := by
  generalize he : Event.sent Payload.ok.frame = e at h
  cases h with
  | start hrequest => exact .inl ⟨_, _, hrequest, rfl⟩
  | stop hrequest => exact .inr ⟨hrequest, rfl⟩
  | received | pressed => cases he
  | data | done | abort => cases Payload.type_of_frame_eq (Event.sent.inj he)
  | answer hp =>
    rw [← Payload.type_of_frame_eq (Event.sent.inj he)] at hp
    rcases hp with hp | hp <;> cases hp

theorem Allowed.of_abort (h : Allowed ph (.sent Payload.abort.frame) ph') : ph.pressed = true := by
  generalize he : Event.sent Payload.abort.frame = e at h
  cases h with
  | abort _ hpressed => exact hpressed
  | received | pressed => cases he
  | start | stop | data | done => cases Payload.type_of_frame_eq (Event.sent.inj he)
  | answer hp =>
    rw [← Payload.type_of_frame_eq (Event.sent.inj he)] at hp
    rcases hp with hp | hp <;> cases hp

theorem Allowed.request_eq {e : Event} (h : Allowed ph e ph') (he : ∀ p, e ≠ .received p) :
    ph'.request = ph.request := by
  cases h with
  | received p => exact absurd rfl (he p)
  | _ => rfl

theorem Allowed.pressed_of_gain {e : Event} (h : Allowed ph e ph') (hbefore : ¬ ph.pressed = true)
    (hafter : ph'.pressed = true) : e = .pressed := by
  cases h with
  | pressed => rfl
  | received p =>
    exfalso
    cases p <;> simp [Phase.receive] at hafter <;> exact hbefore hafter
  | _ => exact absurd hafter hbefore

/-- A press takes no message away from the firmware. -/
theorem Allowed.press {bytes : List UInt8} (h : Allowed ph (.sent bytes) ph') :
    Allowed ph.press (.sent bytes) ph'.press := by
  cases h with
  | start hrequest => exact .start hrequest
  | stop hrequest => exact .stop hrequest
  | data r hjob hmore ht => exact .data r hjob hmore ht
  | done hjob => exact .done hjob
  | abort hjob _ => exact .abort hjob rfl
  | answer hp => exact .answer ph.press hp

end Inversion

/-- The reports of a trace without an acknowledgement, from the job at its start. -/
theorem reports_of_trace {ph ph' : Phase} {seg : List Event} (h : Trace Allowed ph seg ph')
    (hack : .sent Payload.ok.frame ∉ seg) :
    match ph.job with
    | none => reports seg = []
    | some job => job.reported ≤ job.nbr_tasks.toNat →
        Remaining job.chunk_id job.nbr_tasks job.reported (reports seg) := by
  induction h with
  | nil ph =>
    split
    · rfl
    · exact Remaining.nil _ _
  | @cons ph ph₁ _ e es hstep _ ih =>
    have hrest := ih fun hmem => hack (List.mem_cons_of_mem e hmem)
    have silent (hreport : e.report = none) : reports (e :: es) = reports es :=
      List.filterMap_cons_none hreport
    have reported {p : Payload} (he : e = .sent p.frame) (hp : isReport p.frame = true) :
        reports (e :: es) = p.frame :: reports es := by
      subst he
      exact List.filterMap_cons_some (by rw [Event.report, if_pos hp])
    cases hstep with
    | received p =>
      rw [silent rfl]
      rwa [Phase.receive_job] at hrest
    | pressed =>
      rw [silent rfl]
      exact hrest
    | start => exact absurd List.mem_cons_self hack
    | stop => exact absurd List.mem_cons_self hack
    | data r hjob hmore ht =>
      rw [reported rfl ((isReport_frame _).mpr (.inl rfl)), hjob]
      intro _
      exact .data r ht (hrest hmore)
    | done hjob =>
      rw [reported rfl ((isReport_frame _).mpr (.inr (.inl rfl))), hjob]
      intro _
      rw [hrest]
      exact ⟨[], [Payload.done.frame], rfl, rfl, Nat.le_refl _, .inr (.inl ⟨rfl, rfl⟩)⟩
    | @abort job hjob _ =>
      rw [reported rfl ((isReport_frame _).mpr (.inr (.inr rfl))), hjob]
      intro hle
      rw [hrest]
      exact ⟨[], [Payload.abort.frame], rfl, rfl, hle, .inr (.inr rfl)⟩
    | @answer p hp =>
      have hquiet : ¬ isReport p.frame = true := by
        rw [isReport_frame]
        rcases hp with hp | hp <;> simp [hp]
      rw [silent (if_neg hquiet)]
      exact hrest

/-- The phase right after an acknowledgement. -/
theorem acknowledged {ph ph' : Phase} {p : Payload} {mid seg : List Event}
    (h : Trace Allowed ph (.received p :: mid ++ .sent Payload.ok.frame :: seg) ph')
    (hmid : ∀ q, .received q ∉ mid) :
    ∃ ph₁ ph₂, Trace Allowed (ph.receive p) mid ph₁ ∧ ph₁.request = some p ∧
      Allowed ph₁ (.sent Payload.ok.frame) ph₂ ∧ Trace Allowed ph₂ seg ph' := by
  obtain ⟨ph₁, ph₂, hbefore, hok, hseg⟩ := h.split_cons
  cases hbefore with
  | cons hreceived hmidTrace =>
    cases hreceived
    refine ⟨ph₁, ph₂, hmidTrace, ?_, hok, hseg⟩
    apply hmidTrace.keeps (P := fun ph => ph.request = some p)
    · intro t e t' he hstep ht
      rw [hstep.request_eq fun q hq => hmid q (hq ▸ he), ht]
    · exact Phase.receive_request ph p

/-- Every trace that the transition system allows obeys the protocol. -/
theorem obeys_of_trace {events : List Event} {ph ph' : Phase} (h : Trace Allowed ph events ph') :
    Obeys events := by
  constructor
  · rintro before c n mid seg after rfl hmid hack
    obtain ⟨_, hfront, -⟩ := h.split
    rw [List.append_assoc] at hfront
    obtain ⟨ph₀, -, hseg⟩ := hfront.split
    obtain ⟨ph₁, ph₂, hmidTrace, hrequest, hok, hseg⟩ := acknowledged hseg hmid
    rcases hok.of_ok with ⟨c', n', hcompute, rfl⟩ | ⟨habort, -⟩
    · rw [hrequest, Option.some.injEq, Payload.compute.injEq] at hcompute
      obtain ⟨rfl, rfl⟩ := hcompute
      refine ⟨reports_of_trace hseg hack (Nat.zero_le _), ?_⟩
      rintro seg₁ seg₂ rfl
      obtain ⟨ph₃, _, hfirst, hsent, -⟩ := hseg.split_cons
      have hthrough : Trace Allowed (ph₀.receive (.compute c n))
          (mid ++ .sent Payload.ok.frame :: seg₁) ph₃ := hmidTrace.append (.cons hok hfirst)
      obtain ⟨e, he, _, _, hstep, hbefore, hafter⟩ :=
        hthrough.exists_of_gain (P := fun ph => ph.pressed = true) (by simp [Phase.receive])
          hsent.of_abort
      rw [hstep.pressed_of_gain hbefore hafter] at he
      simpa using he
    · rw [hrequest] at habort
      cases habort
  · rintro before mid seg after rfl hmid hack
    obtain ⟨_, hfront, -⟩ := h.split
    rw [List.append_assoc] at hfront
    obtain ⟨ph₀, -, hseg⟩ := hfront.split
    obtain ⟨ph₁, ph₂, -, hrequest, hok, hseg⟩ := acknowledged hseg hmid
    rcases hok.of_ok with ⟨c, n, hcompute, -⟩ | ⟨-, rfl⟩
    · rw [hrequest] at hcompute
      cases hcompute
    · exact reports_of_trace hseg hack

end Prgsem.Firmware
