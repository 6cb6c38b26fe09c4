import Prgsem.Firmware.Decode

/-!
# Two message tables on one line

The application and the firmware of the lab each have a `messages.h`. The tables
agree up to `MSG_STARTUP` and number different messages from 7 on, with other
payloads behind them.
-/

namespace Prgsem.Firmware

open CMemory
set_option autoImplicit false

/-- The message of the application's table that a message of the firmware means. -/
def Payload.toHost : Payload → Option Prgsem.Payload
  | ok => some .ok
  | error => some .error
  | abort => some .abort
  | done => some .done
  | getVersion => some .getVersion
  | version major minor patch => some (.version major minor patch)
  | startup message => some (.startup message)
  | compute .. | computeData .. => none

namespace Payload

theorem frame_of_toHost {p : Payload} {q : Prgsem.Payload} (h : p.toHost = some q) :
    q.frame = p.frame := by
  cases p <;> cases h <;> rfl

theorem host_frame_injective {p q : Prgsem.Payload} (h : p.frame = q.frame) : p = q := by
  have hp := p.payload_store .sysV (fun _ => 0) 0
  have hq := q.payload_store .sysV (fun _ => 0) 0
  have hparse := Prgsem.parseMessageBuf_frame .sysV p [] ⟨0, fun _ => 0, 0⟩
  rw [h, Prgsem.parseMessageBuf_frame .sysV q [] ⟨0, fun _ => 0, 0⟩, Except.ok.injEq,
    Prod.mk.injEq] at hparse
  rw [← hparse.2] at hp
  exact Option.some.inj (hp.symm.trans hq)

/-- `MSG_COMPUTE` and `MSG_COMPUTE_DATA` of the firmware are no messages of the application. -/
theorem not_common (t : Prgsem.MessageType) (b : UInt8) (n : Nat)
    (h : b = 7 ∧ n = 4 ∨ b = 8 ∧ n = 5) : ¬ (t.toByte = b ∧ t.bodyLength = n) := by
  rcases h with ⟨rfl, rfl⟩ | ⟨rfl, rfl⟩ <;> cases t <;> decide

/-- Behind an equal type byte the payloads have different lengths, unless the type is
one of the common ones. -/
theorem toHost_isSome_of_frame {p : Payload} {q : Prgsem.Payload} (h : q.frame = p.frame) :
    p.toHost.isSome := by
  have htype : q.type.toByte = p.type.toByte := (List.cons.inj h).1
  have hlength := congrArg List.length h
  rw [q.length_frame, length_frame, length_body, Nat.add_right_cancel_iff] at hlength
  cases p with
  | compute c n =>
    exact absurd ⟨htype, hlength⟩ (not_common q.type 7 4 (.inl ⟨rfl, rfl⟩))
  | computeData c t r =>
    exact absurd ⟨htype, hlength⟩ (not_common q.type 8 5 (.inr ⟨rfl, rfl⟩))
  | _ => rfl

theorem frame_eq_iff {p : Payload} {q : Prgsem.Payload} :
    q.frame = p.frame ↔ p.toHost = some q := by
  constructor
  · intro h
    obtain ⟨q', hq'⟩ := Option.isSome_iff_exists.mp (toHost_isSome_of_frame h)
    rw [hq', host_frame_injective ((frame_of_toHost hq').trans h.symm)]
  · exact frame_of_toHost

/-- The type bytes that both tables give the same meaning. -/
theorem exists_toHost_iff {q : Prgsem.Payload} :
    (∃ p : Payload, p.toHost = some q) ↔ q.type.toByte < 7 := by
  constructor
  · rintro ⟨p, hp⟩
    cases p <;> cases hp <;> simp [Prgsem.Payload.type, Prgsem.MessageType.toByte]
  · intro h
    cases q with
    | ok => exact ⟨.ok, rfl⟩
    | error => exact ⟨.error, rfl⟩
    | abort => exact ⟨.abort, rfl⟩
    | done => exact ⟨.done, rfl⟩
    | getVersion => exact ⟨.getVersion, rfl⟩
    | version a b c => exact ⟨.version a b c, rfl⟩
    | startup m => exact ⟨.startup m, rfl⟩
    | setCompute | compute | computeData =>
      simp [Prgsem.Payload.type, Prgsem.MessageType.toByte] at h

end Payload

/-- Both decoders accept a byte string exactly when the application accepts it with a
type up to `MSG_STARTUP`. They then read the same message, and both encoders write
the same bytes for it. -/
theorem codecs_agree (abi : Abi) :
    (∀ (b : List UInt8) (target : Prgsem.Message) (target' : Message),
      ((∃ m, Prgsem.parseMessageBuf abi b b.length target = .ok (true, m)) ∧
          (∃ m', parseMessageBuf b b.length target' = .ok (true, m')) ↔
        ∃ m, Prgsem.parseMessageBuf abi b b.length target = .ok (true, m) ∧ m.type < 7) ∧
      ∀ m m', Prgsem.parseMessageBuf abi b b.length target = .ok (true, m) →
        parseMessageBuf b b.length target' = .ok (true, m') →
        m.type = m'.type ∧ (payload m').bind Payload.toHost = m.payload abi) ∧
    ∀ (msg : Prgsem.Message) (msg' : Message) (p : Payload), payload msg' = some p →
      p.toHost.isSome → msg.payload abi = p.toHost →
      ∀ (buf buf' : List UInt8) (len len' : Int), abi.sizeofMessage ≤ buf.length →
        sizeofMessage ≤ buf'.length →
        ∃ out out', Prgsem.fillMessageBuf abi msg buf abi.sizeofMessage len =
            .ok (true, p.frame ++ out, (p.frame.length : Int)) ∧
          fillMessageBuf msg' buf' sizeofMessage len' =
            .ok (true, p.frame ++ out', (p.frame.length : Int)) := by
  have host (b : List UInt8) (target m : Prgsem.Message) := by
    have h := Prgsem.parseMessageBuf_accepts_iff abi b [] target m
    rwa [List.append_nil] at h
  have firmware (b : List UInt8) (target m : Message) := by
    have h := parseMessageBuf_accepts_iff b [] target m
    rwa [List.append_nil] at h
  refine ⟨?_, ?_⟩
  · intro b target target'
    refine ⟨⟨?_, ?_⟩, ?_⟩
    · rintro ⟨⟨m, hm⟩, m', hm'⟩
      obtain ⟨q, rfl, rfl⟩ := (host b target m).mp hm
      obtain ⟨p, hp, rfl⟩ := (firmware _ target' m').mp hm'
      exact ⟨_, hm, Payload.exists_toHost_iff.mp ⟨p, Payload.frame_eq_iff.mp hp.symm⟩⟩
    · rintro ⟨m, hm, hlt⟩
      obtain ⟨q, rfl, rfl⟩ := (host b target m).mp hm
      obtain ⟨p, hp⟩ := Payload.exists_toHost_iff.mpr hlt
      exact ⟨⟨_, hm⟩, _, (firmware _ target' _).mpr ⟨p, (Payload.frame_of_toHost hp).symm, rfl⟩⟩
    · intro m m' hm hm'
      obtain ⟨q, rfl, rfl⟩ := (host b target m).mp hm
      obtain ⟨p, hp, rfl⟩ := (firmware _ target' m').mp hm'
      refine ⟨(List.cons.inj hp.symm).1, ?_⟩
      rw [p.payload_store, q.payload_store, Option.bind_some, Payload.frame_eq_iff.mp hp.symm]
  · intro msg msg' p hp hcommon hmsg buf buf' len len' hbuf hbuf'
    obtain ⟨q, hq⟩ := Option.isSome_iff_exists.mp hcommon
    rw [hq] at hmsg
    have hframe := Payload.frame_of_toHost hq
    have hroom := frame_le_sizeofMessage abi q
    have hroom' := p.length_frame_le
    have hsize : sizeofMessage = 14 := rfl
    have hfill := Prgsem.fillMessageBuf_eq abi msg q buf abi.sizeofMessage len hmsg
      (Int.le_refl _) (by omega)
    rw [hframe] at hfill
    exact ⟨_, _, hfill, fillMessageBuf_eq msg' p buf' len' hp (by omega)⟩

end Prgsem.Firmware
