import Prgsem.Round
import Prgsem.Shared.Run

/-!
# The bounds of the message buffers

The two buffers of a round are as long as an uninitialised `len` says: on the
sending side always, on the receiving side for a type byte that
`get_message_size` does not know. A round stays inside of its buffers exactly
when the first is long enough for the frame and the second has a positive length.
-/

namespace Prgsem

open CMemory Run
set_option autoImplicit false

/-- The round creates no buffer of zero or negative length and touches no byte
outside of a buffer. -/
def InBounds (abi : Abi) (s : MainState) (env : Env) : Prop :=
  mainRound abi s env ≠ .error .badLength ∧ mainRound abi s env ≠ .error .outOfBounds

/-- Where `type` holds a byte after the first read, it is a known type or the
uninitialised `len` is positive. -/
def RecvFits (s : MainState) (env : Env) : Prop :=
  ∀ b rest, firstByte env.type s.input = some (b, rest) →
    (∃ t : MessageType, b = t.toByte) ∨ 0 < env.len

theorem lenFor_pos_iff {env : Env} {b : UInt8} :
    0 < env.lenFor b ↔ (∃ t : MessageType, b = t.toByte) ∨ 0 < env.len := by
  by_cases hknown : ∃ t : MessageType, b = t.toByte
  · obtain ⟨t, rfl⟩ := hknown
    simp only [Env.lenFor, MessageType.getMessageSize_toByte]
    constructor
    · exact fun _ => .inl ⟨t, rfl⟩
    · intro _
      omega
  · have hunknown := getMessageSize_unknown (fun t ht => hknown ⟨t, ht⟩) env.len
    simp only [Env.lenFor, hunknown, hknown, false_or]

theorem receive_inBounds {abi : Abi} {s : MainState} {env : Env} (h : RecvFits s env) :
    receive abi env s ≠ .error .badLength ∧ receive abi env s ≠ .error .outOfBounds := by
  cases hfirst : firstByte env.type s.input with
  | none => simp [receive_idle abi hfirst]
  | some start =>
    obtain ⟨b, rest⟩ := start
    have hlen := lenFor_pos_iff.mpr (h b rest hfirst)
    by_cases hsleep : (env.lenFor b + 25) * 200 ≤ intMax
    · obtain ⟨pass, results, heq, -⟩ := receive_pass abi hfirst hlen hsleep rfl
      simp [heq]
    · simp [receive_overflow abi hfirst hlen (Int.not_le.mp hsleep)]

theorem inBounds_iff {abi : Abi} {s : MainState} {env : Env} :
    InBounds abi s env ↔ SendFits env ∧ RecvFits s env := by
  by_cases hsend : SendFits env
  · have hround (e : Fault) : mainRound abi s env = .error e ↔ receive abi env s = .error e := by
      simp only [mainRound, handleEvent_ok abi hsend, ok_bind]
      cases receive abi env s with
      | error e' => simp
      | ok r => simp [pure, Except.pure]
    simp only [InBounds, ne_eq, hround, hsend, true_and]
    constructor
    · intro hin b rest hfirst
      apply lenFor_pos_iff.mp
      by_contra hlen
      exact hin.1 (receive_badLength abi hfirst (Int.not_lt.mp hlen))
    · exact receive_inBounds
  · simp only [hsend, false_and, iff_false]
    intro hin
    rcases handleEvent_fault abi hsend with hevent | hevent
    · exact hin.1 (by simp only [mainRound, hevent, error_bind])
    · exact hin.2 (by simp only [mainRound, hevent, error_bind])

/-- All rounds of a run stay in their buffers exactly when the uninitialised
lengths are right in all of them. -/
theorem run_inBounds_iff (abi : Abi) (s : MainState) (envs : List Env) :
    Along (mainRound abi) (InBounds abi) s envs ↔
      Along (mainRound abi) (fun s env => SendFits env ∧ RecvFits s env) s envs :=
  along_congr (fun _ _ => inBounds_iff) s envs

/-- The key `g` while the uninitialised `len` holds 1: the checksum of the frame
is written behind the buffer. -/
theorem run_overruns_key :
    ¬ Along (mainRound .sysV) (InBounds .sysV) ⟨.init sizeX sizeY fun _ => 0, []⟩
      [{ Env.zero with key := some 103, sendLen := 1 }] := by
  intro h
  exact h.1.2 rfl

end Prgsem
