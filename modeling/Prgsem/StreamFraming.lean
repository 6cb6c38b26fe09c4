import Prgsem.FrameHandling

/-!
# A stream of messages

What the loop makes of a stream in which encoded messages and bytes of no known
type follow one another. A message is handled in one round whatever the locals
hold. A byte of no known type is handled on its own only when the uninitialised
`len` happens to be 1, and without effect only when the stale `msg` has no known
type either.
-/

namespace Prgsem

open CMemory Run
set_option autoImplicit false

/-- The bytes that `fill_message_buf` writes for a message. -/
def encode (abi : Abi) (p : Payload) : List UInt8 :=
  match fillMessageBuf abi ⟨p.type.toByte, p.store abi fun _ => 0, 0⟩
    (List.replicate abi.sizeofMessage 0) abi.sizeofMessage 0 with
  | .ok (true, buf, len) => buf.take len.toNat
  | _ => []

theorem encode_eq (abi : Abi) (p : Payload) : encode abi p = p.frame := by
  have hle := frame_le_sizeofMessage abi p
  rw [encode, fillMessageBuf_eq abi _ p _ _ 0 (p.payload_store abi _ _) (Int.le_refl _)
    (by simpa using hle)]
  simp only [Int.toNat_natCast, List.take_left]

inductive Piece where
  | message (p : Payload)
  | garbage (b : UInt8)

def Piece.bytes (abi : Abi) : Piece → List UInt8
  | message p => encode abi p
  | garbage b => [b]

def Piece.Valid : Piece → Prop
  | message _ => True
  | garbage b => ∀ t : MessageType, b ≠ t.toByte

def wire (abi : Abi) (pieces : List Piece) : List ReadOutcome :=
  (pieces.flatMap (Piece.bytes abi)).map .byte

/-- A message is accepted with its payload and reported; garbage is consumed
alone and the dispatch finds no known type. -/
def Handled (abi : Abi) : Piece → Pass → Prop
  | .message p, pass =>
    pass.accepted = true ∧ pass.msg.payload abi = some p ∧ pass.report.Shows p
  | .garbage b, pass =>
    pass.frame = [b] ∧ pass.accepted = false ∧ ∀ t : MessageType, pass.msg.type ≠ t.toByte

def collect (results : Matrix sizeX sizeY) : Piece → Matrix sizeX sizeY
  | .message p => record results p
  | .garbage _ => results

/-- What the uninitialised locals of the receiving side have to hold for a piece. -/
def Fits : Piece → Env → Prop
  | .message _, _ => True
  | .garbage b, env =>
    env.len = 1 ∧ (b = 255 ∨ ∀ t : MessageType, env.recvMsg.type ≠ t.toByte)

section Step
variable (abi : Abi) (results : Matrix sizeX sizeY) {env : Env}

theorem receive_message (env : Env) (p : Payload) (rest : List ReadOutcome) :
    ∃ pass, receive abi env ⟨results, p.frame.map .byte ++ rest⟩ =
        .ok (⟨record results p, rest⟩, some pass) ∧ Handled abi (.message p) pass := by
  have hlen : env.lenFor p.type.toByte = p.frame.length := by
    rw [Env.lenFor, p.getMessageSize_type]
  have hframe := p.length_frame
  have hbound : p.type.bodyLength ≤ 33 := by cases p.type <;> decide
  have hmax : intMax = 2147483647 := rfl
  have hold : (oldBytes (env.lenFor p.type.toByte) env.recvMem).length =
      (p.body ++ [255 - p.content.sum]).length := by
    simp only [oldBytes, List.length_ofFn, hlen, List.length_append, Payload.length_body,
      List.length_singleton]
    omega
  have hfirst : firstByte env.type (p.frame.map .byte ++ rest) =
      some (p.type.toByte, (p.body ++ [255 - p.content.sum]).map .byte ++ rest) := rfl
  obtain ⟨pass, results', heq, hpass, -, hparse, hdispatch⟩ := receive_pass abi
    (s := ⟨results, p.frame.map .byte ++ rest⟩) hfirst (by omega) (by omega)
    (assemble_bytes p.type.toByte hold rest)
  rw [← Payload.frame_eq_cons] at hpass hparse hdispatch
  have hframe' := parseMessageBuf_frame abi p [] env.recvMsg
  rw [List.append_nil, hparse] at hframe'
  simp only [Except.ok.injEq, Prod.mk.injEq] at hframe'
  obtain ⟨haccepted, hmsg⟩ := hframe'
  have hpayload : pass.msg.payload abi = some p := by
    rw [hmsg]
    exact p.payload_store abi _ _
  obtain ⟨report, hreport, hshows⟩ := dispatch_payload abi hpayload
    (memoryFrom p.frame env.recvMem) results
  rw [hdispatch] at hreport
  cases hreport
  exact ⟨pass, heq, haccepted, hpayload, hshows⟩

/-- With a stale length of 1 a byte of no known type is rejected on its own. The
dispatch finds its value when it is 255 and the stale type byte otherwise. -/
theorem receive_garbage {b : UInt8} (hb : ∀ t : MessageType, b ≠ t.toByte) (hlen : env.len = 1)
    (rest : List ReadOutcome) :
    ∃ pass results', receive abi env ⟨results, .byte b :: rest⟩ =
        .ok (⟨results', rest⟩, some pass) ∧
      pass.frame = [b] ∧ pass.accepted = false ∧
      pass.msg = (if b = 255 then { env.recvMsg with type := b } else env.recvMsg) ∧
      dispatch pass.msg (memoryFrom [b] env.recvMem) results = .ok (pass.report, results') := by
  have hlenFor : env.lenFor b = 1 := by rw [Env.lenFor, getMessageSize_unknown hb, hlen]
  have hbytes : assemble b (oldBytes (env.lenFor b) env.recvMem) rest = ([], rest, false) := by
    rw [hlenFor]
    rfl
  have hmax : intMax = 2147483647 := rfl
  have hfirst : firstByte env.type (.byte b :: rest) = some (b, rest) := rfl
  obtain ⟨pass, results', heq, hframe, -, hparse, hdispatch⟩ := receive_pass abi
    (s := ⟨results, .byte b :: rest⟩) hfirst (by omega) (by omega) hbytes
  have hreject := parseMessageBuf_reject abi [b] [] env.recvMsg (by
    intro p hp
    have hcount := congrArg List.length hp
    simp at hcount)
  rw [List.append_nil, hparse] at hreject
  simp only [Except.ok.injEq, Prod.mk.injEq, List.sum_singleton, List.headD_cons] at hreject
  exact ⟨pass, results', heq, hframe, hreject.1, hreject.2, hdispatch⟩

theorem garbage_unknown_iff {b : UInt8} (hb : ∀ t : MessageType, b ≠ t.toByte) (msg : Message) :
    (∀ t : MessageType, (if b = 255 then { msg with type := b } else msg).type ≠ t.toByte) ↔
      b = 255 ∨ ∀ t : MessageType, msg.type ≠ t.toByte := by
  by_cases h : b = 255
  · subst h
    simp only [if_true, true_or, iff_true]
    exact hb
  · simp only [h, if_false, false_or]

theorem garbage_bytes (b : UInt8) (rest : List ReadOutcome) :
    (Piece.bytes abi (.garbage b)).map .byte ++ rest = .byte b :: rest := rfl

theorem receive_piece {piece : Piece} (hvalid : piece.Valid) (hfits : Fits piece env)
    (rest : List ReadOutcome) :
    ∃ pass, receive abi env ⟨results, (piece.bytes abi).map .byte ++ rest⟩ =
      .ok (⟨collect results piece, rest⟩, some pass) ∧ Handled abi piece pass := by
  cases piece with
  | message p =>
    simp only [Piece.bytes, encode_eq]
    exact receive_message abi results env p rest
  | garbage b =>
    obtain ⟨pass, results', heq, hframe, haccepted, hmsg, hdispatch⟩ :=
      receive_garbage abi results hvalid hfits.1 rest
    have hunknown : ∀ t : MessageType, pass.msg.type ≠ t.toByte := by
      rw [hmsg]
      exact (garbage_unknown_iff hvalid env.recvMsg).mpr hfits.2
    rw [dispatch_unknown hunknown] at hdispatch
    simp only [Except.ok.injEq, Prod.mk.injEq] at hdispatch
    obtain ⟨-, rfl⟩ := hdispatch
    exact ⟨pass, heq, hframe, haccepted, hunknown⟩

variable {abi results} in
theorem fits_of_handled {piece : Piece} (hvalid : piece.Valid) {rest : List ReadOutcome}
    {s' : MainState} {out : Option Pass}
    (h : receive abi env ⟨results, (piece.bytes abi).map .byte ++ rest⟩ = .ok (s', out)) :
    ∃ pass, out = some pass ∧ (Handled abi piece pass → Fits piece env) := by
  cases piece with
  | message p =>
    simp only [Piece.bytes, encode_eq] at h
    obtain ⟨pass, heq, -⟩ := receive_message abi results env p rest
    rw [heq] at h
    cases h
    exact ⟨pass, rfl, fun _ => trivial⟩
  | garbage b =>
    have hfirst : firstByte env.type (.byte b :: rest) = some (b, rest) := rfl
    have hlenFor : env.lenFor b = env.len := by rw [Env.lenFor, getMessageSize_unknown hvalid]
    rw [garbage_bytes] at h
    by_cases hlen : 0 < env.lenFor b
    · by_cases hsleep : (env.lenFor b + 25) * 200 ≤ intMax
      · obtain ⟨pass, results', heq, hframe, -⟩ := receive_pass abi
          (s := ⟨results, .byte b :: rest⟩) hfirst hlen hsleep rfl
        rw [heq] at h
        cases h
        refine ⟨pass, rfl, ?_⟩
        rintro ⟨hsingle, -, hunknown⟩
        have hone : env.len = 1 := by
          have hcount := congrArg List.length (hframe.symm.trans hsingle)
          simp only [List.length_cons, length_assemble, oldBytes, List.length_ofFn, hlenFor,
            List.length_nil] at hcount hlen
          omega
        obtain ⟨pass', results'', heq', -, -, hmsg, -⟩ :=
          receive_garbage abi results hvalid hone rest
        rw [heq] at heq'
        simp only [Except.ok.injEq, Prod.mk.injEq, Option.some.injEq] at heq'
        rw [heq'.2, hmsg] at hunknown
        exact ⟨hone, (garbage_unknown_iff hvalid env.recvMsg).mp hunknown⟩
      · rw [receive_overflow abi hfirst hlen (Int.not_le.mp hsleep)] at h
        cases h
    · rw [receive_badLength abi hfirst (Int.not_lt.mp hlen)] at h
      cases h

end Step

/-! ## Runs -/

section Runs
variable (abi : Abi)

theorem mainRound_end {env : Env} (results : Matrix sizeX sizeY) (hsend : SendFits env) :
    ∃ out, mainRound abi ⟨results, wire abi []⟩ env = .ok (⟨results, wire abi []⟩, out) ∧
      out.pass = none :=
  ⟨⟨_, none⟩, mainRound_ok_iff.mpr ⟨hsend, receive_idle abi rfl, rfl⟩, rfl⟩

theorem wire_cons (piece : Piece) (pieces : List Piece) :
    wire abi (piece :: pieces) = (piece.bytes abi).map .byte ++ wire abi pieces := by
  simp [wire]

theorem mainRound_piece {env : Env} {piece : Piece} (hvalid : piece.Valid) (hsend : SendFits env)
    (hfits : Fits piece env) (results : Matrix sizeX sizeY) (pieces : List Piece) :
    ∃ out pass, mainRound abi ⟨results, wire abi (piece :: pieces)⟩ env =
        .ok (⟨collect results piece, wire abi pieces⟩, out) ∧
      out.pass = some pass ∧ Handled abi piece pass := by
  obtain ⟨pass, hreceive, hhandled⟩ := receive_piece abi results hvalid hfits (wire abi pieces)
  rw [← wire_cons] at hreceive
  exact ⟨⟨_, some pass⟩, pass, mainRound_ok_iff.mpr ⟨hsend, hreceive, rfl⟩, rfl, hhandled⟩

theorem run_pieces {pieces : List Piece} (hvalid : ∀ piece ∈ pieces, piece.Valid)
    (results : Matrix sizeX sizeY) {envs : List Env} (hsend : ∀ env ∈ envs, SendFits env)
    (hfits : ∀ pe ∈ pieces.zip envs, Fits pe.1 pe.2) :
    ∃ s outs, run (mainRound abi) ⟨results, wire abi pieces⟩ envs = .ok (s, outs) ∧
      List.Forall₂ (Handled abi) (pieces.take envs.length) (outs.filterMap Output.pass) ∧
      s.input = wire abi (pieces.drop envs.length) ∧
      s.results = (pieces.take envs.length).foldl collect results := by
  have hnil : ∀ piece ∈ ([] : List Piece), piece.Valid := by simp
  induction envs generalizing pieces results with
  | nil => exact ⟨_, [], rfl, .nil, rfl, rfl⟩
  | cons env envs ih =>
    have hsend' := fun e he => hsend e (List.mem_cons_of_mem env he)
    cases pieces with
    | nil =>
      obtain ⟨out, hround, hpass⟩ := mainRound_end abi results (hsend env List.mem_cons_self)
      obtain ⟨s, outs, hrun, hpasses, hinput, hresults⟩ :=
        ih hnil results hsend' (by simp)
      refine ⟨s, out :: outs, run_cons hround hrun, ?_, ?_, ?_⟩
      · simpa [hpass] using hpasses
      · simpa using hinput
      · simpa using hresults
    | cons piece pieces =>
      obtain ⟨out, pass, hround, hpass, hhandled⟩ := mainRound_piece abi
        (hvalid piece List.mem_cons_self) (hsend env List.mem_cons_self)
        (hfits (piece, env) List.mem_cons_self) results pieces
      obtain ⟨s, outs, hrun, hpasses, hinput, hresults⟩ :=
        ih (fun p hp => hvalid p (List.mem_cons_of_mem piece hp)) (collect results piece) hsend'
          (fun pe hpe => hfits pe (List.mem_cons_of_mem _ hpe))
      refine ⟨s, out :: outs, run_cons hround hrun, ?_, hinput, hresults⟩
      rw [List.filterMap_cons_some hpass]
      exact .cons hhandled hpasses

theorem fits_of_run {pieces : List Piece} (hvalid : ∀ piece ∈ pieces, piece.Valid)
    {results : Matrix sizeX sizeY} {envs : List Env} {s : MainState} {outs : List Output}
    (hrun : run (mainRound abi) ⟨results, wire abi pieces⟩ envs = .ok (s, outs))
    (hpasses : List.Forall₂ (Handled abi) (pieces.take envs.length)
      (outs.filterMap Output.pass)) :
    (∀ env ∈ envs, SendFits env) ∧ ∀ pe ∈ pieces.zip envs, Fits pe.1 pe.2 := by
  have hnil : ∀ piece ∈ ([] : List Piece), piece.Valid := by simp
  induction envs generalizing pieces results outs with
  | nil => simp
  | cons env envs ih =>
    obtain ⟨s', out, outs', hround, hrest, rfl⟩ := run_cons_ok_iff.mp hrun
    obtain ⟨hsend, hreceive, -⟩ := mainRound_ok_iff.mp hround
    cases pieces with
    | nil =>
      obtain ⟨out', hround', hpass⟩ := mainRound_end abi results hsend
      rw [hround] at hround'
      cases hround'
      rw [List.filterMap_cons_none hpass] at hpasses
      obtain ⟨hsends, -⟩ := ih hnil hrest (by simpa using hpasses)
      exact ⟨List.forall_mem_cons.mpr ⟨hsend, hsends⟩, by simp⟩
    | cons piece pieces =>
      have hpiece := hvalid piece List.mem_cons_self
      rw [wire_cons] at hreceive
      obtain ⟨pass, hpass, hfits⟩ := fits_of_handled hpiece hreceive
      rw [List.filterMap_cons_some hpass, List.length_cons, List.take_succ_cons] at hpasses
      obtain ⟨hhandled, htail⟩ := List.forall₂_cons.mp hpasses
      obtain ⟨out', pass', hround', -, -⟩ :=
        mainRound_piece abi hpiece hsend (hfits hhandled) results pieces
      rw [hround] at hround'
      cases hround'
      obtain ⟨hsends, hfits'⟩ := ih (fun p hp => hvalid p (List.mem_cons_of_mem piece hp))
        hrest htail
      exact ⟨List.forall_mem_cons.mpr ⟨hsend, hsends⟩,
        List.forall_mem_cons.mpr ⟨hfits hhandled, hfits'⟩⟩

/-- A stream of messages is dispatched message by message and consumed to its
end, whatever keys are handled on the way, exactly when the buffers for the
frames that are sent are long enough. -/
theorem stream_framing_iff (results : Matrix sizeX sizeY) (msgs : List Payload)
    (envs : List Env) :
    (∃ s outs, run (mainRound abi) ⟨results, wire abi (msgs.map .message)⟩ envs = .ok (s, outs) ∧
      List.Forall₂ (Handled abi) ((msgs.map .message).take envs.length)
        (outs.filterMap Output.pass) ∧
      s.input = wire abi ((msgs.map .message).drop envs.length) ∧
      s.results = (msgs.take envs.length).foldl record results) ↔
      ∀ env ∈ envs, SendFits env := by
  have hvalid : ∀ piece ∈ msgs.map Piece.message, piece.Valid := by
    intro piece hpiece
    obtain ⟨p, -, rfl⟩ := List.mem_map.mp hpiece
    trivial
  constructor
  · rintro ⟨s, outs, hrun, hpasses, -⟩
    exact (fits_of_run abi hvalid hrun hpasses).1
  · intro hsend
    have hfits : ∀ pe ∈ (msgs.map Piece.message).zip envs, Fits pe.1 pe.2 := by
      rintro ⟨piece, env⟩ hpe
      obtain ⟨p, -, rfl⟩ := List.mem_map.mp (List.of_mem_zip hpe).1
      trivial
    obtain ⟨s, outs, hrun, hpasses, hinput, hresults⟩ :=
      run_pieces abi hvalid results hsend hfits
    refine ⟨s, outs, hrun, hpasses, hinput, ?_⟩
    rw [hresults, ← List.map_take, List.foldl_map]
    rfl

/-- A message arrives while the key `g` is handled and the uninitialised `len` of
the sending side holds 1. -/
theorem stream_framing_overrun :
    ¬ ∃ s outs, run (mainRound .sysV)
        ⟨.init sizeX sizeY fun _ => 0, wire .sysV ([.version 1 0 0].map .message)⟩
        [{ Env.zero with key := some 103, sendLen := 1 }] = .ok (s, outs) ∧
      List.Forall₂ (Handled .sysV) [.message (.version 1 0 0)] (outs.filterMap Output.pass) := by
  rintro ⟨s, outs, hrun, hpasses⟩
  have hfault : run (mainRound .sysV)
      ⟨.init sizeX sizeY fun _ => 0, wire .sysV ([.version 1 0 0].map .message)⟩
      [{ Env.zero with key := some 103, sendLen := 1 }] = .error .outOfBounds := rfl
  rw [hfault] at hrun
  cases hrun

def withGarbage (garbage : List UInt8) (msgs : List Payload) : List Piece :=
  garbage.map .garbage ++ msgs.map .message

theorem fits_withGarbage_iff {garbage : List UInt8} (msgs : List Payload) {envs : List Env} :
    (∀ pe ∈ (withGarbage garbage msgs).zip envs, Fits pe.1 pe.2) ↔
      ∀ be ∈ garbage.zip envs, Fits (.garbage be.1) be.2 := by
  induction garbage generalizing envs with
  | nil =>
    simp only [List.zip_nil_left, List.not_mem_nil, false_imp_iff, implies_true, iff_true]
    rintro ⟨piece, env⟩ hpe
    obtain ⟨p, -, rfl⟩ := List.mem_map.mp (List.of_mem_zip hpe).1
    trivial
  | cons b garbage ih =>
    cases envs with
    | nil => simp
    | cons env envs =>
      have htail := @ih envs
      simp only [withGarbage, List.map_cons, List.cons_append, List.zip_cons_cons,
        List.forall_mem_cons] at htail ⊢
      rw [htail]

/-- The loop gets over garbage, byte by byte and without effect, and on to all
messages behind it exactly when the stale locals are right for every garbage
byte and the frames that are sent fit. -/
theorem resync_iff {garbage : List UInt8} (hgarbage : ∀ b ∈ garbage, ∀ t : MessageType,
    b ≠ t.toByte) (results : Matrix sizeX sizeY) (msgs : List Payload) (envs : List Env) :
    (∃ s outs, run (mainRound abi) ⟨results, wire abi (withGarbage garbage msgs)⟩ envs =
        .ok (s, outs) ∧
      List.Forall₂ (Handled abi) ((withGarbage garbage msgs).take envs.length)
        (outs.filterMap Output.pass) ∧
      s.input = wire abi ((withGarbage garbage msgs).drop envs.length) ∧
      s.results = ((withGarbage garbage msgs).take envs.length).foldl collect results) ↔
      (∀ env ∈ envs, SendFits env) ∧ ∀ be ∈ garbage.zip envs, Fits (.garbage be.1) be.2 := by
  have hvalid : ∀ piece ∈ withGarbage garbage msgs, piece.Valid := by
    intro piece hpiece
    rcases List.mem_append.mp hpiece with hpiece | hpiece
    · obtain ⟨b, hb, rfl⟩ := List.mem_map.mp hpiece
      exact hgarbage b hb
    · obtain ⟨p, -, rfl⟩ := List.mem_map.mp hpiece
      trivial
  rw [← fits_withGarbage_iff msgs]
  constructor
  · rintro ⟨s, outs, hrun, hpasses, -⟩
    exact fits_of_run abi hvalid hrun hpasses
  · rintro ⟨hsend, hfits⟩
    exact run_pieces abi hvalid results hsend hfits

theorem resync_single :
    ∃ s outs, run (mainRound .sysV)
        ⟨.init sizeX sizeY fun _ => 0, wire .sysV (withGarbage [200] [.version 1 0 0])⟩
        [{ Env.zero with len := 1, recvMsg := ⟨77, fun _ => 0, 0⟩ }, Env.zero] = .ok (s, outs) ∧
      List.Forall₂ (Handled .sysV) (withGarbage [200] [.version 1 0 0])
        (outs.filterMap Output.pass) ∧
      s.input = [] ∧ s.results = .init sizeX sizeY fun _ => 0 := by
  have unknown (b : UInt8) (hb : b = 200 ∨ b = 77) (t : MessageType) : b ≠ t.toByte := by
    rcases hb with rfl | rfl <;> cases t <;> decide
  have hgarbage : ∀ b ∈ ([200] : List UInt8), ∀ t : MessageType, b ≠ t.toByte :=
    fun b hb => unknown b (.inl (List.mem_singleton.mp hb))
  refine (resync_iff .sysV hgarbage _ _ _).mpr ⟨?_, ?_⟩
  · intro env henv param p hkey
    simp only [List.mem_cons, List.not_mem_nil, or_false] at henv
    rcases henv with rfl | rfl <;> cases hkey
  · intro be hbe
    cases List.mem_singleton.mp hbe
    exact ⟨rfl, .inr (unknown 77 (.inr rfl))⟩

/-- A stale `len` of 2 makes the garbage byte swallow the type byte of the
message behind it. -/
theorem resync_swallows :
    ¬ ∃ s outs, run (mainRound .sysV)
        ⟨.init sizeX sizeY fun _ => 0, wire .sysV (withGarbage [200] [.version 1 0 0])⟩
        [{ Env.zero with len := 2 }, Env.zero] = .ok (s, outs) ∧
      List.Forall₂ (Handled .sysV) (withGarbage [200] [.version 1 0 0])
        (outs.filterMap Output.pass) := by
  rintro ⟨s, outs, hrun, hpasses⟩
  have hvalid : ∀ piece ∈ withGarbage [200] [.version 1 0 0], piece.Valid := by
    intro piece hpiece
    simp only [withGarbage, List.map_cons, List.map_nil, List.singleton_append, List.mem_cons,
      List.not_mem_nil, or_false] at hpiece
    rcases hpiece with rfl | rfl
    · intro t
      cases t <;> decide
    · trivial
  have hfits := (fits_of_run .sysV hvalid hrun hpasses).2 _ List.mem_cons_self
  exact absurd hfits.1 (by decide)

end Runs

end Prgsem
