import Prgsem.Messages

/-!
# The wire format

A message as a value: one of the ten types together with the payload fields of
that type. Its frame is the type byte, the fields in their order on the wire and
a checksum byte that completes the sum of all bytes to 255.
-/

namespace Prgsem

open CMemory
set_option autoImplicit false

inductive Payload where
  | ok
  | error
  | abort
  | done
  | getVersion
  | version (major minor patch : UInt8)
  | startup (message : Bytes startupMsgLen)
  | setCompute (c_re c_im d_re d_im : Bytes sizeofDouble) (n : UInt8)
  | compute (cid : UInt8) (re im : Bytes sizeofDouble) (n_re n_im : UInt8)
  | computeData (cid i_re i_im iter : UInt8)

namespace Payload

def type : Payload → MessageType
  | ok => .ok
  | error => .error
  | abort => .abort
  | done => .done
  | getVersion => .getVersion
  | version .. => .version
  | startup .. => .startup
  | setCompute .. => .setCompute
  | compute .. => .compute
  | computeData .. => .computeData

def body : Payload → List UInt8
  | ok | error | abort | done | getVersion => []
  | version major minor patch => [major, minor, patch]
  | startup message => List.ofFn message
  | setCompute c_re c_im d_re d_im n =>
    List.ofFn c_re ++ List.ofFn c_im ++ List.ofFn d_re ++ List.ofFn d_im ++ [n]
  | compute cid re im n_re n_im => [cid] ++ List.ofFn re ++ List.ofFn im ++ [n_re, n_im]
  | computeData cid i_re i_im iter => [cid, i_re, i_im, iter]

def content (p : Payload) : List UInt8 := p.type.toByte :: p.body

def frame (p : Payload) : List UInt8 := p.content ++ [255 - p.content.sum]

/-- The payload fields written to the union, one assignment a field. -/
def store (abi : Abi) (p : Payload) (data : Mem) : Mem :=
  match p with
  | ok | error | abort | done | getVersion => data
  | version major minor patch =>
    ((data.set Offset.major major).set Offset.minor minor).set Offset.patch patch
  | startup message => data.store Offset.message message
  | setCompute c_re c_im d_re d_im n =>
    ((((data.store Offset.c_re c_re).store Offset.c_im c_im).store Offset.d_re d_re).store
      Offset.d_im d_im).set Offset.n n
  | compute cid re im n_re n_im =>
    ((((data.set Offset.cid cid).store abi.re re).store abi.im im).set abi.n_re n_re).set
      abi.n_im n_im
  | computeData cid i_re i_im iter =>
    (((data.set Offset.cid cid).set Offset.i_re i_re).set Offset.i_im i_im).set Offset.iter iter

end Payload

/-- The number of payload bytes of a type. -/
def MessageType.bodyLength : MessageType → Nat
  | .ok | .error | .abort | .done | .getVersion => 0
  | .version => 3
  | .startup => 9
  | .setCompute => 33
  | .compute => 19
  | .computeData => 4

/-- The message as a value: the members of the union that its type selects. -/
def Message.payload (abi : Abi) (msg : Message) : Option Payload :=
  match MessageType.ofByte msg.type with
  | some .ok => some .ok
  | some .error => some .error
  | some .abort => some .abort
  | some .done => some .done
  | some .getVersion => some .getVersion
  | some .version =>
    some (.version (msg.data Offset.major) (msg.data Offset.minor) (msg.data Offset.patch))
  | some .startup => some (.startup (msg.data.load Offset.message startupMsgLen))
  | some .setCompute =>
    some (.setCompute (msg.data.load Offset.c_re sizeofDouble)
      (msg.data.load Offset.c_im sizeofDouble) (msg.data.load Offset.d_re sizeofDouble)
      (msg.data.load Offset.d_im sizeofDouble) (msg.data Offset.n))
  | some .compute =>
    some (.compute (msg.data Offset.cid) (msg.data.load abi.re sizeofDouble)
      (msg.data.load abi.im sizeofDouble) (msg.data abi.n_re) (msg.data abi.n_im))
  | some .computeData =>
    some (.computeData (msg.data Offset.cid) (msg.data Offset.i_re) (msg.data Offset.i_im)
      (msg.data Offset.iter))
  | none => none

namespace Payload

@[simp] theorem length_body (p : Payload) : p.body.length = p.type.bodyLength := by
  cases p <;>
    simp only [body, List.length_append, List.length_ofFn, List.length_cons, List.length_nil] <;>
    rfl

@[simp] theorem length_content (p : Payload) : p.content.length = p.type.bodyLength + 1 := by
  simp [content]

@[simp] theorem length_frame (p : Payload) : p.frame.length = p.type.bodyLength + 2 := by
  simp [frame]

theorem frame_eq_cons (p : Payload) :
    p.frame = p.type.toByte :: (p.body ++ [255 - p.content.sum]) := rfl

@[simp] theorem sum_frame (p : Payload) : p.frame.sum = 255 := sum_append_complement p.content

end Payload

theorem MessageType.getMessageSize_toByte (t : MessageType) (len : Int) :
    getMessageSize t.toByte len = (true, ((t.bodyLength + 2 : Nat) : Int)) := by
  cases t <;> rfl

theorem Payload.getMessageSize_type (p : Payload) (len : Int) :
    getMessageSize p.type.toByte len = (true, (p.frame.length : Int)) := by
  rw [MessageType.getMessageSize_toByte, length_frame]

theorem getMessageSize_eq_true_iff {b : UInt8} {len : Int} :
    (getMessageSize b len).1 = true ↔ ∃ t : MessageType, b = t.toByte := by
  constructor
  · intro h
    cases ht : MessageType.ofByte b with
    | none => simp [getMessageSize, ht] at h
    | some t => exact ⟨t, MessageType.ofByte_eq_some_iff.mp ht⟩
  · rintro ⟨t, rfl⟩
    rw [MessageType.getMessageSize_toByte]

theorem getMessageSize_unknown {b : UInt8} (h : ∀ t : MessageType, b ≠ t.toByte) (len : Int) :
    getMessageSize b len = (false, len) := by
  have hnone : MessageType.ofByte b = none := by
    cases ht : MessageType.ofByte b with
    | none => rfl
    | some t => exact absurd (MessageType.ofByte_eq_some_iff.mp ht) (h t)
  simp [getMessageSize, hnone]

theorem MessageType.toByte_lt_msgNbr (t : MessageType) : t.toByte < msgNbr := by
  cases t <;> decide

namespace Payload

theorem exists_ofFn_append {n k : Nat} (l : List UInt8) (h : l.length = n + k) :
    ∃ (d : Bytes n) (r : List UInt8), r.length = k ∧ l = List.ofFn d ++ r := by
  refine ⟨fun i => l.get ⟨i, by omega⟩, l.drop n, by simp [h], ?_⟩
  have htake : List.ofFn (fun i : Fin n => l.get ⟨i, by omega⟩) = l.take n := by
    apply List.ext_getElem
    · simp [h]
    · intro i _ _
      simp
  rw [htake, List.take_append_drop]

theorem exists_body (t : MessageType) (l : List UInt8) (h : l.length = t.bodyLength) :
    ∃ p : Payload, p.type = t ∧ p.body = l := by
  cases t with
  | ok => exact ⟨.ok, rfl, (List.length_eq_zero_iff.mp h).symm⟩
  | error => exact ⟨.error, rfl, (List.length_eq_zero_iff.mp h).symm⟩
  | abort => exact ⟨.abort, rfl, (List.length_eq_zero_iff.mp h).symm⟩
  | done => exact ⟨.done, rfl, (List.length_eq_zero_iff.mp h).symm⟩
  | getVersion => exact ⟨.getVersion, rfl, (List.length_eq_zero_iff.mp h).symm⟩
  | version =>
    match l, h with
    | [a, b, c], _ => exact ⟨.version a b c, rfl, rfl⟩
  | startup =>
    obtain ⟨d, r, hr, rfl⟩ := exists_ofFn_append (n := startupMsgLen) (k := 0) l h
    rw [List.length_eq_zero_iff.mp hr, List.append_nil]
    exact ⟨.startup d, rfl, rfl⟩
  | setCompute =>
    obtain ⟨c_re, l₁, h₁, rfl⟩ := exists_ofFn_append (n := sizeofDouble) (k := 25) l h
    obtain ⟨c_im, l₂, h₂, rfl⟩ := exists_ofFn_append (n := sizeofDouble) (k := 17) l₁ h₁
    obtain ⟨d_re, l₃, h₃, rfl⟩ := exists_ofFn_append (n := sizeofDouble) (k := 9) l₂ h₂
    obtain ⟨d_im, l₄, h₄, rfl⟩ := exists_ofFn_append (n := sizeofDouble) (k := 1) l₃ h₃
    obtain ⟨n, rfl⟩ := List.length_eq_one_iff.mp h₄
    exact ⟨.setCompute c_re c_im d_re d_im n, rfl, by simp only [body, List.append_assoc]⟩
  | compute =>
    cases l with
    | nil => simp [MessageType.bodyLength] at h
    | cons cid l =>
      simp only [List.length_cons, MessageType.bodyLength] at h
      obtain ⟨re, l₁, h₁, rfl⟩ := exists_ofFn_append (n := sizeofDouble) (k := 10) l
        (Nat.succ.inj h)
      obtain ⟨im, l₂, h₂, rfl⟩ := exists_ofFn_append (n := sizeofDouble) (k := 2) l₁ h₁
      match l₂, h₂ with
      | [n_re, n_im], _ =>
        exact ⟨.compute cid re im n_re n_im, rfl, by
          simp only [body, List.append_assoc, List.cons_append, List.nil_append]⟩
  | computeData =>
    match l, h with
    | [cid, i_re, i_im, iter], _ => exact ⟨.computeData cid i_re i_im iter, rfl, rfl⟩

/-- A byte string is a frame as soon as its first byte is a type, its length is
the one of that type and its bytes add up to 255. -/
theorem exists_frame (t : MessageType) (b : List UInt8) (hhead : b.head? = some t.toByte)
    (hlen : b.length = t.bodyLength + 2) (hsum : b.sum = 255) :
    ∃ p : Payload, p.type = t ∧ p.frame = b := by
  cases b with
  | nil => simp at hlen
  | cons x l =>
    have hx : x = t.toByte := by simpa using hhead
    subst hx
    simp only [List.length_cons] at hlen
    have hne : l ≠ [] := by
      rintro rfl
      simp at hlen
    have hsplit : l = l.dropLast ++ [l.getLast hne] := (List.dropLast_concat_getLast hne).symm
    obtain ⟨p, hp, hbody⟩ := exists_body t l.dropLast (by rw [List.length_dropLast]; omega)
    refine ⟨p, hp, ?_⟩
    rw [hsplit] at hsum
    simp only [List.sum_cons, List.sum_append, List.sum_nil] at hsum
    have hlast : 255 - p.content.sum = l.getLast hne := by
      simp only [content, hp, hbody, List.sum_cons]
      grind
    rw [frame_eq_cons, hlast, hbody, hp, ← hsplit]

theorem payload_store (abi : Abi) (p : Payload) (data : Mem) (cksum : UInt8) :
    Message.payload abi ⟨p.type.toByte, p.store abi data, cksum⟩ = some p := by
  have hre := abi.cid_before_re
  have hdouble : sizeofDouble = 8 := rfl
  cases p with
  | ok => rfl
  | error => rfl
  | abort => rfl
  | done => rfl
  | getVersion => rfl
  | version a b c =>
    simp (disch := omega) [Message.payload, type, store, Mem.set_ne]
  | startup m => simp [Message.payload, type, store]
  | setCompute c_re c_im d_re d_im n =>
    simp (disch := omega) [Message.payload, type, store, Mem.load_set_disjoint,
      Mem.load_store_disjoint]
  | compute cid re im n_re n_im =>
    simp (disch := omega) [Message.payload, type, store, Mem.load_set_disjoint,
      Mem.load_store_disjoint, Mem.set_ne, Mem.store_disjoint]
  | computeData cid i_re i_im iter =>
    simp (disch := omega) [Message.payload, type, store, Mem.set_ne]

end Payload

end Prgsem
