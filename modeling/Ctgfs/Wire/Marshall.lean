import Ctgfs.Foundation.BigEndian
import Ctgfs.Foundation.File
import Ctgfs.Foundation.Runs
import Mathlib.Data.List.Infix

/-!
# Marshalling

The buffers of `marshall` and `unmarshall` and the headers of a message.  Every `operator<<`
is a sequence of calls of `rawbyte` and `rawbytes` that does not depend on the buffer, and is
the list of these calls here.  There is no state after undefined behaviour or a failed
`VERIFY`.
-/

namespace Ctgfs.Wire

open Foundation

/-- The first number that is not an `int`. -/
def intLimit : Nat := 2147483648

def unsignedRange : Nat := 4294967296

def defaultRpcSz : Nat := 1024

/-- `sizeof(rpc_sz_t)`; the channel fills these bytes with the size of the message. -/
def sizeBytes : Nat := 4

/-- `RPC_HEADER_SZ`: the size and the five words of a `req_header`. -/
def rpcHeaderSz : Nat := 24

structure Marshall where
  buf : Bytes
  capa : Nat
  ind : Nat
  deriving DecidableEq, Repr

inductive RawCall where
  | rawbyte (x : Byte)
  | rawbytes (s : Bytes)
  deriving DecidableEq, Repr

def RawCall.bytes : RawCall → Bytes
  | .rawbyte x => [x]
  | .rawbytes s => s

def encoded (calls : List RawCall) : Bytes := calls.flatMap RawCall.bytes

theorem encoded_append (calls others : List RawCall) :
    encoded (calls ++ others) = encoded calls ++ encoded others :=
  List.flatMap_append

section Marshalling

-- What the allocator leaves in new memory.
variable (memory : Nat → Byte)

def malloc (size : Nat) : Bytes := (List.range size).map memory

def realloc (buf : Bytes) (size : Nat) : Bytes :=
  buf.take size ++ (malloc memory size).drop buf.length

def Marshall.new : Marshall := ⟨malloc memory defaultRpcSz, defaultRpcSz, rpcHeaderSz⟩

variable (m : Marshall)

/-- A new capacity.  It is an `int`, whose overflow is undefined. -/
def Marshall.grow (capa : Nat) : Option Marshall :=
  if capa < intLimit then some { m with buf := realloc memory m.buf capa, capa := capa }
  else none

def Marshall.copy (bytes : Bytes) : Option Marshall :=
  if m.ind + bytes.length ≤ m.buf.length then
    some { m with
      buf := m.buf.take m.ind ++ bytes ++ m.buf.drop (m.ind + bytes.length)
      ind := m.ind + bytes.length }
  else none

def Marshall.rawbyte (x : Byte) : Option Marshall :=
  (if m.capa ≤ m.ind then m.grow memory (2 * m.capa) else some m).bind (·.copy [x])

/-- `marshall::rawbytes`.  A sum out of the range of an `int` is undefined, and so is a copy
of a negative number of bytes. -/
def Marshall.rawbytes (p : Bytes) (n : Nat) : Option Marshall :=
  if m.ind + n < intLimit then
    (if m.capa < m.ind + n then
        m.grow memory (if n < m.capa then 2 * m.capa else m.capa + n)
      else some m).bind (·.copy (p.take n))
  else none

def Marshall.call : RawCall → Option Marshall
  | .rawbyte x => m.rawbyte memory x
  | .rawbytes s => m.rawbytes memory s (s.length % unsignedRange)

end Marshalling

/-- `unmarshall`.  The size of its buffer is an `int`. -/
structure Unmarshall where
  buf : Bytes
  ind : Nat
  ok : Bool
  small : buf.length < intLimit

abbrev Get := StateT Unmarshall Option

def Unmarshall.okdone (u : Unmarshall) : Bool := u.ok && u.ind == u.buf.length

/-- A `char` as an `unsigned int`: its sign is extended. -/
def charValue (c : Byte) : UInt32 :=
  if c.val < 128 then wordOfByte c else wordOfByte c ||| 0xffffff00

def rawbyte : Get UInt32 := fun u =>
  match u.buf[u.ind]? with
  | some c => some (charValue c, { u with ind := u.ind + 1 })
  | none => some (0, { u with ok := false })

/-- `unmarshall::rawbytes`.  The end of the string is an `unsigned int`, which wraps; to copy
bytes from behind the buffer is undefined. -/
def rawbytes (ss : Bytes) (n : UInt32) : Get Bytes := fun u =>
  if UInt32.ofNat u.buf.length < UInt32.ofNat u.ind + n then some (ss, { u with ok := false })
  else if u.ind + n.toNat ≤ u.buf.length then
    some (readAt u.buf u.ind n.toNat, { u with ind := u.ind + n.toNat })
  else none

def getWord : Get UInt32 := do
  let b3 ← rawbyte
  let b2 ← rawbyte
  let b1 ← rawbyte
  let b0 ← rawbyte
  return joinBytes (b3 &&& 0xff) (b2 &&& 0xff) (b1 &&& 0xff) (b0 &&& 0xff)

structure ReqHeader where
  xid : Int32
  proc : Int32
  cltNonce : UInt32
  srvNonce : UInt32
  xidRep : Int32
  deriving DecidableEq

structure ReplyHeader where
  xid : Int32
  ret : Int32
  deriving DecidableEq

def pack (x : Int32) : List RawCall :=
  [.rawbyte (lowByte (x >>> 24).toUInt32), .rawbyte (lowByte (x >>> 16).toUInt32),
    .rawbyte (lowByte (x >>> 8).toUInt32), .rawbyte (lowByte x.toUInt32)]

def unpack : Get Int32 := UInt32.toInt32 <$> getWord

def ReqHeader.calls (h : ReqHeader) : List RawCall :=
  pack h.xid ++ pack h.proc ++ pack h.cltNonce.toInt32 ++ pack h.srvNonce.toInt32 ++
    pack h.xidRep

def ReplyHeader.calls (h : ReplyHeader) : List RawCall := pack h.xid ++ pack h.ret

variable (memory : Nat → Byte)

def Marshall.packHeader (m : Marshall) (calls : List RawCall) : Option Marshall :=
  (exec (Marshall.call memory) { m with ind := sizeBytes } calls).map fun packed =>
    { packed with ind := m.ind }

def Marshall.packReqHeader (m : Marshall) (h : ReqHeader) : Option Marshall :=
  m.packHeader memory h.calls

def Marshall.packReplyHeader (m : Marshall) (h : ReplyHeader) : Option Marshall :=
  m.packHeader memory h.calls

def seek (ind : Nat) : Get Unit := modify fun u => { u with ind := ind }

def unpackHeader {α : Type} (fields : Get α) : Get α := do
  seek sizeBytes
  let h ← fields
  seek rpcHeaderSz
  return h

def unpackReqHeader : Get ReqHeader :=
  unpackHeader do
    let xid ← unpack
    let proc ← unpack
    let cltNonce ← unpack
    let srvNonce ← unpack
    let xidRep ← unpack
    return ⟨xid, proc, cltNonce.toUInt32, srvNonce.toUInt32, xidRep⟩

def unpackReplyHeader : Get ReplyHeader :=
  unpackHeader do
    let xid ← unpack
    let ret ← unpack
    return ⟨xid, ret⟩

section Buffer

variable {memory : Nat → Byte} {m next : Marshall}

@[simp]
theorem length_malloc (size : Nat) : (malloc memory size).length = size := by
  simp [malloc]

theorem length_realloc {buf : Bytes} {size : Nat} (larger : buf.length ≤ size) :
    (realloc memory buf size).length = size := by
  simp only [realloc, List.length_append, List.length_take, List.length_drop, length_malloc]
  omega

structure Marshall.Sound (m : Marshall) : Prop where
  allocated : m.buf.length = m.capa
  inside : m.ind ≤ m.capa
  room : defaultRpcSz ≤ m.capa

theorem Marshall.sound_new : (Marshall.new memory).Sound := by
  constructor
  · rw [Marshall.new, length_malloc]
  · exact (by decide : rpcHeaderSz ≤ defaultRpcSz)
  · exact Nat.le_refl defaultRpcSz

structure Marshall.Wrote (m : Marshall) (bytes : Bytes) (next : Marshall) : Prop where
  sound : next.Sound
  ind : next.ind = m.ind + bytes.length
  capa : m.ind + bytes.length ≤ m.capa → next.capa = m.capa
  buf : ∃ rest, next.buf = m.buf.take m.ind ++ bytes ++ rest ∧
    m.buf.drop (m.ind + bytes.length) <+: rest

theorem Marshall.copy_sound (sound : m.Sound) {bytes extra : Bytes} {capa : Nat}
    (allocated : (m.buf ++ extra).length = capa) (fits : m.ind + bytes.length ≤ capa)
    (needed : m.ind + bytes.length ≤ m.capa → capa = m.capa) :
    ∃ next, ({ m with buf := m.buf ++ extra, capa := capa } : Marshall).copy bytes = some next ∧
      m.Wrote bytes next := by
  have here : (m.buf ++ extra).take m.ind = m.buf.take m.ind :=
    List.take_append_of_le_length (sound.allocated ▸ sound.inside)
  have enough : defaultRpcSz ≤ capa := by
    rw [← allocated, List.length_append, sound.allocated]
    exact sound.room.trans (Nat.le_add_right _ _)
  refine ⟨_, if_pos (allocated ▸ fits), ⟨?_, fits, enough⟩, rfl, needed, _, by rw [here], ?_⟩
  · simp only [List.length_append, List.length_take, List.length_drop] at allocated ⊢
    omega
  · exact (List.prefix_append m.buf extra).drop _

theorem Marshall.grow_copy (sound : m.Sound) {bytes : Bytes} {capa : Nat}
    (short : m.capa < m.ind + bytes.length) (larger : m.capa ≤ capa)
    (small : capa < intLimit) (fits : m.ind + bytes.length ≤ capa) :
    ∃ next, (m.grow memory capa).bind (·.copy bytes) = some next ∧ m.Wrote bytes next := by
  rw [← sound.allocated] at larger
  have grown : realloc memory m.buf capa = m.buf ++ (malloc memory capa).drop m.buf.length := by
    rw [realloc, List.take_of_length_le larger]
  rw [Marshall.grow, if_pos small, Option.bind_some, grown]
  exact copy_sound sound (grown ▸ length_realloc larger) fits fun enough =>
    absurd enough (Nat.not_le.mpr short)

theorem Marshall.copy_within (sound : m.Sound) {bytes : Bytes}
    (fits : m.ind + bytes.length ≤ m.capa) :
    ∃ next, m.copy bytes = some next ∧ m.Wrote bytes next := by
  have allocated : (m.buf ++ []).length = m.capa := by
    rw [List.append_nil, sound.allocated]
  have copied := copy_sound sound allocated fits fun _ => rfl
  rwa [List.append_nil] at copied

/-- The most bytes of a message whose buffer grows by doubling and stays an `int`. -/
def messageLimit : Nat := 1073741824

theorem Marshall.call_wrote (memory : Nat → Byte) (sound : m.Sound) (call : RawCall)
    (fits : m.ind + call.bytes.length ≤ messageLimit) :
    ∃ next, m.call memory call = some next ∧ m.Wrote call.bytes next := by
  have limit : 2 * messageLimit = intLimit := rfl
  have room := sound.room
  have inside := sound.inside
  have least : 0 < defaultRpcSz ∧ 0 < messageLimit := by decide
  cases call with
  | rawbyte x =>
      simp only [RawCall.bytes, List.length_singleton] at fits
      rw [Marshall.call, Marshall.rawbyte]
      split
      next full =>
        exact grow_copy sound (Nat.lt_succ_of_le full) (by omega) (by omega)
          (by rw [List.length_singleton]; omega)
      next free => exact copy_within sound (Nat.lt_of_not_le free)
  | rawbytes s =>
      simp only [RawCall.bytes] at fits
      have size : s.length % unsignedRange = s.length := by
        apply Nat.mod_eq_of_lt
        have : messageLimit < unsignedRange := by decide
        omega
      rw [Marshall.call, Marshall.rawbytes, size, if_pos (by omega), List.take_length]
      split
      next short =>
        split
        · exact grow_copy sound short (by omega) (by omega) (by omega)
        · exact grow_copy sound short (by omega) (by omega) (by omega)
      next enough => exact copy_within sound (by omega)

theorem Marshall.Wrote.refl (sound : m.Sound) : m.Wrote [] m := by
  refine ⟨sound, rfl, fun _ => rfl, m.buf.drop m.ind, ?_, List.prefix_rfl⟩
  rw [List.append_nil, List.take_append_drop]

theorem Marshall.Wrote.trans (sound : m.Sound) {last : Marshall} {bytes others : Bytes}
    (first : m.Wrote bytes next) (second : next.Wrote others last) :
    m.Wrote (bytes ++ others) last := by
  obtain ⟨rest, firstBuf, firstKept⟩ := first.buf
  obtain ⟨rest', secondBuf, secondKept⟩ := second.buf
  have length : (m.buf.take m.ind ++ bytes).length = next.ind := by
    rw [List.length_append, List.length_take_of_le (sound.allocated ▸ sound.inside), first.ind]
  refine ⟨second.sound, ?_, fun enough => ?_, rest', ?_, ?_⟩
  · rw [second.ind, first.ind, List.length_append, Nat.add_assoc]
  · rw [List.length_append] at enough
    have kept := first.capa (by omega)
    rw [second.capa (by rw [first.ind, kept]; omega), kept]
  · rw [secondBuf, firstBuf, List.take_left' length, List.append_assoc _ bytes others]
  · rw [firstBuf, ← List.drop_drop, List.drop_left' length] at secondKept
    rw [List.length_append, ← Nat.add_assoc, ← List.drop_drop]
    exact (firstKept.drop _).trans secondKept

theorem Marshall.exec_wrote (memory : Nat → Byte) (sound : m.Sound) (calls : List RawCall)
    (fits : m.ind + (encoded calls).length ≤ messageLimit) :
    ∃ next, exec (Marshall.call memory) m calls = some next ∧ m.Wrote (encoded calls) next := by
  induction calls generalizing m with
  | nil => exact ⟨m, rfl, .refl sound⟩
  | cons call calls ih =>
      rw [encoded, List.flatMap_cons, List.length_append] at fits
      obtain ⟨middle, called, first⟩ := call_wrote memory sound call (by omega)
      obtain ⟨last, executed, second⟩ := ih first.sound
        (by rw [first.ind, encoded]; omega)
      refine ⟨last, ?_, first.trans sound second⟩
      rw [exec, called, Option.bind_some, executed]

theorem Marshall.capa_rawbytes {p : Bytes} {n : Nat} (short : m.capa < m.ind + n)
    (called : m.rawbytes memory p n = some next) :
    next.capa = if n < m.capa then 2 * m.capa else m.capa + n := by
  rw [Marshall.rawbytes, if_pos short, Marshall.grow, Option.ite_none_right_eq_some] at called
  obtain ⟨grown, allocated, copied⟩ := Option.bind_eq_some_iff.mp called.2
  rw [Option.ite_none_right_eq_some] at allocated
  rw [Marshall.copy, Option.ite_none_right_eq_some] at copied
  cases allocated.2
  cases copied.2
  rfl

theorem Marshall.rawbytes_eq_none (p : Bytes) {n : Nat} (short : m.capa < m.ind + n)
    (large : intLimit ≤ if n < m.capa then 2 * m.capa else m.capa + n) :
    m.rawbytes memory p n = none := by
  rw [Marshall.rawbytes, if_pos short, Marshall.grow, if_neg (Nat.not_lt.mpr large),
    Option.bind_none, ite_self]

end Buffer

section Reading

variable {α β : Type} {get : Get α} {bytes others : Bytes} {x : α} {y : β}

def Reads (get : Get α) (bytes : Bytes) (x : α) : Prop :=
  ∀ (u : Unmarshall) (before after : Bytes), u.ok = true → u.buf = before ++ bytes ++ after →
    u.ind = before.length → get u = some (x, { u with ind := u.ind + bytes.length })

theorem Reads.pure {result : α} (same : result = x) : Reads (pure result) [] x := by
  intro u before after ok shape place
  rw [same]
  rfl

theorem Reads.bind (first : Reads get bytes x) {body : α → Get β}
    (second : Reads (body x) others y) : Reads (get >>= body) (bytes ++ others) y := by
  intro u before after ok shape place
  have read := first u before (others ++ after) ok (by simpa using shape) place
  have rest := second { u with ind := u.ind + bytes.length } (before ++ bytes) after ok
    (by simpa using shape) (by simp [place])
  change (get u).bind (fun result => body result.1 result.2) = _
  rw [read, Option.bind_some, rest, List.length_append, Nat.add_assoc]

theorem Reads.last (read : Reads get bytes x) {f : α → β} (same : f x = y) :
    Reads (get >>= fun x => Pure.pure (f x)) bytes y := by
  have returned : Reads (get >>= fun x => Pure.pure (f x)) _ _ := read.bind (.pure same)
  rwa [List.append_nil] at returned

theorem Reads.map (read : Reads get bytes x) {f : α → β} (same : f x = y) :
    Reads (f <$> get) bytes y :=
  read.last same

theorem Reads.ifOk (read : Reads get bytes x) (other : Get α) :
    Reads (getThe Unmarshall >>= fun u => if u.ok then get else other) bytes x := by
  intro u before after ok shape place
  have tested : (getThe Unmarshall >>= fun u => if u.ok then get else other) u = get u := by
    change (if u.ok then get else other) u = get u
    rw [if_pos ok]
  rw [tested]
  exact read u before after ok shape place

theorem Reads.of_small (read : bytes.length < intLimit → Reads get bytes x) :
    Reads get bytes x := by
  intro u before after ok shape place
  have small := u.small
  refine read ?_ u before after ok shape place
  rw [shape, List.length_append, List.length_append] at small
  omega

theorem Reads.rawbyte (c : Byte) : Reads rawbyte [c] (charValue c) := by
  intro u before after ok shape place
  have here : u.buf[u.ind]? = some c := by
    rw [shape, place]
    simp
  simp only [Wire.rawbyte, here]
  rfl

theorem end_lt_iff (u : Unmarshall) (n : UInt32) :
    UInt32.ofNat u.buf.length < UInt32.ofNat u.ind + n ↔
      u.buf.length < (u.ind + n.toNat) % unsignedRange := by
  have small : u.buf.length < unsignedRange := u.small.trans (by decide)
  rw [UInt32.lt_iff_toNat_lt, UInt32.toNat_add, UInt32.toNat_ofNat', UInt32.toNat_ofNat',
    Nat.mod_add_mod]
  exact Eq.to_iff (congrArg (· < _) (Nat.mod_eq_of_lt small))

variable {u : Unmarshall} {n : UInt32}

/-- While the end of the string is an `unsigned int`, a string is read exactly when it stands
in the buffer. -/
theorem rawbytes_of_lt (ss : Bytes) (small : u.ind + n.toNat < unsignedRange) :
    rawbytes ss n u =
      if u.ind + n.toNat ≤ u.buf.length then
        some (readAt u.buf u.ind n.toNat, { u with ind := u.ind + n.toNat })
      else some (ss, { u with ok := false }) := by
  have past := end_lt_iff u n
  rw [Nat.mod_eq_of_lt small] at past
  rw [rawbytes]
  split
  next outside => rw [if_neg (Nat.not_le.mpr (past.mp outside))]
  next inside =>
    have within := Nat.not_lt.mp fun outside => inside (past.mpr outside)
    rw [if_pos within, if_pos within]

theorem rawbytes_of_le (ss : Bytes) (inside : u.ind ≤ u.buf.length)
    (wraps : unsignedRange ≤ u.ind + n.toNat) : rawbytes ss n u = none := by
  have small := u.small
  have limits : 2 * intLimit = unsignedRange := rfl
  have word : n.toNat < unsignedRange := n.toNat_lt
  have before : (u.ind + n.toNat) % unsignedRange = u.ind + n.toNat - unsignedRange := by
    rw [Nat.mod_eq_sub_mod wraps, Nat.mod_eq_of_lt (by omega)]
  have accepted : ¬ UInt32.ofNat u.buf.length < UInt32.ofNat u.ind + n := by
    rw [end_lt_iff, before]
    omega
  rw [rawbytes, if_neg accepted, if_neg (by omega)]

theorem Reads.rawbytes (s ss : Bytes) (size : n.toNat = s.length) : Reads (rawbytes ss n) s s := by
  intro u before after ok shape place
  have within : u.ind + n.toNat ≤ u.buf.length := by
    rw [shape, place, size, List.length_append, List.length_append]
    omega
  have small : u.ind + n.toNat < unsignedRange :=
    lt_of_le_of_lt within (u.small.trans (by decide))
  have copied : readAt u.buf u.ind n.toNat = s := by
    rw [shape, place, size, readAt_append]
  rw [rawbytes_of_lt ss small, if_pos within, copied, size]

theorem charValue_and_mask (c : Byte) : charValue c &&& 255 = wordOfByte c := by
  revert c
  decide +kernel

theorem Reads.word (x : UInt32) : Reads getWord (bigEndian x) x := by
  have joined : joinBytes (charValue (lowByte (x >>> 24)) &&& 255)
      (charValue (lowByte (x >>> 16)) &&& 255) (charValue (lowByte (x >>> 8)) &&& 255)
      (charValue (lowByte x) &&& 255) = x := by
    simp only [charValue_and_mask, wordOfByte_lowByte]
    exact joinBytes_mask x
  exact (Reads.rawbyte _).bind ((Reads.rawbyte _).bind ((Reads.rawbyte _).bind
    ((Reads.rawbyte _).bind (.pure joined))))

theorem encoded_pack (x : Int32) : encoded (pack x) = bigEndian x.toUInt32 :=
  bigEndian_int x

theorem Reads.unpack (x : Int32) : Reads unpack (encoded (pack x)) x := by
  rw [encoded_pack]
  exact (Reads.word x.toUInt32).map (Int32.toInt32_toUInt32 x)

variable {size rest : Bytes}

theorem unpackHeader_run {fields : Get α} (read : Reads fields bytes x) (ok : u.ok = true)
    (shape : u.buf = size ++ bytes ++ rest) (length : size.length = sizeBytes) :
    unpackHeader fields u = some (x, { u with ind := rpcHeaderSz }) := by
  have fieldsRead := read { u with ind := sizeBytes } size rest ok shape length.symm
  change (fields { u with ind := sizeBytes }).bind _ = _
  rw [fieldsRead]
  rfl

theorem unpackReqHeader_run (h : ReqHeader) (ok : u.ok = true)
    (shape : u.buf = size ++ encoded h.calls ++ rest) (length : size.length = sizeBytes) :
    unpackReqHeader u = some (h, { u with ind := rpcHeaderSz }) := by
  refine unpackHeader_run ?_ ok shape length
  have nonces : (⟨h.xid, h.proc, h.cltNonce.toInt32.toUInt32, h.srvNonce.toInt32.toUInt32,
      h.xidRep⟩ : ReqHeader) = h := by
    rw [UInt32.toUInt32_toInt32, UInt32.toUInt32_toInt32]
  simp only [ReqHeader.calls, encoded_append, List.append_assoc]
  exact (Reads.unpack _).bind ((Reads.unpack _).bind ((Reads.unpack _).bind
    ((Reads.unpack _).bind ((Reads.unpack _).last nonces))))

theorem unpackReplyHeader_run (h : ReplyHeader) (ok : u.ok = true)
    (shape : u.buf = size ++ encoded h.calls ++ rest) (length : size.length = sizeBytes) :
    unpackReplyHeader u = some (h, { u with ind := rpcHeaderSz }) := by
  refine unpackHeader_run ?_ ok shape length
  rw [ReplyHeader.calls, encoded_append]
  exact (Reads.unpack _).bind ((Reads.unpack _).last rfl)

end Reading

end Ctgfs.Wire
