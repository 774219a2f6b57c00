import Ctgfs.Wire.Codec

/-!
# A message is read back

A header and any values of the types that are marshalled, put into a message that is not too
long, are read back by a receiver that knows their types.
-/

namespace Ctgfs.Wire

open Foundation Fs

inductive WireType : Type → Type 1 where
  | bool : WireType Bool
  | char : WireType Int8
  | unsignedChar : WireType UInt8
  | short : WireType Int16
  | unsignedShort : WireType UInt16
  | int : WireType Int32
  | unsignedInt : WireType UInt32
  | unsignedLongLong : WireType UInt64
  | string : WireType Bytes
  | vector {α : Type} (element : WireType α) : WireType (List α)
  | map {α β : Type} [LinearOrder α] (key : WireType α) (value : WireType β) :
      WireType (OrderedMap α β)
  | pair {α β : Type} (first : WireType α) (second : WireType β) : WireType (α × β)
  | attr : WireType Attr
  | serverInfo : WireType ServerInfo
  | kvInfo : WireType KVInfo

def WireType.codec : {α : Type} → WireType α → Codec α
  | _, .bool => .bool
  | _, .char => .char
  | _, .unsignedChar => .unsignedChar
  | _, .short => .short
  | _, .unsignedShort => .unsignedShort
  | _, .int => .int
  | _, .unsignedInt => .unsignedInt
  | _, .unsignedLongLong => .unsignedLongLong
  | _, .string => .string
  | _, .vector element => .vector element.codec
  | _, @WireType.map _ _ _ key value => .map key.codec value.codec
  | _, .pair first second => .pair first.codec second.codec
  | _, .attr => .attr
  | _, .serverInfo => .serverInfo
  | _, .kvInfo => .kvInfo

theorem WireType.lawful {α : Type} (type : WireType α) : type.codec.Lawful := by
  induction type with
  | bool => exact Codec.lawful_bool
  | char => exact Codec.lawful_char
  | unsignedChar => exact Codec.lawful_unsignedChar
  | short => exact Codec.lawful_short
  | unsignedShort => exact Codec.lawful_unsignedShort
  | int => exact Codec.lawful_int
  | unsignedInt => exact Codec.lawful_unsignedInt
  | unsignedLongLong => exact Codec.lawful_unsignedLongLong
  | string => exact Codec.lawful_string
  | vector element elementLawful => exact Codec.lawful_vector elementLawful
  | map key value keyLawful valueLawful => exact Codec.lawful_map keyLawful valueLawful
  | pair first second firstLawful secondLawful => exact Codec.lawful_pair firstLawful secondLawful
  | attr => exact Codec.lawful_attr
  | serverInfo => exact Codec.lawful_serverInfo
  | kvInfo => exact Codec.lawful_kvInfo

structure Value where
  {α : Type}
  type : WireType α
  value : α

def Value.calls (value : Value) : List RawCall := value.type.codec.put value.value

def readLike : List Value → Unmarshall → Option (List Value × Unmarshall)
  | [], u => some ([], u)
  | value :: rest, u =>
      (value.type.codec.get value.type.codec.fresh u).bind fun (x, u) =>
        (readLike rest u).map fun (values, u) => (⟨value.type, x⟩ :: values, u)

inductive Header where
  | req (h : ReqHeader)
  | reply (h : ReplyHeader)
  deriving DecidableEq

def Header.calls : Header → List RawCall
  | .req h => h.calls
  | .reply h => h.calls

def Marshall.packAny (memory : Nat → Byte) (m : Marshall) : Header → Option Marshall
  | .req h => m.packReqHeader memory h
  | .reply h => m.packReplyHeader memory h

def Header.unpackLike : Header → Get Header
  | .req _ => .req <$> unpackReqHeader
  | .reply _ => .reply <$> unpackReplyHeader

theorem readLike_values (values : List Value) {u : Unmarshall} {before after : Bytes}
    (ok : u.ok = true) (shape : u.buf = before ++ encoded (values.flatMap Value.calls) ++ after)
    (place : u.ind = before.length) :
    readLike values u = some (values,
      { u with ind := u.ind + (encoded (values.flatMap Value.calls)).length }) := by
  induction values generalizing u before with
  | nil => rfl
  | cons value rest ih =>
      rw [List.flatMap_cons, encoded_append] at shape ⊢
      have read := value.type.lawful.reads value.value u before
        (encoded (rest.flatMap Value.calls) ++ after) ok
        (by rw [shape]; simp only [Value.calls, List.append_assoc]) place
      have others := @ih
        { u with ind := u.ind + (encoded value.calls).length } (before ++ encoded value.calls)
        ok (by rw [shape]; simp only [List.append_assoc]) (by simp [place])
      rw [readLike, read, Option.bind_some]
      change (readLike rest { u with ind := u.ind + (encoded value.calls).length }).map _ = _
      rw [others, Option.map_some, List.length_append, Nat.add_assoc]

theorem Header.length_calls (header : Header) :
    sizeBytes + (encoded header.calls).length ≤ rpcHeaderSz := by
  cases header with
  | req h => exact Nat.le_refl 24
  | reply h => exact (by decide : 12 ≤ 24)

theorem Header.unpackLike_run (header : Header) {u : Unmarshall} {size rest : Bytes}
    (ok : u.ok = true) (shape : u.buf = size ++ encoded header.calls ++ rest)
    (length : size.length = sizeBytes) :
    header.unpackLike u = some (header, { u with ind := rpcHeaderSz }) := by
  cases header with
  | req h =>
      change (unpackReqHeader u).bind _ = _
      rw [unpackReqHeader_run h ok shape length]
      rfl
  | reply h =>
      change (unpackReplyHeader u).bind _ = _
      rw [unpackReplyHeader_run h ok shape length]
      rfl

theorem Marshall.packAny_eq (memory : Nat → Byte) (m : Marshall) (header : Header) :
    m.packAny memory header = m.packHeader memory header.calls := by
  cases header with
  | req h => rfl
  | reply h => rfl

theorem packed_message {memory : Nat → Byte} {m : Marshall} {content : Bytes} {header : Header}
    (wrote : (Marshall.new memory).Wrote content m) {packed : Marshall}
    (packs : ({ m with ind := sizeBytes } : Marshall).Wrote (encoded header.calls) packed) :
    ∃ pad, sizeBytes + (encoded header.calls).length + pad.length = rpcHeaderSz ∧
      (packed.buf.take m.ind).drop sizeBytes = encoded header.calls ++ pad ++ content := by
  obtain ⟨rest, buf, -⟩ := wrote.buf
  obtain ⟨others, packedBuf, more, kept⟩ := packs.buf
  have fits := header.length_calls
  have startLength : ((Marshall.new memory).buf.take rpcHeaderSz).length = rpcHeaderSz :=
    List.length_take_of_le (Marshall.sound_new.allocated ▸ Marshall.sound_new.inside)
  have frontLength : (m.buf.take sizeBytes).length = sizeBytes := by
    apply List.length_take_of_le
    rw [wrote.sound.allocated]
    exact (by decide : sizeBytes ≤ defaultRpcSz).trans wrote.sound.room
  have ind : m.ind = rpcHeaderSz + content.length := wrote.ind
  change m.buf = (Marshall.new memory).buf.take rpcHeaderSz ++ content ++ rest at buf
  change m.buf.drop (sizeBytes + (encoded header.calls).length) ++ more = others at kept
  change packed.buf = m.buf.take sizeBytes ++ encoded header.calls ++ others at packedBuf
  generalize (Marshall.new memory).buf.take rpcHeaderSz = start at buf startLength
  generalize m.buf.take sizeBytes = front at packedBuf frontLength
  -- What the header leaves of the space in front of the content.
  refine ⟨start.drop (sizeBytes + (encoded header.calls).length), ?_, ?_⟩
  · rw [List.length_drop, startLength]
    omega
  · rw [buf, List.append_assoc, List.drop_append_of_le_length (startLength ▸ fits)] at kept
    have message : packed.buf = (front ++ encoded header.calls ++
        start.drop (sizeBytes + (encoded header.calls).length) ++ content) ++ (rest ++ more) := by
      rw [packedBuf, ← kept]
      simp only [List.append_assoc]
    have length : (front ++ encoded header.calls ++
        start.drop (sizeBytes + (encoded header.calls).length) ++ content).length = m.ind := by
      simp only [List.length_append, List.length_drop, frontLength, startLength, ind]
      omega
    rw [message, List.take_left' length, List.append_assoc, List.append_assoc,
      List.drop_left' frontLength, List.append_assoc]

theorem read_message {header : Header} {values : List Value} {u : Unmarshall} {size pad : Bytes}
    (ok : u.ok = true) (length : size.length = sizeBytes)
    (padLength : sizeBytes + (encoded header.calls).length + pad.length = rpcHeaderSz)
    (shape : u.buf = size ++ encoded header.calls ++ pad ++ encoded (values.flatMap Value.calls)) :
    ∃ start, header.unpackLike u = some (header, start) ∧ start.ok = true ∧
      (∀ first, first <+: values →
        ∃ later, readLike first start = some (first, later) ∧ later.ok = true) ∧
      ∃ last, readLike values start = some (values, last) ∧ last.okdone = true := by
  have frontLength : rpcHeaderSz = (size ++ encoded header.calls ++ pad).length := by
    simp only [List.length_append, length, ← padLength]
  refine ⟨{ u with ind := rpcHeaderSz }, ?_, ok, ?_, ?_⟩
  · rw [List.append_assoc] at shape
    exact header.unpackLike_run ok shape length
  · rintro first ⟨rest, rfl⟩
    rw [List.flatMap_append, encoded_append, ← List.append_assoc] at shape
    exact ⟨_, readLike_values first ok shape frontLength, ok⟩
  · have shape' : u.buf = _ ++ [] := shape.trans (List.append_nil _).symm
    refine ⟨_, readLike_values values ok shape' frontLength, ?_⟩
    have done : rpcHeaderSz + (encoded (values.flatMap Value.calls)).length = u.buf.length := by
      rw [shape, List.length_append, frontLength]
    simp only [Unmarshall.okdone, ok, done, beq_self_eq_true, Bool.and_self]

/-- A header and values whose message is not longer than `2 ^ 30` bytes: while they are
marshalled, the index stays inside the buffer; and the receiver of the message, whose first
bytes are the size that the channel fills in, reads the same header and the same values. -/
theorem message_round_trip (memory : Nat → Byte) (header : Header) (values : List Value)
    (fits : rpcHeaderSz + (encoded (values.flatMap Value.calls)).length ≤ messageLimit) :
    (∀ calls, calls <+: values.flatMap Value.calls →
      ∃ m, exec (Marshall.call memory) (.new memory) calls = some m ∧
        m.buf.length = m.capa ∧ m.ind ≤ m.capa) ∧
    ∃ m, exec (Marshall.call memory) (.new memory) (values.flatMap Value.calls) = some m ∧
      (∀ calls, calls <+: header.calls →
        ∃ packing, exec (Marshall.call memory) { m with ind := sizeBytes } calls = some packing ∧
          packing.buf.length = packing.capa ∧ packing.ind ≤ packing.capa) ∧
      ∃ packed, m.packAny memory header = some packed ∧
        ∀ (size : Bytes) (u : Unmarshall), size.length = sizeBytes →
          u.buf = size ++ (packed.buf.take packed.ind).drop sizeBytes → u.ok = true →
          ∃ start, header.unpackLike u = some (header, start) ∧ start.ok = true ∧
            (∀ first, first <+: values →
              ∃ later, readLike first start = some (first, later) ∧ later.ok = true) ∧
            ∃ last, readLike values start = some (values, last) ∧ last.okdone = true := by
  have within : ∀ {m : Marshall} {calls all : List RawCall}, m.Sound → calls <+: all →
      m.ind + (encoded all).length ≤ messageLimit →
      ∃ next, exec (Marshall.call memory) m calls = some next ∧
        next.buf.length = next.capa ∧ next.ind ≤ next.capa := by
    rintro m calls all sound ⟨rest, rfl⟩ fits
    rw [encoded_append, List.length_append] at fits
    obtain ⟨next, executed, wrote⟩ := Marshall.exec_wrote memory sound calls (by omega)
    exact ⟨next, executed, wrote.sound.allocated, wrote.sound.inside⟩
  obtain ⟨m, executed, wrote⟩ := Marshall.exec_wrote memory Marshall.sound_new _ fits
  have sound : ({ m with ind := sizeBytes } : Marshall).Sound :=
    ⟨wrote.sound.allocated, (by decide : sizeBytes ≤ defaultRpcSz).trans wrote.sound.room,
      wrote.sound.room⟩
  have headerFits : sizeBytes + (encoded header.calls).length ≤ messageLimit :=
    header.length_calls.trans (by decide)
  obtain ⟨packed, packedRun, packs⟩ := Marshall.exec_wrote memory sound header.calls headerFits
  refine ⟨fun calls before => within Marshall.sound_new before fits, m, executed,
    fun calls before => within sound before headerFits, { packed with ind := m.ind }, ?_, ?_⟩
  · rw [Marshall.packAny_eq, Marshall.packHeader, packedRun, Option.map_some]
  · intro size u length shape ok
    obtain ⟨pad, padLength, message⟩ := packed_message wrote packs
    change u.buf = size ++ (packed.buf.take m.ind).drop sizeBytes at shape
    rw [message, ← List.append_assoc, ← List.append_assoc] at shape
    exact read_message ok length padLength shape

/-- A request with a map of vectors, negative numbers and an attribute. -/
theorem message_round_trip_nested :
    ∃ (values : List Value) (packed : Marshall),
      values = [⟨.map .string (.vector .int), ⟨[([97], [-1, 2]), ([98], [])], by simp; decide⟩⟩,
        ⟨.pair .char .bool, (-3, true)⟩, ⟨.attr, ⟨1, 2, 3, 4⟩⟩] ∧
      (exec (Marshall.call fun _ => nullByte) (.new fun _ => nullByte)
        (values.flatMap Value.calls)).bind
          (·.packAny (fun _ => nullByte) (.req ⟨-1, 2, 3, 4, 5⟩)) = some packed ∧
      ∀ u : Unmarshall,
        u.buf = [0, 0, 0, 75] ++ (packed.buf.take packed.ind).drop sizeBytes → u.ok = true →
        ∃ start last, unpackReqHeader u = some (⟨-1, 2, 3, 4, 5⟩, start) ∧
          readLike values start = some (values, last) ∧ last.okdone = true := by
  obtain ⟨-, m, executed, -, packed, packs, received⟩ := message_round_trip (fun _ => nullByte)
    (.req ⟨-1, 2, 3, 4, 5⟩)
    [⟨.map .string (.vector .int), ⟨[([97], [-1, 2]), ([98], [])], by simp; decide⟩⟩,
      ⟨.pair .char .bool, (-3, true)⟩, ⟨.attr, ⟨1, 2, 3, 4⟩⟩] (by decide)
  refine ⟨_, packed, rfl, by rw [executed, Option.bind_some, packs], fun u shape ok => ?_⟩
  obtain ⟨start, unpacked, -, -, last, read, done⟩ := received [0, 0, 0, 75] u rfl shape ok
  refine ⟨start, last, ?_, read, done⟩
  obtain ⟨⟨h, next⟩, header, same⟩ := Option.bind_eq_some_iff.mp unpacked
  cases same
  exact header

theorem exec_strings_none (memory : Nat → Byte) {first second : Bytes}
    (firstLength : first.length + defaultRpcSz = messageLimit)
    (secondLength : second.length = 993) :
    exec (Marshall.call memory) (.new memory)
      (Codec.string.put first ++ Codec.string.put second) = none := by
  have limits : intLimit = 2 * messageLimit ∧ messageLimit < unsignedRange ∧
      2 * defaultRpcSz < messageLimit ∧ defaultRpcSz = 1024 := by decide
  obtain ⟨m1, exec1, wrote1⟩ := Marshall.exec_wrote memory (@Marshall.sound_new memory)
    (putWord (UInt32.ofNat first.length)) (by decide : 28 ≤ messageLimit)
  have ind1 : m1.ind = 28 := wrote1.ind
  have capa1 : m1.capa = defaultRpcSz := wrote1.capa (by decide : 28 ≤ 1024)
  obtain ⟨m2, exec2, wrote2⟩ := Marshall.call_wrote memory wrote1.sound (.rawbytes first)
    (by simp only [RawCall.bytes]; omega)
  have ind2 : m2.ind = 28 + first.length := by rw [wrote2.ind, ind1, RawCall.bytes]
  have size2 : first.length % unsignedRange = first.length := Nat.mod_eq_of_lt (by omega)
  have capa2 : m2.capa = messageLimit := by
    rw [Marshall.call, size2] at exec2
    rw [Marshall.capa_rawbytes (by omega) exec2, if_neg (by omega)]
    omega
  obtain ⟨m3, exec3, wrote3⟩ := Marshall.exec_wrote memory wrote2.sound
    (putWord (UInt32.ofNat second.length))
    (by rw [Codec.encoded_putWord, length_bigEndian]; omega)
  have ind3 : m3.ind = 32 + first.length := by
    rw [wrote3.ind, ind2, Codec.encoded_putWord, length_bigEndian]
    omega
  have capa3 : m3.capa = messageLimit := by
    rw [wrote3.capa (by rw [Codec.encoded_putWord, length_bigEndian]; omega), capa2]
  have exec4 : m3.call memory (.rawbytes second) = none := by
    have size3 : second.length % unsignedRange = second.length := Nat.mod_eq_of_lt (by omega)
    rw [Marshall.call, size3]
    refine Marshall.rawbytes_eq_none second (by omega) ?_
    rw [if_pos (by omega)]
    omega
  have strings : Codec.string.put first ++ Codec.string.put second =
      putWord (UInt32.ofNat first.length) ++ ([.rawbytes first] ++
        (putWord (UInt32.ofNat second.length) ++ [.rawbytes second])) := by
    simp [Codec.string, Codec.unsignedInt]
  rw [strings, exec_append, exec1, Option.bind_some, exec_append, exec, exec2, Option.bind_some]
  change (exec (Marshall.call memory) m2 _) = none
  rw [exec_append, exec3, Option.bind_some, exec, exec4, Option.bind_none]

/-- A message of `2 ^ 30 + 1` bytes needs a capacity that is not an `int`. -/
theorem message_too_long :
    ∃ values : List Value,
      rpcHeaderSz + (encoded (values.flatMap Value.calls)).length < intLimit ∧
      rpcHeaderSz + (encoded (values.flatMap Value.calls)).length = messageLimit + 1 ∧
      exec (Marshall.call fun _ => nullByte) (.new fun _ => nullByte)
        (values.flatMap Value.calls) = none := by
  obtain ⟨first, firstLength⟩ : ∃ first : Bytes, first.length + defaultRpcSz = messageLimit := by
    refine ⟨List.replicate (messageLimit - defaultRpcSz) nullByte, ?_⟩
    rw [List.length_replicate, Nat.sub_add_cancel (by decide)]
  obtain ⟨second, secondLength⟩ : ∃ second : Bytes, second.length = 993 :=
    ⟨List.replicate 993 nullByte, List.length_replicate⟩
  have calls : ([⟨.string, first⟩, ⟨.string, second⟩] : List Value).flatMap Value.calls =
      Codec.string.put first ++ Codec.string.put second := by
    simp [Value.calls, WireType.codec]
  have size : rpcHeaderSz + (encoded (Codec.string.put first ++ Codec.string.put second)).length =
      messageLimit + 1 := by
    simp only [encoded_append, Codec.encoded_string, List.length_append, length_bigEndian,
      secondLength, ← firstLength, rpcHeaderSz, defaultRpcSz]
    omega
  refine ⟨[⟨.string, first⟩, ⟨.string, second⟩], ?_⟩
  rw [calls, size]
  exact ⟨by decide, rfl, exec_strings_none _ firstLength secondLength⟩

end Ctgfs.Wire
