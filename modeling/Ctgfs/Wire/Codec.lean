import Ctgfs.Foundation.OrderedMap
import Ctgfs.Fs.ExtentServer
import Ctgfs.Wire.Marshall

/-!
# The types of the arguments

An `operator<<` and its `operator>>`, for the plain types, and as functions of those of the
parts for the templates.
-/

namespace Ctgfs.Wire

open Foundation Fs

/-- `operator<<` and `operator>>` of a type.  Reading starts from what the variable holds, and
a variable that was just declared holds `fresh`; plain variables are undefined then, and are
written without being read. -/
structure Codec (α : Type) where
  put : α → List RawCall
  get : α → Get α
  fresh : α

def putWord (x : UInt32) : List RawCall :=
  [.rawbyte (lowByte (x >>> 24)), .rawbyte (lowByte (x >>> 16)), .rawbyte (lowByte (x >>> 8)),
    .rawbyte (lowByte x)]

def putHalf (x : UInt16) : List RawCall :=
  [.rawbyte (lowByte (x.toUInt32 >>> 8)), .rawbyte (lowByte x.toUInt32)]

def getHalf : Get UInt16 := do
  let b1 ← rawbyte
  let b0 ← rawbyte
  return (joinBytes 0 0 (b1 &&& 0xff) (b0 &&& 0xff)).toUInt16

def loop {β : Type} (body : β → Get β) : Nat → β → Get β
  | 0, state => pure state
  | n + 1, state => body state >>= loop body n

structure ServerInfo where
  inum : List UInt64
  sz : List UInt64
  type : List Int32
  deriving DecidableEq

structure KVInfo where
  addr : Bytes
  sz : UInt64
  deriving DecidableEq

namespace Codec

variable {α β : Type}

def bool : Codec Bool where
  put x := [.rawbyte (lowByte (if x then 1 else 0))]
  get _ := (· != 0) <$> rawbyte
  fresh := false

def unsignedChar : Codec UInt8 where
  put x := [.rawbyte (lowByte x.toUInt32)]
  get _ := UInt32.toUInt8 <$> rawbyte
  fresh := 0

def char : Codec Int8 where
  put x := unsignedChar.put x.toUInt8
  get _ := (fun c => c.toUInt8.toInt8) <$> rawbyte
  fresh := 0

def unsignedShort : Codec UInt16 where
  put := putHalf
  get _ := getHalf
  fresh := 0

def short : Codec Int16 where
  put x := unsignedShort.put x.toUInt16
  get _ := UInt16.toInt16 <$> getHalf
  fresh := 0

def unsignedInt : Codec UInt32 where
  put := putWord
  get _ := getWord
  fresh := 0

def int : Codec Int32 where
  put x := unsignedInt.put x.toUInt32
  get _ := UInt32.toInt32 <$> getWord
  fresh := 0

def unsignedLongLong : Codec UInt64 where
  put x := unsignedInt.put (x >>> 32).toUInt32 ++ unsignedInt.put x.toUInt32
  get _ := do
    let h ← unsignedInt.get unsignedInt.fresh
    let l ← unsignedInt.get unsignedInt.fresh
    return l.toUInt64 ||| h.toUInt64 <<< 32
  fresh := 0

def string : Codec Bytes where
  put s := unsignedInt.put (UInt32.ofNat s.length) ++ [.rawbytes s]
  get s := do
    let sz ← unsignedInt.get unsignedInt.fresh
    if (← getThe Unmarshall).ok then rawbytes s sz else return s
  fresh := []

/-- `std::vector`.  The counter of the loop is an `unsigned`, so it does not end for a vector
of 4294967296 elements; no message holds them. -/
def vector (element : Codec α) : Codec (List α) where
  put v := unsignedInt.put (UInt32.ofNat v.length) ++ v.flatMap element.put
  get v := do
    let n ← unsignedInt.get unsignedInt.fresh
    loop (fun v => (v ++ [·]) <$> element.get element.fresh) n.toNat v
  fresh := []

/-- `std::map`, which is cleared before it is filled. -/
def map [LinearOrder α] (key : Codec α) (value : Codec β) : Codec (OrderedMap α β) where
  put d := unsignedInt.put (UInt32.ofNat d.entries.length) ++
    d.entries.flatMap fun entry => key.put entry.1 ++ value.put entry.2
  get _ := do
    let n ← unsignedInt.get unsignedInt.fresh
    loop (fun d => do
      let a ← key.get key.fresh
      let b ← value.get value.fresh
      return d.insert a b) n.toNat .empty
  fresh := .empty

def pair (first : Codec α) (second : Codec β) : Codec (α × β) where
  put d := first.put d.1 ++ second.put d.2
  get d := do
    let x ← first.get d.1
    let y ← second.get d.2
    return (x, y)
  fresh := (first.fresh, second.fresh)

def attr : Codec Attr where
  put a := unsignedInt.put a.atime ++ unsignedInt.put a.mtime ++ unsignedInt.put a.ctime ++
    unsignedInt.put a.size
  get a := do
    let atime ← unsignedInt.get a.atime
    let mtime ← unsignedInt.get a.mtime
    let ctime ← unsignedInt.get a.ctime
    let size ← unsignedInt.get a.size
    return ⟨atime, mtime, ctime, size⟩
  fresh := ⟨0, 0, 0, 0⟩

def serverInfo : Codec ServerInfo where
  put i := (vector unsignedLongLong).put i.inum ++ (vector unsignedLongLong).put i.sz ++
    (vector int).put i.type
  get i := do
    let inum ← (vector unsignedLongLong).get i.inum
    let sz ← (vector unsignedLongLong).get i.sz
    let type ← (vector int).get i.type
    return ⟨inum, sz, type⟩
  fresh := ⟨[], [], []⟩

def kvInfo : Codec KVInfo where
  put i := string.put i.addr ++ unsignedLongLong.put i.sz
  get i := do
    let addr ← string.get i.addr
    let sz ← unsignedLongLong.get i.sz
    return ⟨addr, sz⟩
  fresh := ⟨[], 0⟩

structure Lawful (codec : Codec α) : Prop where
  reads : ∀ x, Reads (codec.get codec.fresh) (encoded (codec.put x)) x
  nonempty : ∀ x, 0 < (encoded (codec.put x)).length

theorem encoded_flatMap (put : α → List RawCall) (list : List α) :
    encoded (list.flatMap put) = list.flatMap fun x => encoded (put x) :=
  List.flatMap_assoc

theorem encoded_putWord (x : UInt32) : encoded (putWord x) = bigEndian x := rfl

theorem reads_loop {body : β → Get β} {encode : α → Bytes} {step : β → α → β}
    (turn : ∀ state x, Reads (body state) (encode x) (step state x)) (list : List α)
    (state : β) :
    Reads (loop body list.length state) (list.flatMap encode) (list.foldl step state) := by
  induction list generalizing state with
  | nil => exact .pure rfl
  | cons x rest ih =>
      rw [List.flatMap_cons, List.foldl_cons]
      exact (turn state x).bind (ih (step state x))

theorem lawful_bool : bool.Lawful where
  reads x := by
    apply (Reads.rawbyte _).map
    cases x with
    | false => decide
    | true => decide
  nonempty _ := Nat.succ_pos _

theorem toUInt8_charValue (x : UInt8) : (charValue (lowByte x.toUInt32)).toUInt8 = x := by
  rw [← toUInt8_and_mask, charValue_and_mask, wordOfByte_lowByte, toUInt8_and_mask,
    UInt8.toUInt8_toUInt32]

theorem lawful_unsignedChar : unsignedChar.Lawful where
  reads x := (Reads.rawbyte _).map (toUInt8_charValue x)
  nonempty _ := Nat.succ_pos _

theorem lawful_char : char.Lawful where
  reads x := (Reads.rawbyte _).map (by rw [toUInt8_charValue, Int8.toInt8_toUInt8])
  nonempty _ := Nat.succ_pos _

theorem reads_half (x : UInt16) : Reads getHalf (encoded (putHalf x)) x := by
  have joined : (joinBytes 0 0 (charValue (lowByte (x.toUInt32 >>> 8)) &&& 255)
      (charValue (lowByte x.toUInt32) &&& 255)).toUInt16 = x := by
    simp only [charValue_and_mask, wordOfByte_lowByte]
    rw [joinBytes_half, UInt16.toUInt16_toUInt32]
  exact (Reads.rawbyte _).bind ((Reads.rawbyte _).bind (.pure joined))

theorem lawful_unsignedShort : unsignedShort.Lawful where
  reads := reads_half
  nonempty _ := Nat.succ_pos _

theorem lawful_short : short.Lawful where
  reads x := (reads_half x.toUInt16).map (Int16.toInt16_toUInt16 x)
  nonempty _ := Nat.succ_pos _

theorem lawful_unsignedInt : unsignedInt.Lawful where
  reads := Reads.word
  nonempty _ := Nat.succ_pos _

theorem lawful_int : int.Lawful where
  reads x := (Reads.word x.toUInt32).map (Int32.toInt32_toUInt32 x)
  nonempty _ := Nat.succ_pos _

theorem lawful_unsignedLongLong : unsignedLongLong.Lawful where
  reads x := by
    change Reads _ (bigEndian (x >>> 32).toUInt32 ++ bigEndian x.toUInt32) x
    exact (Reads.word _).bind ((Reads.word _).last (or_shiftLeft_halves x))
  nonempty _ := Nat.succ_pos _

theorem toNat_count {count : Nat} {bytes : Bytes} (fewer : count ≤ bytes.length)
    (small : (bigEndian (UInt32.ofNat count) ++ bytes).length < intLimit) :
    (UInt32.ofNat count).toNat = count := by
  have fits : intLimit < UInt32.size := by decide
  rw [List.length_append, length_bigEndian] at small
  apply UInt32.toNat_ofNat_of_lt'
  omega

theorem encoded_string (s : Bytes) :
    encoded (string.put s) = bigEndian (UInt32.ofNat s.length) ++ s := by
  rw [string, encoded_append]
  exact congrArg (bigEndian (UInt32.ofNat s.length) ++ ·) (List.append_nil s)

theorem lawful_string : string.Lawful where
  reads s := by
    rw [encoded_string]
    apply Reads.of_small
    intro small
    have size := toNat_count (Nat.le_refl s.length) small
    exact (Reads.word _).bind (.ifOk (.rawbytes s [] size) _)
  nonempty _ := Nat.succ_pos _

theorem reads_counted {encode : α → Bytes} {body : β → Get β} {step : β → α → β}
    (turn : ∀ state x, Reads (body state) (encode x) (step state x))
    (nonempty : ∀ x, 0 < (encode x).length) (list : List α) (state : β) :
    Reads (getWord >>= fun n => loop body n.toNat state)
      (bigEndian (UInt32.ofNat list.length) ++ list.flatMap encode) (list.foldl step state) := by
  have fewer : list.length ≤ (list.flatMap encode).length := by
    clear turn
    induction list with
    | nil => exact Nat.le_refl 0
    | cons x rest ih =>
        have one := nonempty x
        rw [List.flatMap_cons, List.length_append, List.length_cons]
        omega
  apply Reads.of_small
  intro small
  refine (Reads.word _).bind ?_
  rw [toNat_count fewer small]
  exact reads_loop turn list state

theorem lawful_vector {element : Codec α} (lawful : element.Lawful) : (vector element).Lawful where
  reads v := by
    have appended : v.foldl (fun v x => v ++ [x]) [] = v := by
      rw [List.foldl_append_eq_append]
      exact List.flatMap_singleton' v
    have turn : ∀ v x, Reads ((v ++ [·]) <$> element.get element.fresh)
        (encoded (element.put x)) (v ++ [x]) :=
      fun v x => (lawful.reads x).map rfl
    have read := reads_counted turn lawful.nonempty v []
    rw [appended] at read
    rw [vector, encoded_append, encoded_flatMap]
    exact read
  nonempty _ := Nat.succ_pos _

theorem lawful_pair {first : Codec α} {second : Codec β} (firstLawful : first.Lawful)
    (secondLawful : second.Lawful) : (pair first second).Lawful where
  reads d := by
    rw [pair, encoded_append]
    exact (firstLawful.reads d.1).bind ((secondLawful.reads d.2).last rfl)
  nonempty d := by
    rw [pair, encoded_append, List.length_append]
    exact Nat.add_pos_left (firstLawful.nonempty d.1) _

theorem lawful_map [LinearOrder α] {key : Codec α} {value : Codec β} (keyLawful : key.Lawful)
    (valueLawful : value.Lawful) : (map key value).Lawful where
  reads d := by
    have turn : ∀ (d : OrderedMap α β) (entry : α × β),
        Reads (do
          let a ← key.get key.fresh
          let b ← value.get value.fresh
          return d.insert a b)
          (encoded (key.put entry.1 ++ value.put entry.2)) (d.insert entry.1 entry.2) := by
      intro d entry
      rw [encoded_append]
      exact (keyLawful.reads entry.1).bind ((valueLawful.reads entry.2).last rfl)
    have read := reads_counted turn (lawful_pair keyLawful valueLawful).nonempty d.entries .empty
    rw [OrderedMap.foldl_insert_empty] at read
    rw [map, encoded_append, encoded_flatMap]
    exact read
  nonempty _ := Nat.succ_pos _

theorem lawful_attr : attr.Lawful where
  reads a := by
    rw [attr, encoded_append, encoded_append, encoded_append, List.append_assoc, List.append_assoc]
    exact (Reads.word _).bind ((Reads.word _).bind ((Reads.word _).bind ((Reads.word _).last rfl)))
  nonempty _ := Nat.succ_pos _

theorem lawful_serverInfo : serverInfo.Lawful where
  reads i := by
    have longs := lawful_vector lawful_unsignedLongLong
    rw [serverInfo, encoded_append, encoded_append, List.append_assoc]
    exact (longs.reads i.inum).bind ((longs.reads i.sz).bind
      (((lawful_vector lawful_int).reads i.type).last rfl))
  nonempty _ := Nat.succ_pos _

theorem lawful_kvInfo : kvInfo.Lawful where
  reads i := by
    rw [kvInfo, encoded_append]
    exact (lawful_string.reads i.addr).bind ((lawful_unsignedLongLong.reads i.sz).last rfl)
  nonempty _ := Nat.succ_pos _

end Codec

end Ctgfs.Wire
