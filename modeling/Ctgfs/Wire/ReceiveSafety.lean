import Ctgfs.Wire.Codec
import Ctgfs.Wire.Connection

/-!
# What a peer can do to the receiver

The counts of the reads of `readpdu` and the strings of a message stay inside their buffers,
unless a length says otherwise: a size of a message between -4 and 3, or the length of a
string whose end does not fit into an `unsigned int`.
-/

namespace Ctgfs.Wire

open Foundation

/-- The choices of the environment in a call of `read_cb`. -/
structure Callback where
  first : ReadResult
  second : ReadResult
  accept : Bool
  deriving DecidableEq, Repr

structure Receiver where
  connection : Connection
  stream : Bytes

namespace Receiver

def step (memory : Nat → Byte) (r : Receiver) (cb : Callback) : Option Receiver :=
  (r.connection.readCb memory r.stream cb.first cb.second cb.accept).map fun result =>
    ⟨result.1.1, result.2⟩

/-- The buffer for which `read` is called a second time. -/
def bodyRead (memory : Nat → Byte) (r : Receiver) (cb : Callback) : Option Charbuf :=
  if r.connection.Reads then
    if r.connection.rpdu.sz = 0 then
      (readSize memory r.stream r.connection.rpdu cb.first).bind Prod.fst
    else some r.connection.rpdu
  else none

/-- The count of that `read` is not negative and stays inside the buffer. -/
def Safe (memory : Nat → Byte) (r : Receiver) (cb : Callback) : Prop :=
  ∀ rpdu ∈ r.bodyRead memory cb, 0 ≤ rpdu.sz - rpdu.solong ∧
    ∃ buf, rpdu.buf = some buf ∧ rpdu.solong + (rpdu.sz - rpdu.solong) ≤ buf.length

def Announced (r : Receiver) (cb : Callback) (sz : Int) : Prop :=
  r.connection.Reads ∧ r.connection.rpdu.sz = 0 ∧ cb.first = .got sizeBytes ∧
    sizeBytes ≤ r.stream.length ∧ sz = (ofBigEndian (r.stream.take sizeBytes)).toInt32.toInt

def Careful (r : Receiver) (cb : Callback) : Prop :=
  ∀ sz, r.Announced cb sz → 4 ≤ sz ∨ sz < -4

end Receiver

inductive Filling : Charbuf → Prop where
  | empty : Filling .empty
  | buffer {buf : Bytes} {sz solong : Int} : 4 ≤ solong → solong ≤ sz → sz + 4 = buf.length →
      Filling ⟨some buf, sz, solong⟩

theorem Filling.bodyRead {stream rest : Bytes} {rpdu next : Charbuf} {succ : Bool}
    (filling : Filling rpdu) (read : BodyRead stream rpdu succ next rest) : Filling next := by
  cases read with
  | waits => exact filling
  | fails => exact .empty
  | reads here _ counted nonnegative inside =>
      cases filling with
      | empty => cases here
      | buffer begun notFull allocated =>
          cases here
          dsimp only at counted inside ⊢
          refine .buffer (by omega) (by have := counted (by omega); omega) ?_
          rw [length_writeAt_of_le (by omega), allocated]

theorem Filling.begun {stream : Bytes} {next : Charbuf} (begun : next.Begun stream)
    (large : 4 ≤ next.sz) : Filling next := by
  obtain ⟨-, -, -, solong, buf, here, allocated, -⟩ := begun
  obtain ⟨nextBuf, sz, nextSolong⟩ := next
  cases here
  cases solong
  exact .buffer (by decide) large allocated.symm

theorem Filling.safe {rpdu : Charbuf} (filling : Filling rpdu) (started : rpdu.sz ≠ 0) :
    0 ≤ rpdu.sz - rpdu.solong ∧
      ∃ buf, rpdu.buf = some buf ∧ rpdu.solong + (rpdu.sz - rpdu.solong) ≤ buf.length := by
  cases filling with
  | empty => exact absurd rfl started
  | @buffer buf _ _ _ notFull allocated =>
      dsimp only
      exact ⟨by omega, buf, rfl, by omega⟩

namespace Receiver

variable {memory : Nat → Byte} {r next : Receiver} {cb : Callback}

theorem announced_of_readSize (reads : r.connection.Reads) (start : r.connection.rpdu.sz = 0)
    {begun : Charbuf} {rest : Bytes}
    (sized : readSize memory r.stream r.connection.rpdu cb.first = some (some begun, rest)) :
    begun.Begun r.stream ∧ r.Announced cb begun.sz := by
  obtain ⟨whole, -, begun⟩ := readSize_some sized
  exact ⟨begun, reads, start, whole, begun.available, begun.sz⟩

theorem filling_step (filling : Filling r.connection.rpdu) (careful : r.Careful cb)
    (taken : r.step memory cb = some next) : Filling next.connection.rpdu := by
  obtain ⟨⟨after, rest⟩, ran, rfl⟩ := Option.map_eq_some_iff.mp taken
  cases alive : r.connection.dead with
  | true =>
      rw [Connection.readCb, if_pos alive] at ran
      cases ran
      exact filling
  | false =>
      obtain ⟨succ, rpdu, rfl, read⟩ := Connection.readCb_some alive ran
      have filled : Filling rpdu := by
        rcases read with ⟨reads, read⟩ | ⟨-, -, rfl, -⟩
        · rcases readpdu_some read with ⟨-, -, rfl, -⟩ | ⟨start, begun, sized, body⟩ | ⟨-, body⟩
          · exact filling
          · obtain ⟨begins, announced⟩ := announced_of_readSize reads start sized
            have large : 4 ≤ begun.sz := by
              have allocated := begins.allocated
              rcases careful _ announced with large | negative
              · exact large
              · omega
            exact (Filling.begun begins large).bodyRead body
          · exact filling.bodyRead body
        · exact filling
      dsimp only [Connection.handOver]
      split
      · split
        · exact .empty
        · exact filled
      · exact filled

theorem readSize_announced {sz : Int} (announced : r.Announced cb sz)
    (idle : r.connection.rpdu.buf = none) (allocated : 0 ≤ sz + 4) (small : sz ≤ maxPdu) :
    ∃ begun rest, readSize memory r.stream r.connection.rpdu cb.first = some (some begun, rest) ∧
      begun.sz = sz ∧ begun.solong = 4 := by
  obtain ⟨-, -, whole, available, rfl⟩ := announced
  rw [whole, readSize, if_pos ⟨by decide, Nat.le_refl _, available⟩, if_pos rfl,
    if_neg (Int.not_lt.mpr small), if_pos ⟨idle, allocated⟩]
  exact ⟨_, _, rfl, rfl, rfl⟩

theorem safe_iff_careful (filling : Filling r.connection.rpdu) :
    r.Safe memory cb ↔ r.Careful cb := by
  constructor
  · intro safe sz announced
    by_contra size
    have idle : r.connection.rpdu.buf = none := by
      have start := announced.2.1
      generalize r.connection.rpdu = rpdu at filling start
      cases filling with
      | empty => rfl
      | buffer begun notFull =>
          dsimp only at start
          omega
    have limit : (4 : Int) ≤ maxPdu := by decide
    obtain ⟨begun, rest, sized, rfl, solong⟩ :=
      @readSize_announced memory r cb sz announced idle (by omega) (by omega)
    have body : r.bodyRead memory cb = some begun := by
      rw [bodyRead, if_pos announced.1, if_pos announced.2.1, sized]
      rfl
    have nonnegative := (safe begun body).1
    omega
  · intro careful rpdu body
    rw [bodyRead, Option.mem_def, Option.ite_none_right_eq_some] at body
    obtain ⟨reads, body⟩ := body
    split at body
    next start =>
      obtain ⟨⟨begun, rest⟩, sized, rfl⟩ := Option.bind_eq_some_iff.mp body
      obtain ⟨begins, announced⟩ := announced_of_readSize reads start sized
      have allocated := begins.allocated
      have large : 4 ≤ rpdu.sz := by
        rcases careful _ announced with large | negative
        · exact large
        · omega
      exact (Filling.begun begins large).safe (by omega)
    next started =>
      cases body
      exact filling.safe started

end Receiver

section Strings

/-- The string behind a length field is copied from the message when it stands there; otherwise
the message is no longer `ok()` and the index stays behind the length field. -/
def StringRead (u : Unmarshall) (s : Bytes) (n : UInt32) (rest : Bytes) : Prop :=
  ∃ result next, Codec.string.get s u = some (result, next) ∧
    (next.ok = true ↔ n.toNat ≤ rest.length) ∧
    (next.ok = true → result = rest.take n.toNat ∧ next.ind = u.ind + 4 + n.toNat) ∧
    (next.ok = false → result = s ∧ next.ind = u.ind + 4)

variable {u : Unmarshall} {s before rest : Bytes} {n : UInt32}

theorem getString (ok : u.ok = true) (shape : u.buf = before ++ bigEndian n ++ rest)
    (place : u.ind = before.length) :
    Codec.string.get s u = rawbytes s n { u with ind := u.ind + 4 } := by
  have word := Reads.word n u before rest ok shape place
  change (getWord u).bind _ = _
  rw [word, Option.bind_some]
  change (if u.ok then rawbytes s n else pure s) { u with ind := u.ind + 4 } = _
  rw [if_pos ok]

theorem stringRead_iff (ok : u.ok = true) (shape : u.buf = before ++ bigEndian n ++ rest)
    (place : u.ind = before.length) :
    StringRead u s n rest ↔ u.ind + 4 + n.toNat < unsignedRange := by
  have length : u.buf.length = u.ind + 4 + rest.length := by
    rw [shape, place, List.length_append, List.length_append, length_bigEndian]
  rw [StringRead, getString ok shape place]
  constructor
  · rintro ⟨result, next, read, -⟩
    by_contra wraps
    rw [rawbytes_of_le s (by dsimp only; omega) (Nat.not_lt.mp wraps)] at read
    cases read
  · intro small
    rw [rawbytes_of_lt s small]
    dsimp only
    split
    next inside =>
      refine ⟨_, _, rfl, iff_of_true ok (by omega), fun _ => ⟨?_, rfl⟩, fun failed => ?_⟩
      · have behind : u.ind + 4 = (before ++ bigEndian n).length := by
          rw [List.length_append, length_bigEndian, place]
        rw [readAt, shape, behind, List.drop_left]
      · exact absurd (ok.symm.trans failed) (by decide)
    next outside =>
      exact ⟨_, _, rfl, iff_of_false Bool.false_ne_true (by omega),
        fun read => absurd read Bool.false_ne_true, fun _ => ⟨rfl, rfl⟩⟩

/-- Reading `count` bytes, which need not be there. -/
structure Advances (u : Unmarshall) (count : Nat) (next : Unmarshall) : Prop where
  buf : next.buf = u.buf
  ind : next.ind ≤ u.ind + count
  ok : next.ok = true → u.ok = true ∧ u.ind + count ≤ u.buf.length ∧ next.ind = u.ind + count

theorem Advances.trans {next last : Unmarshall} {count more : Nat}
    (first : Advances u count next) (second : Advances next more last) :
    Advances u (count + more) last := by
  refine ⟨second.buf.trans first.buf, ?_, fun ok => ?_⟩
  · have before := first.ind
    have after := second.ind
    omega
  · obtain ⟨nextOk, secondInside, secondInd⟩ := second.ok ok
    obtain ⟨startOk, firstInside, firstInd⟩ := first.ok nextOk
    rw [first.buf] at secondInside
    exact ⟨startOk, by omega, by omega⟩

theorem rawbyte_advances (u : Unmarshall) :
    ∃ x next, rawbyte u = some (x, next) ∧ Advances u 1 next := by
  cases here : u.buf[u.ind]? with
  | none =>
      refine ⟨0, { u with ok := false }, ?_, rfl, Nat.le_succ _, fun ok => ?_⟩
      · simp only [rawbyte, here]
      · exact absurd ok Bool.false_ne_true
  | some c =>
      obtain ⟨inside, -⟩ := List.getElem?_eq_some_iff.mp here
      refine ⟨charValue c, { u with ind := u.ind + 1 }, ?_, rfl, Nat.le_refl _, fun ok => ?_⟩
      · simp only [rawbyte, here]
      · exact ⟨ok, inside, rfl⟩

theorem getWord_advances (u : Unmarshall) :
    ∃ x next, getWord u = some (x, next) ∧ Advances u 4 next := by
  obtain ⟨b3, u1, ran3, first⟩ := rawbyte_advances u
  obtain ⟨b2, u2, ran2, second⟩ := rawbyte_advances u1
  obtain ⟨b1, u3, ran1, third⟩ := rawbyte_advances u2
  obtain ⟨b0, u4, ran0, fourth⟩ := rawbyte_advances u3
  refine ⟨joinBytes (b3 &&& 0xff) (b2 &&& 0xff) (b1 &&& 0xff) (b0 &&& 0xff), u4, ?_,
    ((first.trans second).trans third).trans fourth⟩
  simp only [getWord, bind, StateT.bind, ran3, ran2, ran1, ran0, Option.bind_some]
  rfl

theorem getString_short (short : u.buf.length < u.ind + 4) :
    ∃ next, Codec.string.get s u = some (s, next) ∧ next.ok = false ∧ next.ind ≤ u.ind + 4 := by
  obtain ⟨x, next, read, advances⟩ := getWord_advances u
  have failed : next.ok = false := by
    by_contra ok
    rw [Bool.not_eq_false] at ok
    have inside := (advances.ok ok).2.1
    omega
  refine ⟨next, ?_, failed, advances.ind⟩
  change (getWord u).bind _ = _
  rw [read, Option.bind_some]
  change (if next.ok then rawbytes s x else pure s) next = _
  rw [failed]
  rfl

end Strings

/-- On every run of `read_cb` over the bytes of a peer in which no size is between -4 and 3, the
count of the next `read` is safe exactly when the next size is not between them either.  A
string is read exactly when its end is an `unsigned int`, and never when its length is cut off. -/
theorem receive_safe_iff (memory : Nat → Byte) :
    (∀ stream callbacks r,
      Run (Guarded (StepOf (Receiver.step memory)) Receiver.Careful) ⟨.initial, stream⟩
        callbacks r →
      ∀ cb, r.Safe memory cb ↔ r.Careful cb) ∧
    (∀ (u : Unmarshall) (s before rest : Bytes) (n : UInt32), u.ok = true →
      u.buf = before ++ bigEndian n ++ rest → u.ind = before.length →
      (StringRead u s n rest ↔ u.ind + 4 + n.toNat < unsignedRange)) ∧
    ∀ (u : Unmarshall) (s : Bytes), u.buf.length < u.ind + 4 →
      ∃ next, Codec.string.get s u = some (s, next) ∧ next.ok = false ∧
        next.ind ≤ u.ind + 4 := by
  refine ⟨fun stream callbacks r run cb => ?_, fun u s before rest n ok shape place => ?_,
    fun u s short => getString_short short⟩
  · apply Receiver.safe_iff_careful
    refine run.invariant (fun r => Filling r.connection.rpdu) .empty ?_
    rintro r cb next filling ⟨careful, taken⟩
    exact Receiver.filling_step filling careful taken
  · exact stringRead_iff ok shape place

/-- A message of 30 bytes of which 10 have been read, and a string at its end. -/
theorem receive_safe_partly :
    (∃ r, Run (Guarded (StepOf (Receiver.step fun _ => nullByte)) Receiver.Careful)
        ⟨.initial, [0, 0, 0, 30] ++ List.replicate 26 nullByte⟩ [⟨.got 4, .got 6, true⟩] r ∧
      r.Safe (fun _ => nullByte) ⟨.got 4, .got 20, true⟩) ∧
    StringRead ⟨[7, 0, 0, 0, 2, 104, 105], 1, true, by decide⟩ [] 2 [104, 105] := by
  obtain ⟨receives, strings, -⟩ := receive_safe_iff fun _ => nullByte
  constructor
  · obtain ⟨r, started, run⟩ : ∃ r : Receiver, r.connection.rpdu.sz = 30 ∧
        Run (Guarded (StepOf (Receiver.step fun _ => nullByte)) Receiver.Careful)
          ⟨.initial, [0, 0, 0, 30] ++ List.replicate 26 nullByte⟩ [⟨.got 4, .got 6, true⟩] r := by
      refine ⟨_, ?_, Run.refl.tail ⟨?_, rfl⟩⟩
      · decide
      · rintro sz ⟨-, -, -, -, rfl⟩
        decide
    refine ⟨r, run, (receives _ _ _ run _).mpr ?_⟩
    rintro sz ⟨-, start, -⟩
    omega
  · exact (strings _ [] [7] [104, 105] 2 rfl rfl rfl).mpr (by decide)

/-- A size of 0 makes the count -4, and a string of `2 ^ 32 - 4` bytes is copied from a message
of 4 bytes. -/
theorem receive_unsafe :
    (∃ rpdu, Receiver.bodyRead (fun _ => nullByte) ⟨.initial, [0, 0, 0, 0]⟩
        ⟨.got 4, .eof false, true⟩ = some rpdu ∧ rpdu.sz - rpdu.solong = -4) ∧
      Codec.string.get [] ⟨[255, 255, 255, 252], 0, true, by decide⟩ = none := by
  refine ⟨⟨_, rfl, by decide⟩, ?_⟩
  rw [@getString _ [] [] [] 0xfffffffc rfl rfl rfl]
  exact rawbytes_of_le [] (by decide) (by decide)

end Ctgfs.Wire
