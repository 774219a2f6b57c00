import Ctgfs.Wire.Marshall

/-!
# Connections

What a `connection` does to its two buffers when its socket is ready and when a message is
sent.  The outcomes of `read` and `write` are arguments, and so is the answer of `got_pdu`.
There is no state after a failed `VERIFY`, after undefined behaviour, and for an outcome that
the call does not have.
-/

namespace Ctgfs.Wire

open Foundation

def maxPdu : Nat := 10485760

structure Charbuf where
  buf : Option Bytes
  sz : Int
  solong : Int
  deriving DecidableEq

def Charbuf.empty : Charbuf := ⟨none, 0, 0⟩

/-- The outcome of a `read`.  At the end of the stream `errno` is that of an earlier call. -/
inductive ReadResult where
  | got (n : Nat)
  | eof (eagain : Bool)
  | failed (eagain : Bool)
  deriving DecidableEq, Repr

inductive WriteResult where
  | wrote (n : Nat)
  | failed (eagain : Bool)
  deriving DecidableEq, Repr

section Reading

variable (memory : Nat → Byte)

/-- The first part of `readpdu`, with the bytes that are not yet read.  It fails, or there is
a buffer for the message that begins.  To allocate a negative size fails. -/
def readSize (stream : Bytes) (rpdu : Charbuf) : ReadResult → Option (Option Charbuf × Bytes)
  | .got n =>
      if 0 < n ∧ n ≤ sizeBytes ∧ n ≤ stream.length then
        if n = sizeBytes then
          let sz := (ofBigEndian (stream.take sizeBytes)).toInt32.toInt
          if maxPdu < sz then some (none, stream.drop n)
          else if rpdu.buf = none ∧ 0 ≤ sz + sizeBytes then
            some (some ⟨some ((stream.take sizeBytes ++
              (malloc memory (sz + sizeBytes).toNat).drop sizeBytes).take (sz + sizeBytes).toNat),
              sz, sizeBytes⟩, stream.drop n)
          else none
        else some (none, stream.drop n)
      else none
  | .eof _ => some (none, stream)
  | .failed eagain => if eagain then none else some (none, stream)

/-- The second part of `readpdu`.  A negative count is a very large one for `read`. -/
def readBody (stream : Bytes) (rpdu : Charbuf) : ReadResult → Option (Bool × Charbuf × Bytes)
  | .got n =>
      match rpdu.buf with
      | some buf =>
          if 0 < n ∧ n ≤ stream.length ∧ (0 ≤ rpdu.sz - rpdu.solong → n ≤ rpdu.sz - rpdu.solong) ∧
              0 ≤ rpdu.solong ∧ rpdu.solong + n ≤ buf.length then
            some (true, { rpdu with
              buf := some (writeAt buf rpdu.solong.toNat (stream.take n))
              solong := rpdu.solong + n }, stream.drop n)
          else none
      | none => none
  | .eof eagain | .failed eagain =>
      if eagain then some (true, rpdu, stream) else some (false, .empty, stream)

def readpdu (stream : Bytes) (rpdu : Charbuf) (first second : ReadResult) :
    Option (Bool × Charbuf × Bytes) :=
  if rpdu.sz = 0 then
    (readSize memory stream rpdu first).bind fun
      | (some rpdu, stream) => readBody stream rpdu second
      | (none, stream) => some (false, rpdu, stream)
  else readBody stream rpdu second

end Reading

def Charbuf.marked (wpdu : Charbuf) : Charbuf :=
  if wpdu.solong = 0 then
    { wpdu with buf := wpdu.buf.map fun buf =>
        bigEndian (Int32.ofInt wpdu.sz).toUInt32 ++ buf.drop sizeBytes }
  else wpdu

/-- The `write` of `writepdu`, with the bytes that are written. -/
def writeRest (wpdu : Charbuf) : WriteResult → Option (Bool × Charbuf × Bytes)
  | .wrote n =>
      if n ≤ wpdu.sz - wpdu.solong then
        some (true, { wpdu with solong := wpdu.solong + n },
          ((wpdu.buf.getD []).drop wpdu.solong.toNat).take n)
      else none
  | .failed eagain =>
      if eagain then some (true, wpdu, [])
      else some (false, { wpdu with solong := -1, sz := 0 }, [])

def writepdu (wpdu : Charbuf) (result : WriteResult) : Option (Bool × Charbuf × Bytes) :=
  if wpdu.solong < 0 then none
  else if wpdu.solong = wpdu.sz then some (true, wpdu, [])
  else writeRest wpdu.marked result

structure Connection where
  dead : Bool
  wpdu : Charbuf
  rpdu : Charbuf
  deriving DecidableEq

namespace Connection

def initial : Connection := ⟨false, .empty, .empty⟩

variable (c : Connection)

/-- `readpdu` is called. -/
def Reads : Prop :=
  c.dead = false ∧ (c.rpdu.buf = none ∨ c.rpdu.solong < c.rpdu.sz)

instance (c : Connection) : Decidable c.Reads := instDecidableAnd

/-- A message that `got_pdu` consumes is handed over. -/
def handOver (accept : Bool) : Connection × Option Bytes :=
  match c.rpdu.buf with
  | some buf =>
      if c.rpdu.sz = c.rpdu.solong ∧ accept = true then
        ({ c with rpdu := .empty }, some (buf.take c.rpdu.sz.toNat))
      else (c, none)
  | none => (c, none)

/-- `connection::read_cb`, with the message that is consumed. -/
def readCb (memory : Nat → Byte) (stream : Bytes) (c : Connection) (first second : ReadResult)
    (accept : Bool) : Option ((Connection × Option Bytes) × Bytes) :=
  if c.dead then some ((c, none), stream)
  else
    (if c.Reads then readpdu memory stream c.rpdu first second
      else some (true, c.rpdu, stream)).map fun (succ, rpdu, stream) =>
        (handOver { c with dead := !succ, rpdu := rpdu } accept, stream)

/-- The end of `send`. -/
def finish : Connection := { c with wpdu := .empty }

/-- `connection::send` from the point where no other message is being written, up to its end or
to the point where it waits for the rest of the message to be written. -/
def send (b : Bytes) (result : WriteResult) : Option (Connection × Bytes) :=
  if c.dead then some (c, [])
  else if c.wpdu.buf = none then
    (writepdu ⟨some b, b.length, 0⟩ result).map fun (succ, wpdu, written) =>
      let c := { c with wpdu := wpdu, dead := !succ }
      (if succ = true ∧ wpdu.solong ≠ wpdu.sz then c else c.finish, written)
  else none

/-- The rest of `send`, when it has waited. -/
def sent : Option Connection :=
  if c.wpdu.buf ≠ none ∧ (c.dead = true ∨ c.wpdu.solong < 0 ∨ c.wpdu.sz ≤ c.wpdu.solong) then
    some c.finish
  else none

def writeCb (result : WriteResult) : Option (Connection × Bytes) :=
  if c.dead then none
  else if c.wpdu.sz = 0 then some (c, [])
  else (writepdu c.wpdu result).map fun (succ, wpdu, written) =>
    ({ c with wpdu := wpdu, dead := !succ }, written)

end Connection

section Buffers

variable {memory : Nat → Byte} {stream rest : Bytes} {rpdu next : Charbuf} {result : ReadResult}

structure Charbuf.Begun (stream : Bytes) (next : Charbuf) : Prop where
  available : sizeBytes ≤ stream.length
  sz : next.sz = (ofBigEndian (stream.take sizeBytes)).toInt32.toInt
  allocated : 0 ≤ next.sz + 4
  solong : next.solong = 4
  buf : ∃ buf, next.buf = some buf ∧ buf.length = next.sz + 4 ∧
    (0 ≤ next.sz → buf.take sizeBytes = stream.take sizeBytes)

theorem readSize_some (ran : readSize memory stream rpdu result = some (some next, rest)) :
    result = .got sizeBytes ∧ rest = stream.drop sizeBytes ∧ next.Begun stream := by
  cases result with
  | got n =>
      rw [readSize, Option.ite_none_right_eq_some] at ran
      obtain ⟨⟨-, -, available⟩, ran⟩ := ran
      split at ran
      next whole =>
        subst whole
        dsimp only at ran
        split at ran
        · cases ran
        rw [Option.ite_none_right_eq_some] at ran
        obtain ⟨⟨-, allocated⟩, ran⟩ := ran
        generalize size : (ofBigEndian (stream.take sizeBytes)).toInt32.toInt = sz at ran allocated
        cases ran
        refine ⟨rfl, rfl, available, size.symm, allocated, rfl, _, rfl, ?_, ?_⟩
        · have four : sizeBytes = 4 := rfl
          simp only [List.length_take, List.length_append, List.length_drop, length_malloc,
            Nat.min_eq_left available]
          omega
        · intro nonnegative
          have room : sizeBytes ≤ (sz + sizeBytes).toNat := by
            dsimp only at nonnegative
            omega
          rw [List.take_take, Nat.min_eq_left room,
            List.take_left' (List.length_take_of_le available)]
      next part => cases ran
  | eof eagain => cases ran
  | failed eagain =>
      rw [readSize, Option.ite_none_left_eq_some] at ran
      cases ran.2

theorem readSize_none (ran : readSize memory stream rpdu result = some (none, rest)) :
    rest <:+ stream := by
  cases result with
  | got n =>
      rw [readSize, Option.ite_none_right_eq_some] at ran
      obtain ⟨-, ran⟩ := ran
      split at ran
      · dsimp only at ran
        split at ran
        · cases ran
          exact List.drop_suffix n stream
        · rw [Option.ite_none_right_eq_some] at ran
          cases ran.2
      · cases ran
        exact List.drop_suffix n stream
  | eof eagain =>
      cases ran
      exact List.suffix_rfl
  | failed eagain =>
      rw [readSize, Option.ite_none_left_eq_some] at ran
      cases ran.2
      exact List.suffix_rfl

inductive BodyRead (stream : Bytes) (rpdu : Charbuf) : Bool → Charbuf → Bytes → Prop where
  | waits : BodyRead stream rpdu true rpdu stream
  | fails : BodyRead stream rpdu false .empty stream
  | reads {buf chunk rest : Bytes} : rpdu.buf = some buf → stream = chunk ++ rest →
      (0 ≤ rpdu.sz - rpdu.solong → chunk.length ≤ rpdu.sz - rpdu.solong) → 0 ≤ rpdu.solong →
      rpdu.solong + chunk.length ≤ buf.length →
      BodyRead stream rpdu true
        ⟨some (writeAt buf rpdu.solong.toNat chunk), rpdu.sz, rpdu.solong + chunk.length⟩ rest

theorem readBody_some {succ : Bool}
    (ran : readBody stream rpdu result = some (succ, next, rest)) :
    BodyRead stream rpdu succ next rest := by
  have ends : ∀ eagain : Bool,
      (if eagain then some (true, rpdu, stream) else some (false, .empty, stream)) =
        some (succ, next, rest) → BodyRead stream rpdu succ next rest := by
    intro eagain ran
    cases eagain with
    | true =>
        cases ran
        exact .waits
    | false =>
        cases ran
        exact .fails
  cases result with
  | got n =>
      rw [readBody] at ran
      cases here : rpdu.buf with
      | none =>
          rw [here] at ran
          cases ran
      | some buf =>
          rw [here] at ran
          dsimp only at ran
          rw [Option.ite_none_right_eq_some] at ran
          obtain ⟨⟨-, available, counted, nonnegative, inside⟩, ran⟩ := ran
          cases ran
          have length := List.length_take_of_le available
          have split := (List.take_append_drop n stream).symm
          generalize stream.take n = chunk at length split ⊢
          subst length
          exact .reads here split counted nonnegative inside
  | eof eagain => exact ends eagain ran
  | failed eagain => exact ends eagain ran

theorem readpdu_some {first second : ReadResult} {succ : Bool}
    (ran : readpdu memory stream rpdu first second = some (succ, next, rest)) :
    (rpdu.sz = 0 ∧ succ = false ∧ next = rpdu ∧ rest <:+ stream) ∨
      (rpdu.sz = 0 ∧ ∃ begun, readSize memory stream rpdu first =
          some (some begun, stream.drop sizeBytes) ∧
        BodyRead (stream.drop sizeBytes) begun succ next rest) ∨
      (rpdu.sz ≠ 0 ∧ BodyRead stream rpdu succ next rest) := by
  rw [readpdu] at ran
  split at ran
  next start =>
    obtain ⟨⟨begun, left⟩, sized, ran⟩ := Option.bind_eq_some_iff.mp ran
    cases begun with
    | none =>
        cases ran
        exact .inl ⟨start, rfl, rfl, readSize_none sized⟩
    | some begun =>
        obtain ⟨-, rfl, -⟩ := readSize_some sized
        exact .inr (.inl ⟨start, begun, sized, readBody_some ran⟩)
  next started => exact .inr (.inr ⟨started, readBody_some ran⟩)

theorem Connection.readCb_some {c : Connection} {first second : ReadResult} {accept : Bool}
    {after : Connection × Option Bytes} (alive : c.dead = false)
    (ran : c.readCb memory stream first second accept = some (after, rest)) :
    ∃ succ rpdu, after = handOver { c with dead := !succ, rpdu := rpdu } accept ∧
      (c.Reads ∧ readpdu memory stream c.rpdu first second = some (succ, rpdu, rest) ∨
        ¬ c.Reads ∧ succ = true ∧ rpdu = c.rpdu ∧ rest = stream) := by
  rw [Connection.readCb, if_neg (by rw [alive]; decide)] at ran
  obtain ⟨⟨succ, rpdu, left⟩, read, handed⟩ := Option.map_eq_some_iff.mp ran
  cases handed
  refine ⟨succ, rpdu, rfl, ?_⟩
  split at read
  next reads => exact .inl ⟨reads, read⟩
  next complete =>
    cases read
    exact .inr ⟨complete, rfl, rfl, rfl⟩

end Buffers

end Ctgfs.Wire
