import Ctgfs.Kv.MockKv

/-!
# The replicated state machine

`RocksFSM::propose` writes a proposal into an `IOBuf`: a byte with its type, the key and, for
a put, the value, each behind its length in four bytes.  `on_apply` cuts the entries that
were committed apart again and writes the puts into the database.  However the entries are
split into batches, the database gets the writes that were proposed.  The `IOBuf` and the
database are parameters.
-/

namespace Ctgfs.Kv

open Foundation

inductive ProposeType where
  | unknown
  | get
  | put
  deriving DecidableEq, Repr

def ProposeType.code : ProposeType → Nat
  | .unknown => 0
  | .get => 1
  | .put => 2

/-- The functions of `butil::IOBuf` that are used: `append` and `push_back`, and `cutn`. -/
structure IOBuf (Buffer : Type) where
  empty : Buffer
  append : Buffer → Bytes → Buffer
  cutn : Nat → Buffer → Bytes × Buffer

/-- The bytes are appended at the end and cut off at the front, as many as there are. -/
structure IOBuf.Fifo {Buffer : Type} (iobuf : IOBuf Buffer) (content : Buffer → Bytes) : Prop where
  empty : content iobuf.empty = []
  append : ∀ buffer bytes, content (iobuf.append buffer bytes) = content buffer ++ bytes
  cut : ∀ n buffer, (iobuf.cutn n buffer).1 = (content buffer).take n
  rest : ∀ n buffer, content (iobuf.cutn n buffer).2 = (content buffer).drop n

def IOBuf.ofBytes : IOBuf Bytes where
  empty := []
  append buffer bytes := buffer ++ bytes
  cutn n buffer := (buffer.take n, buffer.drop n)

theorem IOBuf.fifo_ofBytes : IOBuf.ofBytes.Fifo id :=
  ⟨rfl, fun _ _ => rfl, fun _ _ => rfl, fun _ _ => rfl⟩

namespace RocksFsm

section Machine

variable {Buffer Db : Type} (iobuf : IOBuf Buffer) (put : Db → Bytes → Bytes → Db)

/-- The log that `RocksFSM::propose` builds.  The case of a put falls through to the default
case, whose `assert` of a string is always true. -/
def propose (type : ProposeType) (key value : Bytes) : Buffer :=
  let log := iobuf.append iobuf.empty (littleEndian 1 type.code)
  let log := iobuf.append log (littleEndian 4 key.length)
  let log := iobuf.append log key
  match type with
  | .put => iobuf.append (iobuf.append log (littleEndian 4 value.length)) value
  | .get => log
  | .unknown => log

/-- `cutn` into a number in the memory `memory`: a shorter buffer leaves its last bytes as they
are. -/
def cutNumber (memory : Bytes) (data : Buffer) : Nat × Buffer :=
  let cut := iobuf.cutn memory.length data
  (ofLittleEndian (cut.1 ++ memory.drop cut.1.length), cut.2)

/-- The body of the loop of `RocksFSM::on_apply`, where `junk` is what the four bytes of the
uninitialised `size` hold. -/
def applyEntry (junk : Nat) (db : Db) (data : Buffer) : Db :=
  let type := cutNumber iobuf (littleEndian 1 ProposeType.unknown.code) data
  if type.1 = ProposeType.put.code then
    let keySize := cutNumber iobuf (littleEndian 4 junk) type.2
    let key := iobuf.cutn keySize.1 keySize.2
    let valueSize := cutNumber iobuf (littleEndian 4 keySize.1) key.2
    let value := iobuf.cutn valueSize.1 valueSize.2
    put db key.1 value.1
  else db

/-- `RocksFSM::on_apply` of one batch.  Uninitialised memory may hold something else in each
iteration. -/
def onApply (junk : Nat → Nat) (db : Db) : List Buffer → Db
  | [] => db
  | data :: rest => onApply junk (applyEntry iobuf put (junk rest.length) db data) rest

def applyBatches (junk : Nat → Nat → Nat) (db : Db) : List (List Buffer) → Db
  | [] => db
  | batch :: rest => applyBatches junk (onApply iobuf put (junk rest.length) db batch) rest

inductive Proposal where
  | put (key value : Bytes)
  | get (key : Bytes)
  deriving DecidableEq, Repr

namespace Proposal

def entry : Proposal → Buffer
  | .put key value => propose iobuf .put key value
  | .get key => propose iobuf .get key []

def written : Proposal → Option Entry
  | .put key value => some (key, value)
  | .get _ => none

def Short : Proposal → Prop
  | .put key value => key.length < 2 ^ 32 ∧ value.length < 2 ^ 32
  | .get _ => True

end Proposal

def writeAll (db : Db) (entries : List Entry) : Db :=
  entries.foldl (fun db entry => put db entry.1 entry.2) db

theorem writeAll_append (db : Db) (first second : List Entry) :
    writeAll put db (first ++ second) = writeAll put (writeAll put db first) second :=
  List.foldl_append

end Machine

section Apply

variable {Buffer Db : Type} {iobuf : IOBuf Buffer} {content : Buffer → Bytes}
  (fifo : iobuf.Fifo content) (put : Db → Bytes → Bytes → Db)

include fifo

variable {data : Buffer}

theorem cutn_append {text rest : Bytes} (shape : content data = text ++ rest) :
    (iobuf.cutn text.length data).1 = text ∧ content (iobuf.cutn text.length data).2 = rest := by
  rw [fifo.cut, fifo.rest, shape, List.take_left, List.drop_left]
  exact ⟨rfl, rfl⟩

theorem cutNumber_append {bytes value : Nat} {rest : Bytes}
    (shape : content data = littleEndian bytes value ++ rest) (fits : value < 256 ^ bytes)
    (memory : Nat) :
    (cutNumber iobuf (littleEndian bytes memory) data).1 = value ∧
      content (cutNumber iobuf (littleEndian bytes memory) data).2 = rest := by
  obtain ⟨cut, left⟩ := cutn_append fifo shape
  rw [length_littleEndian] at cut left
  refine ⟨?_, by rw [cutNumber, length_littleEndian]; exact left⟩
  rw [cutNumber, length_littleEndian, cut, length_littleEndian,
    List.drop_of_length_le (length_littleEndian bytes memory).le, List.append_nil,
    ofLittleEndian_of_lt fits]

theorem applyEntry_put (junk : Nat) (db : Db) {key value : Bytes}
    (same : content data = content (propose iobuf .put key value)) (keyShort : key.length < 2 ^ 32)
    (valueShort : value.length < 2 ^ 32) :
    applyEntry iobuf put junk db data = put db key value := by
  have shape : content data = littleEndian 1 ProposeType.put.code ++
      (littleEndian 4 key.length ++ (key ++ (littleEndian 4 value.length ++ (value ++ [])))) := by
    simp [same, propose, fifo.append, fifo.empty]
  -- one cut after the other
  obtain ⟨type, afterType⟩ := cutNumber_append fifo shape (by decide) ProposeType.unknown.code
  obtain ⟨keySize, afterKeySize⟩ := cutNumber_append fifo afterType keyShort junk
  obtain ⟨keyCut, afterKey⟩ := cutn_append fifo afterKeySize
  obtain ⟨valueSize, afterValueSize⟩ := cutNumber_append fifo afterKey valueShort key.length
  obtain ⟨valueCut, -⟩ := cutn_append fifo afterValueSize
  simp only [applyEntry, type, if_true, keySize, keyCut, valueSize, valueCut]

theorem applyEntry_get (junk : Nat) (db : Db) {key : Bytes}
    (same : content data = content (propose iobuf .get key [])) :
    applyEntry iobuf put junk db data = db := by
  have shape : content data = littleEndian 1 ProposeType.get.code ++
      (littleEndian 4 key.length ++ key) := by
    simp [same, propose, fifo.append, fifo.empty]
  obtain ⟨type, -⟩ := cutNumber_append fifo shape (by decide) ProposeType.unknown.code
  simp only [applyEntry, type]
  exact if_neg (by decide)

theorem applyEntry_entry (junk : Nat) (db : Db) {proposal : Proposal} (short : proposal.Short)
    (same : content data = content (proposal.entry iobuf)) :
    applyEntry iobuf put junk db data = writeAll put db proposal.written.toList := by
  cases proposal with
  | get key => exact applyEntry_get fifo put junk db same
  | put key value => exact applyEntry_put fifo put junk db same short.1 short.2

theorem onApply_entries (junk : Nat → Nat) (db : Db) {batch : List Buffer}
    {proposals : List Proposal}
    (same : batch.map content = proposals.map fun proposal => content (proposal.entry iobuf))
    (short : ∀ proposal ∈ proposals, proposal.Short) :
    onApply iobuf put junk db batch = writeAll put db (proposals.filterMap Proposal.written) := by
  induction batch generalizing db proposals with
  | nil =>
      rw [List.map_eq_nil_iff.mp same.symm]
      rfl
  | cons data rest ih =>
      cases proposals with
      | nil => cases same
      | cons proposal proposals =>
          obtain ⟨first, later⟩ := List.cons.inj same
          obtain ⟨shortFirst, shortLater⟩ := List.forall_mem_cons.mp short
          rw [onApply, applyEntry_entry fifo put _ db shortFirst first,
            ih _ later shortLater, ← writeAll_append]
          cases proposal <;> rfl

/-- Replicated apply equals the proposed writes: the entries of the proposals, in commit
order and split into any batches, leave the database with exactly the puts in order. -/
theorem applyBatches_proposals (junk : Nat → Nat → Nat) (db : Db)
    (proposals : List Proposal) (batches : List (List Buffer))
    (committed : batches.flatten.map content =
      proposals.map fun proposal => content (proposal.entry iobuf))
    (short : ∀ proposal ∈ proposals, proposal.Short) :
    applyBatches iobuf put junk db batches =
      writeAll put db (proposals.filterMap Proposal.written) := by
  induction batches generalizing db proposals with
  | nil =>
      rw [List.map_eq_nil_iff.mp committed.symm]
      rfl
  | cons batch rest ih =>
      rw [List.flatten_cons, List.map_append] at committed
      obtain ⟨first, later, rfl, head, tail⟩ := List.map_eq_append_iff.mp committed.symm
      have firstShort := fun proposal member => short proposal (List.mem_append_left later member)
      have laterShort := fun proposal member => short proposal (List.mem_append_right first member)
      rw [applyBatches, onApply_entries fifo put _ db head.symm firstShort,
        ih _ later tail.symm laterShort, ← writeAll_append,
        List.filterMap_append]

end Apply

/-- Two puts of one key and a get between them, in two batches: the second value stays. -/
theorem applyBatches_proposals_twice :
    applyBatches .ofBytes (fun db key value => assign key value db) (fun _ _ => 0) []
        [[Proposal.entry .ofBytes (.put [107] [1, 2]), Proposal.entry .ofBytes (.get [107])],
          [Proposal.entry .ofBytes (.put [107] [])]] = [([107], [])] :=
  applyBatches_proposals IOBuf.fifo_ofBytes _ _ [] [.put [107] [1, 2], .get [107], .put [107] []] _
    rfl (by simp [Proposal.Short])

end RocksFsm

end Ctgfs.Kv
