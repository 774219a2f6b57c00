import Ctgfs.Kv.MockKv
import Ctgfs.Mvcc.Search

/-!
# Versions in a key-value store

`SimpleMVCC` keeps every version of a key as an entry of its own: the key, an
underscore and the four bytes of the timestamp, with `_d` at the end for a deletion.
`Select` reads the timestamps back from the keys and searches them in the order of
the store.
-/

namespace Ctgfs.Mvcc

open Foundation Kv

/-- The end `"_d"` of the key of a deletion. -/
def deleteFlag : Bytes := [underscore, ⟨100, by decide⟩]

/-- `func::ts_to_str`: the memory image of an `int`. -/
def tsToStr (t : Int) : Bytes :=
  littleEndian 4 (t % 4294967296).toNat

/-- `func::str_to_ts`: the `int` in the first four bytes.  A shorter string is read as
if null bytes followed it. -/
def strToTs (str : Bytes) : Int :=
  let image := ofLittleEndian (str.take 4)
  if image < 2147483648 then image else image - 4294967296

def afterLast (str : Bytes) : Bytes :=
  (str.reverse.takeWhile (· ≠ underscore)).reverse

def afterFirst (str : Bytes) : Bytes :=
  (str.dropWhile (· ≠ underscore)).drop 1

/-- The vectors and the set that `Select` fills. -/
structure Scan where
  dataTimestamp : List Version := []
  dataValue : List Bytes := []
  dataDel : List Int := []
  cnt : Nat := 0
  deriving DecidableEq, Repr

/-- The body of the loop of `Select`; `none` is its internal error. -/
def scanEntry (scan : Scan) (entry : Entry) : Option Scan :=
  let times := entry.1.count underscore
  if times = 0 ∨ 2 < times then none
  else if times = 1 then
    let t := strToTs (afterLast entry.1)
    some { scan with
      dataTimestamp := scan.dataTimestamp ++ [(t, scan.cnt)]
      dataValue := scan.dataValue ++ [entry.2]
      cnt := scan.cnt + 1 }
  else
    let t := strToTs ((afterFirst entry.1).take 4)
    some {
      dataTimestamp := scan.dataTimestamp ++ [(t, scan.cnt)]
      dataValue := scan.dataValue ++ [entry.2]
      dataDel := t :: scan.dataDel
      cnt := scan.cnt + 1 }

def insert (kv : MockKv) (rawKey value : Bytes) (ts : Int) : Bool × MockKv :=
  (true, kv.put (rawKey ++ [underscore] ++ tsToStr ts) value)

def delete (kv : MockKv) (rawKey : Bytes) (ts : Int) : Bool × MockKv :=
  if kv.query rawKey = [] then (false, kv)
  else (true, kv.put (rawKey ++ [underscore] ++ tsToStr ts ++ deleteFlag) [])

/-- The end of `Select`, after its loop. -/
def pick (scan : Scan) (ts : Int) : Option (Bool × Bytes) :=
  (searchVersion scan.dataTimestamp ts).bind fun idx =>
    if idx < 0 then some (false, [])
    else
      scan.dataTimestamp[idx.toNat]?.bind fun version =>
        if version.1 ∈ scan.dataDel then some (false, [])
        else scan.dataValue[version.2]?.map fun value => (true, value)

/-- `SimpleMVCC::Select`: what it returns, and its output argument, which holds `value`
before.  It is `none` when a position outside a vector is read. -/
def select (kv : MockKv) (rawKey value : Bytes) (ts : Int) : Option (Bool × Bytes) :=
  let data := kv.query rawKey
  if data = [] then some (false, value)
  else
    match data.foldlM scanEntry {} with
    | none => some (false, value)
    | some scan => pick scan ts

end Ctgfs.Mvcc
