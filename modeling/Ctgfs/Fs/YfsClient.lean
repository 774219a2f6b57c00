import Ctgfs.Fs.Directory
import Ctgfs.Fs.ExtentServer

/-!
# The file system client

`yfs_client` serves the calls of FUSE with locks, extents and the numbers of the master.  An
operation is a program over the calls that it makes to the layers below, whatever these are.
-/

namespace Ctgfs.Fs

open Foundation

/-- `xxstatus`, but for `OK`. -/
inductive YfsError where
  | rpcerr
  | noent
  | ioerr
  | exist
  | direnterr
  | notdir
  deriving DecidableEq, Repr

/-- The calls to the layers below, and whether they return `OK`. -/
structure Lower (m : Type → Type) where
  /-- Ask the `Client` for the server of an extent and connect to it. -/
  initExtentClient : Inum → m Unit
  acquire : Inum → m Bool
  release : Inum → m Bool
  get : Inum → m (Except Failure Bytes)
  put : Inum → Bytes → m Bool
  getattr : Inum → m (Except Failure Attr)
  remove : Inum → m Bool
  /-- The number that `GetInumByName` gets from the master. -/
  getInumByName : Inum → Bytes → Bool → UInt64 → m Inum

def isfile (inum : Inum) : Bool :=
  inum &&& 0x80000000 != 0

def isdir (inum : Inum) : Bool :=
  !isfile inum

/-- The string that a `c_str()` is taken for. -/
def cStr (bytes : Bytes) : Bytes :=
  bytes.takeWhile (· ≠ nullByte)

/-- What an operation returns.  The operation itself gives `none` when it never returns. -/
abbrev Result (α : Type) := Except YfsError α

section Operations

variable {m : Type → Type} [Monad m] {α : Type} (lower : Lower m)

/-- Release some locks and return; a release that fails makes it `IOERR`. -/
def finish : List Inum → Result α → OptionT m (Result α)
  | [], result => pure result
  | inum :: rest, result => do
      if ← lower.release inum then finish rest result
      else return .error .ioerr

def locked (inum : Inum) (body : OptionT m (Result α)) : OptionT m (Result α) := do
  if ← lower.acquire inum then body
  else return .error .ioerr

/-- The lock of a number, after the connection to the server of its extent. -/
def connected (inum : Inum) (body : OptionT m (Result α)) : OptionT m (Result α) := do
  lower.initExtentClient inum
  locked lower inum body

/-- `parse_dir`. -/
def parsed (content : Bytes) : OptionT m (Option (List Dirent)) :=
  OptionT.mk (pure (parseDir content))

/-- `getfileInfo` and `getdirInfo`, which differ in what they keep of the attributes. -/
def getInfo (inum : Inum) : OptionT m (Result Attr) :=
  connected lower inum do
    let info ← lower.getattr inum
    finish lower [inum] (info.mapError fun _ => .ioerr)

/-- `create` and `mkdir`; `undo` are the locks that are released when the new extent cannot be
put. -/
def makeNode (parent : Inum) (name : Bytes) (isDir : Bool) (size : UInt64)
    (undo : Inum → List Inum) : OptionT m (Result (Inum × Attr)) :=
  connected lower parent do
    let .ok data ← lower.get parent | finish lower [parent] (.error .ioerr)
    let some files ← parsed data | finish lower [parent] (.error .direnterr)
    if files.any (·.name = name) then finish lower [parent] (.error .exist)
    else
      -- the connection is now to the address that comes with the number
      let inum ← lower.getInumByName parent name isDir size
      locked lower inum do
        if ← lower.put inum [] then
          if ← lower.put parent (encodeDir (files ++ [⟨name, inum⟩])) then
            let .ok info ← lower.getattr inum | finish lower [inum, parent] (.error .ioerr)
            finish lower [inum, parent] (.ok (inum, info))
          else finish lower [inum, parent] (.error .ioerr)
        else finish lower (undo inum) (.error .ioerr)

def create (parent : Inum) (name : Bytes) (size : UInt64) : OptionT m (Result (Inum × Attr)) :=
  makeNode lower parent name false size fun inum => [parent, inum]

def mkdir (parent : Inum) (name : Bytes) : OptionT m (Result (Inum × Attr)) :=
  makeNode lower parent name true 0 fun inum => [inum, parent]

/-- `lookup`.  When the content does not parse, it returns `OK` without a number. -/
def lookup (parent : Inum) (name : Bytes) : OptionT m (Result (Option (Inum × Bool × Attr))) :=
  connected lower parent do
    let .ok data ← lower.get parent | finish lower [parent] (.error .ioerr)
    let some files ← parsed data | finish lower [parent] (.ok none)
    match files.find? (·.name = name) with
    | none => finish lower [parent] (.error .noent)
    | some entry =>
        match ← getInfo lower entry.inum with
        | .error error => finish lower [parent] (.error error)
        | .ok info => finish lower [parent] (.ok (some (entry.inum, isdir entry.inum, info)))

def readdir (inum : Inum) : OptionT m (Result (List Dirent)) :=
  if isdir inum then
    connected lower inum do
      let .ok data ← lower.get inum | finish lower [inum] (.error .ioerr)
      let some files ← parsed data | finish lower [inum] (.error .direnterr)
      finish lower [inum] (.ok files)
  else pure (.error .notdir)

/-- `unlink`.  A content that cannot be read leaves the lock of the directory behind. -/
def unlink (parent : Inum) (name : Bytes) : OptionT m (Result Unit) :=
  connected lower parent do
    let .ok data ← lower.get parent | return .error .ioerr
    let some files ← parsed data | finish lower [parent] (.error .direnterr)
    match files.find? (cStr ·.name = name) with
    | none => finish lower [parent] (.error .noent)
    | some entry =>
        if isdir entry.inum then finish lower [parent] (.error .noent)
        else if ← lower.put parent (encodeDir (files.eraseP (cStr ·.name = name))) then
          if ← lower.release parent then
            connected lower entry.inum do
              let removed ← lower.remove entry.inum
              finish lower [entry.inum] (if removed then .ok () else .error .ioerr)
          else return .error .ioerr
        else finish lower [parent] (.error .ioerr)

end Operations

end Ctgfs.Fs
