import Ctgfs.Fs.YfsClient

/-!
# The operations on one file

`setattr`, `getfileInfo`, `getdirInfo`, `read` and `write` of `yfs_client`.  An offset is an
`off_t`, which is compared with a size as an `unsigned int` and then used as it is.
-/

namespace Ctgfs.Fs

open Foundation

/-- The layers below with the `setattr` of the extents.  Of the attributes only the size is
set. -/
structure Layers (m : Type → Type) extends Lower m where
  setattr : Inum → UInt32 → m Bool

/-- What `setattr` fills in of a `struct stat`. -/
structure Stat where
  mode : UInt32
  nlink : UInt64
  atime : UInt32
  mtime : UInt32
  ctime : UInt32
  size : UInt32
  deriving DecidableEq, Repr

/-- `S_IFREG | 0666`. -/
def regularMode : UInt32 := 33206

def Attr.stat (info : Attr) : Stat :=
  ⟨regularMode, 1, info.atime, info.mtime, info.ctime, info.size⟩

structure DirInfo where
  atime : UInt32
  mtime : UInt32
  ctime : UInt32
  deriving DecidableEq, Repr

def Attr.dirInfo (info : Attr) : DirInfo :=
  ⟨info.atime, info.mtime, info.ctime⟩

def unsignedOffset (off : Int64) : Nat :=
  off.toUInt64.toUInt32.toNat

/-- What `read` makes of a content.  It is undefined when an iterator is moved out of the
content. -/
def readContent (buf : Bytes) (size : UInt64) (off : Int64) : Option Bytes :=
  if buf.length ≤ unsignedOffset off then some []
  else if 0 ≤ off.toInt ∧ off.toInt ≤ buf.length then
    let rest := buf.length - off.toInt.toNat
    let size := if rest < size.toNat then rest else size.toNat
    some ((buf.drop off.toInt.toNat).take size)
  else none

/-- What `write` makes of a content, or undefined in the same way.  The old size is an
`unsigned int`, and so is the size of what is behind the offset. -/
def writeContent (origin : Bytes) (size : UInt64) (off : Int64) (buf : Bytes) : Option Bytes :=
  let oldSize := origin.length % indexLimit
  if oldSize ≤ unsignedOffset off then
    some (origin ++ List.replicate (unsignedOffset off - oldSize) nullByte ++ buf)
  else if 0 ≤ off.toInt ∧ off.toInt ≤ origin.length then
    let start := off.toInt.toNat
    let needAppend :=
      if size.toNat < (origin.length - start) % indexLimit then origin.drop (start + size.toNat)
      else []
    some (origin.take start ++ buf ++ needAppend)
  else none

section Operations

variable {m : Type → Type} [Monad m] (lower : Lower m)

def getfileInfo (inum : Inum) : OptionT m (Result Attr) :=
  getInfo lower inum

def getdirInfo (inum : Inum) : OptionT m (Result DirInfo) := do
  return (← getInfo lower inum).map Attr.dirInfo

def setattr (layers : Layers m) (inum : Inum) (size : Int64) : OptionT m (Result Stat) :=
  connected layers.toLower inum do
    if ← layers.setattr inum size.toUInt64.toUInt32 then
      let .ok info ← layers.getattr inum | finish layers.toLower [inum] (.error .ioerr)
      finish layers.toLower [inum] (.ok info.stat)
    else finish layers.toLower [inum] (.error .ioerr)

def read (inum : Inum) (size : UInt64) (off : Int64) : OptionT m (Result Bytes) :=
  connected lower inum do
    let .ok buf ← lower.get inum | finish lower [inum] (.error .ioerr)
    let buf ← OptionT.mk (pure (readContent buf size off))
    finish lower [inum] (.ok buf)

def write (inum : Inum) (size : UInt64) (off : Int64) (buf : Bytes) : OptionT m (Result Unit) :=
  connected lower inum do
    let .ok origin ← lower.get inum | finish lower [inum] (.error .ioerr)
    let origin ← OptionT.mk (pure (writeContent origin size off buf))
    if ← lower.put inum origin then finish lower [inum] (.ok ())
    else finish lower [inum] (.error .ioerr)

end Operations

end Ctgfs.Fs
