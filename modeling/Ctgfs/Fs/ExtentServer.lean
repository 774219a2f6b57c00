import Mathlib.Logic.Function.Basic
import Ctgfs.Foundation.LittleEndian

/-!
# The extent server

`extent_server` keeps extents by their number and tells the `InfoCollector` about every
change of a size.  A handler runs under the mutex of the server, so it is one step, with one
reading of the clock.
-/

namespace Ctgfs.Fs

open Foundation

/-- `extent_protocol::extentid_t`, which is only compared. -/
abbrev ExtentId := Nat

/-- What a call returns besides `OK`: `NOENT`, or the failure of an RPC. -/
inductive Failure where
  | noent
  | rpc
  deriving DecidableEq, Repr

structure Attr where
  atime : UInt32
  mtime : UInt32
  ctime : UInt32
  size : UInt32
  deriving DecidableEq, Repr

structure Extent where
  atime : UInt32
  mtime : UInt32
  ctime : UInt32
  content : Bytes
  deriving DecidableEq, Repr

/-- The attributes of an extent; its size is converted to an `unsigned int`. -/
def Extent.attr (extent : Extent) : Attr :=
  ⟨extent.atime, extent.mtime, extent.ctime, UInt32.ofNat extent.content.length⟩

/-- The kinds of dirty data: the `type` of `AddDirtyData`. -/
inductive DirtyType where
  | delete
  | add
  | update
  deriving DecidableEq, Repr

/-- One call of `AddDirtyData`. -/
structure DirtyData where
  inum : ExtentId
  size : Nat
  type : DirtyType
  deriving DecidableEq, Repr

def resize (content : Bytes) (size : Nat) : Bytes :=
  content.take size ++ List.replicate (size - content.length) nullByte

theorem length_resize (content : Bytes) (size : Nat) : (resize content size).length = size := by
  rw [resize, List.length_append, List.length_take, List.length_replicate]
  omega

/-- `extent_server`, with what it has told the `InfoCollector`. -/
structure ExtentServer where
  extentMap : ExtentId → Option Extent
  dirtyData : List DirtyData := []

namespace ExtentServer

variable (server : ExtentServer)

def set (id : ExtentId) (extent : Option Extent) : ExtentServer :=
  { server with extentMap := Function.update server.extentMap id extent }

def addDirtyData (data : DirtyData) : ExtentServer :=
  { server with dirtyData := server.dirtyData ++ [data] }

def put (now : UInt32) (id : ExtentId) (buf : Bytes) : ExtentServer :=
  match server.extentMap id with
  | some extent =>
      (server.addDirtyData ⟨id, buf.length, .update⟩).set id
        (some { extent with ctime := now, mtime := now, content := buf })
  | none => (server.set id (some ⟨now, now, now, buf⟩)).addDirtyData ⟨id, buf.length, .add⟩

def get (now : UInt32) (id : ExtentId) : ExtentServer × Except Failure Bytes :=
  match server.extentMap id with
  | some extent => (server.set id (some { extent with atime := now }), .ok extent.content)
  | none => (server, .error .noent)

def getattr (id : ExtentId) : Except Failure Attr :=
  match server.extentMap id with
  | some extent => .ok extent.attr
  | none => .error .noent

/-- `extent_server::setattr`.  Only the size is taken over. -/
def setattr (now : UInt32) (id : ExtentId) (attr : Attr) : ExtentServer × Except Failure Unit :=
  match server.extentMap id with
  | some extent =>
      if extent.content.length = attr.size.toNat then (server, .ok ())
      else
        ((server.set id (some
          { extent with
            mtime := now
            ctime := now
            content := resize extent.content attr.size.toNat })).addDirtyData
          ⟨id, attr.size.toNat, .update⟩, .ok ())
  | none => (server, .error .noent)

def remove (id : ExtentId) : ExtentServer :=
  match server.extentMap id with
  | some _ => (server.set id none).addDirtyData ⟨id, 0, .delete⟩
  | none => server

section Effects

variable (server : ExtentServer) (now : UInt32) (id : ExtentId)

@[simp]
theorem extentMap_addDirtyData (data : DirtyData) :
    (server.addDirtyData data).extentMap = server.extentMap :=
  rfl

@[simp]
theorem extentMap_set (extent : Option Extent) :
    (server.set id extent).extentMap = Function.update server.extentMap id extent :=
  rfl

theorem extentMap_put (buf : Bytes) :
    (server.put now id buf).extentMap = Function.update server.extentMap id
      (some ⟨((server.extentMap id).map Extent.atime).getD now, now, now, buf⟩) := by
  rw [put]
  cases server.extentMap id with
  | none => simp
  | some extent => simp

theorem setattr_stored {server : ExtentServer} {id : ExtentId} {extent : Extent}
    (stored : server.extentMap id = some extent) (now : UInt32) (attr : Attr) :
    (server.setattr now id attr).2 = .ok () ∧
      (server.setattr now id attr).1.extentMap = Function.update server.extentMap id
        (some (if extent.content.length = attr.size.toNat then extent
          else ⟨extent.atime, now, now, resize extent.content attr.size.toNat⟩)) := by
  rw [setattr, stored]
  by_cases same : extent.content.length = attr.size.toNat
  · have unchanged := Function.update_eq_self id server.extentMap
    rw [stored] at unchanged
    simp only [if_pos same, unchanged, and_self]
  · simp only [if_neg same, extentMap_addDirtyData, extentMap_set, and_self]

theorem extentMap_remove :
    (server.remove id).extentMap = Function.update server.extentMap id none := by
  cases present : server.extentMap id with
  | none =>
      have same := Function.update_eq_self id server.extentMap
      rw [present] at same
      rw [remove, present, same]
  | some extent =>
      rw [remove, present]
      rfl

end Effects

end ExtentServer

end Ctgfs.Fs
