import Ctgfs.Foundation.PointerMap
import Ctgfs.Fs.ExtentServer

/-!
# The extent cache

`extent_client_cache` keeps extents in memory and writes them back in `flush`.  Its mutex is
dropped around every RPC, so a call is a task that goes through several steps: a section under
the mutex, or one RPC.  A `flush` keeps the pointer that it has found while it waits.  A call
on its own is the task run to its end.  The `retry` before an RPC concerns the connection and
the `Client` only, and not the extents: `Mount` adds it to these steps.
-/

namespace Ctgfs.Fs

open Foundation

/-- `extent_client_cache::extent`. -/
structure CachedExtent where
  atime : UInt32
  mtime : UInt32
  ctime : UInt32
  content : Bytes
  deleted : Bool := false
  dirty : Bool := false
  deriving DecidableEq, Repr

def CachedExtent.attr (value : CachedExtent) : Attr :=
  ⟨value.atime, value.mtime, value.ctime, UInt32.ofNat value.content.length⟩

abbrev ExtentCache := PointerMap ExtentId CachedExtent

structure Extents where
  cache : ExtentCache
  server : ExtentServer

/-- The calls on an `extent_client_cache`. -/
inductive Op where
  | put (id : ExtentId) (buf : Bytes)
  | get (id : ExtentId)
  | getattr (id : ExtentId)
  | setattr (id : ExtentId) (attr : Attr)
  | remove (id : ExtentId)
  | flush (id : ExtentId)
  deriving DecidableEq, Repr

def Op.id : Op → ExtentId
  | .put id _ | .get id | .getattr id | .setattr id _ | .remove id | .flush id => id

inductive Reply where
  | ok
  | buf (content : Bytes)
  | attr (attr : Attr)
  | failed (failure : Failure)
  deriving DecidableEq, Repr

/-- How far a call has come: the RPC or the section that is next.  An RPC that has failed once
is made once more. -/
inductive Task where
  | call (op : Op)
  | getCall (id : ExtentId) (retried : Bool)
  | getCallAttr (id : ExtentId) (buf : Bytes) (retried : Bool)
  | getInsert (id : ExtentId) (buf : Bytes) (attr : Attr)
  | getattrCall (id : ExtentId) (retried : Bool)
  | getattrCallGet (id : ExtentId) (attr : Attr) (retried : Bool)
  | getattrInsert (id : ExtentId) (attr : Attr) (buf : Bytes)
  | setattrCallGet (id : ExtentId) (attr : Attr) (retried : Bool)
  | setattrInsert (id : ExtentId) (attr : Attr) (buf : Bytes)
  | flushRemove (id : ExtentId) (retried : Bool)
  | flushPut (id : ExtentId) (value : Address) (retried : Bool)
  | flushSetattr (id : ExtentId) (attr : Attr) (retried : Bool)
  | flushErase (id : ExtentId) (reply : Reply)
  | done (reply : Reply)
  deriving DecidableEq, Repr

/-- What becomes of an RPC: it is answered, it does not reach the server, or only its answer
is lost. -/
inductive Delivery where
  | answered
  | lost
  | unanswered
  deriving DecidableEq, Repr

def Delivery.deliver {α : Type} (delivery : Delivery) (server : ExtentServer)
    (handled : ExtentServer × Except Failure α) : ExtentServer × Except Failure α :=
  match delivery with
  | .answered => handled
  | .lost => (server, .error .rpc)
  | .unanswered => (handled.1, .error .rpc)

namespace CachedExtent

/-- What `put` does to an entry. -/
def write (now : UInt32) (buf : Bytes) (value : CachedExtent) : CachedExtent where
  atime := if value.deleted then now else value.atime
  mtime := now
  ctime := now
  content := buf
  deleted := false
  dirty := true

/-- What `get` does to an entry. -/
def touch (now : UInt32) (value : CachedExtent) : CachedExtent :=
  { value with atime := now, dirty := true }

/-- What `setattr` does to an entry. -/
def change (attr : Attr) (value : CachedExtent) : CachedExtent :=
  { value with
    content := resize value.content attr.size.toNat
    atime := attr.atime
    ctime := attr.ctime
    mtime := attr.mtime
    dirty := true }

/-- What `remove` does to an entry. -/
def bury (value : CachedExtent) : CachedExtent :=
  { value with deleted := true, dirty := true }

end CachedExtent

namespace ExtentCache

def put (cache : ExtentCache) (now : UInt32) (id : ExtentId) (buf : Bytes) : ExtentCache :=
  match cache.lookup id with
  | some (address, _) => cache.modify address (CachedExtent.write now buf)
  | none =>
      (cache.insert id { atime := now, mtime := now, ctime := now, content := buf }).modify
        cache.heap.length (CachedExtent.write now buf)

def remove (cache : ExtentCache) (id : ExtentId) : ExtentCache :=
  match cache.lookup id with
  | some (address, _) => cache.modify address CachedExtent.bury
  | none =>
      (cache.insert id { atime := 0, mtime := 0, ctime := 0, content := [] }).modify
        cache.heap.length CachedExtent.bury

end ExtentCache

namespace Task

def start (now : UInt32) (extents : Extents) : Op → Task × Extents
  | .put id buf => (.done .ok, { extents with cache := extents.cache.put now id buf })
  | .get id =>
      match extents.cache.lookup id with
      | none => (.getCall id false, extents)
      | some (address, value) =>
          if value.deleted then (.done (.failed .noent), extents)
          else (.done (.buf value.content),
            { extents with cache := extents.cache.modify address (CachedExtent.touch now) })
  | .getattr id =>
      match extents.cache.lookup id with
      | none => (.getattrCall id false, extents)
      | some (_, value) =>
          if value.deleted then (.done (.failed .noent), extents)
          else (.done (.attr value.attr), extents)
  | .setattr id attr =>
      match extents.cache.lookup id with
      | none => (.setattrCallGet id attr false, extents)
      | some (address, value) =>
          if value.deleted then (.done (.failed .noent), extents)
          else (.done .ok,
            { extents with cache := extents.cache.modify address (CachedExtent.change attr) })
  | .remove id => (.done .ok, { extents with cache := extents.cache.remove id })
  | .flush id =>
      match extents.cache.lookup id with
      | none => (.done .ok, { extents with cache := extents.cache.erase id })
      | some (address, value) =>
          if value.dirty then
            if value.deleted then (.flushRemove id false, extents)
            else (.flushPut id address false, extents)
          else (.done .ok, { extents with cache := extents.cache.erase id })

/-- Where `callGet` and `callGetAttr` go on: any failure leads to the second attempt. -/
def afterFetch {α : Type} (result : Except Failure α) (next : α → Task) (retried : Bool)
    (again : Task) : Task :=
  match result with
  | .ok value => next value
  | .error failure => if retried then .done (.failed failure) else again

/-- Where `callRemove`, `callPut` and `callSetAttr` go on: `NOENT` is as good as `OK`. -/
def afterStore (result : Except Failure Unit) (next : Reply → Task) (retried : Bool)
    (again : Task) : Task :=
  match result with
  | .ok () => next .ok
  | .error .noent => next (.failed .noent)
  | .error .rpc => if retried then .done (.failed .rpc) else again

def step (now : UInt32) (delivery : Delivery) (extents : Extents) : Task → Task × Extents
  | .call op => start now extents op
  | .getCall id retried =>
      let (server, result) := delivery.deliver extents.server (extents.server.get now id)
      (afterFetch result (.getCallAttr id · false) retried (.getCall id true),
        { extents with server })
  | .getCallAttr id buf retried =>
      let (server, result) :=
        delivery.deliver extents.server (extents.server, extents.server.getattr id)
      (afterFetch result (.getInsert id buf) retried (.getCallAttr id buf true),
        { extents with server })
  | .getInsert id buf attr =>
      (.done (.buf buf), { extents with
        cache := extents.cache.insert id
          { atime := attr.atime, mtime := attr.mtime, ctime := attr.ctime, content := buf } })
  | .getattrCall id retried =>
      let (server, result) :=
        delivery.deliver extents.server (extents.server, extents.server.getattr id)
      (afterFetch result (.getattrCallGet id · false) retried (.getattrCall id true),
        { extents with server })
  | .getattrCallGet id attr retried =>
      let (server, result) := delivery.deliver extents.server (extents.server.get now id)
      (afterFetch result (.getattrInsert id attr) retried (.getattrCallGet id attr true),
        { extents with server })
  | .getattrInsert id attr buf =>
      (.done (.attr attr), { extents with
        cache := extents.cache.insert id
          { atime := attr.atime, mtime := attr.mtime, ctime := attr.ctime, content := buf } })
  | .setattrCallGet id attr retried =>
      let (server, result) := delivery.deliver extents.server (extents.server.get now id)
      (afterFetch result (.setattrInsert id attr) retried (.setattrCallGet id attr true),
        { extents with server })
  | .setattrInsert id attr buf =>
      (.done .ok, { extents with
        cache := (extents.cache.insert id
          { atime := attr.atime, mtime := attr.ctime, ctime := attr.mtime, content := buf }).modify
            extents.cache.heap.length (CachedExtent.change attr) })
  | .flushRemove id retried =>
      let (server, result) :=
        delivery.deliver extents.server (extents.server.remove id, .ok ())
      (afterStore result (.flushErase id) retried (.flushRemove id true), { extents with server })
  | .flushPut id address retried =>
      match extents.cache.read address with
      | none => (.flushPut id address retried, extents)
      | some value =>
          let (server, result) :=
            delivery.deliver extents.server (extents.server.put now id value.content, .ok ())
          (afterStore result (fun _ => .flushSetattr id value.attr false) retried
            (.flushPut id address true), { extents with server })
  | .flushSetattr id attr retried =>
      let (server, result) :=
        delivery.deliver extents.server (extents.server.setattr now id attr)
      (afterStore result (.flushErase id) retried (.flushSetattr id attr true),
        { extents with server })
  | .flushErase id reply => (.done reply, { extents with cache := extents.cache.erase id })
  | .done reply => (.done reply, extents)

end Task

def Extents.advance (clock : Nat → UInt32) (task : Task) (extents : Extents) :
    Nat → Task × Extents
  | 0 => (task, extents)
  | steps + 1 =>
      let (reached, now) := extents.advance clock task steps
      Task.step (clock steps) .answered now reached

def Extents.perform (extents : Extents) (clock : Nat → UInt32) (op : Op) : Task × Extents :=
  extents.advance clock (.call op) 4

end Ctgfs.Fs
