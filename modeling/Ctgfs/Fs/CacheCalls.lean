import Ctgfs.Fs.ExtentCache

/-!
# The calls on the extent cache, one after the other

What a call does when nothing else runs, in terms of what is found under each number in the
cache and on the server.  Every call returns, and an entry that is not dirty is what the
server has.
-/

namespace Ctgfs.Fs

open Foundation

section Cache

variable (cache : ExtentCache) (id : ExtentId)

theorem find_put (now : UInt32) (buf : Bytes) :
    (cache.put now id buf).find = Function.update cache.find id
      (some (((cache.find id).getD ⟨now, now, now, buf, false, false⟩).write now buf)) := by
  cases present : cache.find id with
  | none =>
      rw [ExtentCache.put, PointerMap.lookup_of_find_none present]
      simp only [PointerMap.find_modify (PointerMap.map_insert present _),
        PointerMap.find_insert present, Function.update_self, Function.update_idem]
      rfl
  | some value =>
      obtain ⟨address, mapped, hit⟩ := PointerMap.lookup_of_find_some present
      rw [ExtentCache.put, hit]
      simp only [PointerMap.find_modify mapped, present]
      rfl

theorem find_remove :
    (cache.remove id).find = Function.update cache.find id
      (some ((cache.find id).getD ⟨0, 0, 0, [], false, false⟩).bury) := by
  cases present : cache.find id with
  | none =>
      rw [ExtentCache.remove, PointerMap.lookup_of_find_none present]
      simp only [PointerMap.find_modify (PointerMap.map_insert present _),
        PointerMap.find_insert present, Function.update_self, Function.update_idem]
      rfl
  | some value =>
      obtain ⟨address, mapped, hit⟩ := PointerMap.lookup_of_find_some present
      rw [ExtentCache.remove, hit]
      simp only [PointerMap.find_modify mapped, present]
      rfl

end Cache

def Extent.accessed (extent : Extent) (now : UInt32) : Extent :=
  { extent with atime := now }

def Extent.cached (extent : Extent) : CachedExtent :=
  { atime := extent.atime, mtime := extent.mtime, ctime := extent.ctime, content := extent.content }

/-- What the server has after an entry is written back with `put` and `setattr`.  The size that
`setattr` is given is an `unsigned int`. -/
def CachedExtent.writtenBack (value : CachedExtent) (old : Option Extent)
    (putTime setTime : UInt32) : Extent :=
  let atime := (old.map Extent.atime).getD putTime
  if value.content.length < UInt32.size then ⟨atime, putTime, putTime, value.content⟩
  else ⟨atime, setTime, setTime, resize value.content (value.content.length % UInt32.size)⟩

def Op.fetches : Op → Bool
  | .get _ | .getattr _ | .setattr _ _ => true
  | .put _ _ | .remove _ | .flush _ => false

/-- The outcome of a call that runs on its own, with the clock at each of its steps: from the
entry and the extent of its number to those after it. -/
inductive Outcome (clock : Nat → UInt32) :
    Option CachedExtent → Option Extent → Op → Reply → Option CachedExtent → Option Extent →
      Prop where
  | put {entry extent} (id : ExtentId) (buf : Bytes) :
      Outcome clock entry extent (.put id buf) .ok
        (some ((entry.getD ⟨clock 0, clock 0, clock 0, buf, false, false⟩).write (clock 0) buf))
        extent
  | getHit {value extent id} : value.deleted = false →
      Outcome clock (some value) extent (.get id) (.buf value.content)
        (some (value.touch (clock 0))) extent
  | getMiss {extent id} :
      Outcome clock none (some extent) (.get id) (.buf extent.content)
        (some (extent.accessed (clock 1)).cached) (some (extent.accessed (clock 1)))
  | getattrHit {value extent id} : value.deleted = false →
      Outcome clock (some value) extent (.getattr id) (.attr value.attr) (some value) extent
  | getattrMiss {extent id} :
      Outcome clock none (some extent) (.getattr id) (.attr extent.attr)
        (some extent.cached) (some (extent.accessed (clock 2)))
  | setattrHit {value extent id attr} : value.deleted = false →
      Outcome clock (some value) extent (.setattr id attr) .ok (some (value.change attr)) extent
  | setattrMiss {extent id attr} :
      Outcome clock none (some extent) (.setattr id attr) .ok (some (extent.cached.change attr))
        (some (extent.accessed (clock 1)))
  | absent {op} : op.fetches = true → Outcome clock none none op (.failed .noent) none none
  | deleted {op value extent} : op.fetches = true → value.deleted = true →
      Outcome clock (some value) extent op (.failed .noent) (some value) extent
  | remove {entry extent id} :
      Outcome clock entry extent (.remove id) .ok
        (some (entry.getD ⟨0, 0, 0, [], false, false⟩).bury) extent
  | flushAbsent {extent id} : Outcome clock none extent (.flush id) .ok none extent
  | flushClean {value extent id} : value.dirty = false →
      Outcome clock (some value) extent (.flush id) .ok none extent
  | flushDeleted {value extent id} : value.dirty = true → value.deleted = true →
      Outcome clock (some value) extent (.flush id) .ok none none
  | flushDirty {value extent id} : value.dirty = true → value.deleted = false →
      Outcome clock (some value) extent (.flush id) .ok none
        (some (value.writtenBack extent (clock 1) (clock 2)))

structure Performed (clock : Nat → UInt32) (before : Extents) (op : Op) (reply : Reply)
    (after : Extents) (entry : Option CachedExtent) (extent : Option Extent) : Prop where
  returns : before.perform clock op = (.done reply, after)
  find : after.cache.find = Function.update before.cache.find op.id entry
  extentMap : after.server.extentMap = Function.update before.server.extentMap op.id extent
  outcome : Outcome clock (before.cache.find op.id) (before.server.extentMap op.id) op reply
    entry extent

def Returns (clock : Nat → UInt32) (extents : Extents) (op : Op) : Prop :=
  ∃ reply after entry extent, Performed clock extents op reply after entry extent

section Perform

variable (clock : Nat → UInt32) (extents : Extents) (id : ExtentId) {op : Op} {reply : Reply}

theorem performed_of_find {cache : ExtentCache} {entry : Option CachedExtent}
    (returns : extents.perform clock op = (.done reply, { extents with cache }))
    (find : cache.find = Function.update extents.cache.find op.id entry)
    (outcome : Outcome clock (extents.cache.find op.id) (extents.server.extentMap op.id) op reply
      entry (extents.server.extentMap op.id)) : Returns clock extents op :=
  ⟨_, _, _, _, returns, find, (Function.update_eq_self _ _).symm, outcome⟩

theorem performed_of_eq (returns : extents.perform clock op = (.done reply, extents))
    (outcome : Outcome clock (extents.cache.find op.id) (extents.server.extentMap op.id) op reply
      (extents.cache.find op.id) (extents.server.extentMap op.id)) : Returns clock extents op :=
  performed_of_find clock extents returns (Function.update_eq_self _ _).symm outcome

theorem performed_absent (fetches : op.fetches = true) (absent : extents.cache.find op.id = none)
    (stored : extents.server.extentMap op.id = none) : Returns clock extents op := by
  have missed := PointerMap.lookup_of_find_none absent
  refine performed_of_eq clock extents ?_ (by rw [absent, stored]; exact .absent fetches)
  cases op <;> simp_all [Op.id, Op.fetches, Extents.perform, Extents.advance, Task.step,
    Task.start, Delivery.deliver, ExtentServer.get, ExtentServer.getattr, Task.afterFetch]

theorem performed_deleted {value : CachedExtent} (fetches : op.fetches = true)
    (present : extents.cache.find op.id = some value) (gone : value.deleted = true) :
    Returns clock extents op := by
  obtain ⟨address, -, hit⟩ := PointerMap.lookup_of_find_some present
  refine performed_of_eq clock extents ?_ (by rw [present]; exact .deleted fetches gone)
  cases op <;> simp_all [Op.id, Op.fetches, Extents.perform, Extents.advance, Task.step, Task.start]

theorem performed_of_hit {value : CachedExtent} {change : CachedExtent → CachedExtent}
    (present : extents.cache.find op.id = some value)
    (returns : ∀ address, extents.cache.lookup op.id = some (address, value) →
      extents.perform clock op =
        (.done reply, { extents with cache := extents.cache.modify address change }))
    (outcome : Outcome clock (some value) (extents.server.extentMap op.id) op reply
      (some (change value)) (extents.server.extentMap op.id)) : Returns clock extents op := by
  obtain ⟨address, mapped, hit⟩ := PointerMap.lookup_of_find_some present
  refine performed_of_find clock extents (returns address hit) ?_ (by rw [present]; exact outcome)
  rw [PointerMap.find_modify mapped, present]
  rfl

theorem returns_put (buf : Bytes) : Returns clock extents (.put id buf) :=
  performed_of_find clock extents rfl (find_put _ _ _ _) (.put id buf)

theorem returns_remove : Returns clock extents (.remove id) :=
  performed_of_find clock extents rfl (find_remove _ _) .remove

theorem returns_get : Returns clock extents (.get id) := by
  cases present : extents.cache.find id with
  | none =>
      cases stored : extents.server.extentMap id with
      | none => exact performed_absent clock extents rfl present stored
      | some extent =>
          have missed := PointerMap.lookup_of_find_none present
          refine ⟨.buf extent.content, ⟨extents.cache.insert id (extent.accessed (clock 1)).cached,
            extents.server.set id (some (extent.accessed (clock 1)))⟩, _, _, ?_,
            PointerMap.find_insert present _, rfl, ?_⟩
          · simp [Extents.perform, Extents.advance, Task.step, Task.start, missed, stored,
              Delivery.deliver, ExtentServer.get, ExtentServer.getattr, Task.afterFetch,
              Extent.accessed, Extent.cached, Extent.attr]
          · simp only [Op.id, present, stored]
            exact .getMiss
  | some value =>
      cases gone : value.deleted with
      | true => exact performed_deleted clock extents rfl present gone
      | false =>
          refine performed_of_hit clock extents present ?_ (.getHit gone)
          intro address hit
          simp_all [Op.id, Extents.perform, Extents.advance, Task.step, Task.start]

theorem returns_getattr : Returns clock extents (.getattr id) := by
  cases present : extents.cache.find id with
  | none =>
      cases stored : extents.server.extentMap id with
      | none => exact performed_absent clock extents rfl present stored
      | some extent =>
          have missed := PointerMap.lookup_of_find_none present
          refine ⟨.attr extent.attr, ⟨extents.cache.insert id extent.cached,
            extents.server.set id (some (extent.accessed (clock 2)))⟩, _, _, ?_,
            PointerMap.find_insert present _, rfl, ?_⟩
          · simp [Extents.perform, Extents.advance, Task.step, Task.start, missed, stored,
              Delivery.deliver, ExtentServer.get, ExtentServer.getattr, Task.afterFetch,
              Extent.accessed, Extent.cached, Extent.attr]
          · simp only [Op.id, present, stored]
            exact .getattrMiss
  | some value =>
      cases gone : value.deleted with
      | true => exact performed_deleted clock extents rfl present gone
      | false =>
          obtain ⟨address, -, hit⟩ := PointerMap.lookup_of_find_some present
          refine performed_of_eq clock extents ?_ (by rw [Op.id, present]; exact .getattrHit gone)
          simp [Extents.perform, Extents.advance, Task.step, Task.start, hit, gone]

theorem returns_setattr (attr : Attr) : Returns clock extents (.setattr id attr) := by
  cases present : extents.cache.find id with
  | none =>
      cases stored : extents.server.extentMap id with
      | none => exact performed_absent clock extents rfl present stored
      | some extent =>
          have missed := PointerMap.lookup_of_find_none present
          refine ⟨.ok,
            ⟨(extents.cache.insert id ⟨attr.atime, attr.ctime, attr.mtime, extent.content, false,
              false⟩).modify extents.cache.heap.length (CachedExtent.change attr),
              extents.server.set id (some (extent.accessed (clock 1)))⟩,
            some (extent.cached.change attr), _, ?_, ?_, rfl, ?_⟩
          · simp [Extents.perform, Extents.advance, Task.step, Task.start, missed, stored,
              Delivery.deliver, ExtentServer.get, Task.afterFetch, Extent.accessed]
          · rw [PointerMap.find_modify (PointerMap.map_insert present _),
              PointerMap.find_insert present, Function.update_self, Function.update_idem]
            rfl
          · simp only [Op.id, present, stored]
            exact .setattrMiss
  | some value =>
      cases gone : value.deleted with
      | true => exact performed_deleted clock extents rfl present gone
      | false =>
          refine performed_of_hit clock extents present ?_ (.setattrHit gone)
          intro address hit
          simp_all [Op.id, Extents.perform, Extents.advance, Task.step, Task.start]

theorem setattr_put (server : ExtentServer) (putTime setTime : UInt32) (value : CachedExtent) :
    ((server.put putTime id value.content).setattr setTime id value.attr).2 = .ok () ∧
      ((server.put putTime id value.content).setattr setTime id value.attr).1.extentMap =
        Function.update server.extentMap id
          (some (value.writtenBack (server.extentMap id) putTime setTime)) := by
  have stored := congrFun (server.extentMap_put putTime id value.content) id
  rw [Function.update_self] at stored
  have size : value.attr.size.toNat = value.content.length % UInt32.size :=
    UInt32.toNat_ofNat'
  obtain ⟨status, extentMap⟩ := ExtentServer.setattr_stored stored setTime value.attr
  refine ⟨status, ?_⟩
  rw [extentMap, ExtentServer.extentMap_put, Function.update_idem, CachedExtent.writtenBack]
  by_cases short : value.content.length < UInt32.size
  · simp only [size, Nat.mod_eq_of_lt short, if_pos short, if_true]
  · have long : value.content.length ≠ value.content.length % UInt32.size := by
      have bound := Nat.mod_lt value.content.length (by decide : 0 < UInt32.size)
      omega
    simp only [size, if_neg long, if_neg short]

theorem returns_flush : Returns clock extents (.flush id) := by
  cases present : extents.cache.find id with
  | none =>
      have missed := PointerMap.lookup_of_find_none present
      have outcome : Outcome clock (extents.cache.find id) (extents.server.extentMap id) (.flush id)
          .ok none (extents.server.extentMap id) := by
        rw [present]
        exact .flushAbsent
      refine performed_of_find clock extents ?_ (PointerMap.find_erase _ _) outcome
      simp [Extents.perform, Extents.advance, Task.step, Task.start, missed, Op.id]
  | some value =>
      obtain ⟨address, mapped, hit⟩ := PointerMap.lookup_of_find_some present
      cases dirty : value.dirty with
      | false =>
          have outcome : Outcome clock (extents.cache.find id) (extents.server.extentMap id)
              (.flush id) .ok none (extents.server.extentMap id) := by
            rw [present]
            exact .flushClean dirty
          refine performed_of_find clock extents ?_ (PointerMap.find_erase _ _) outcome
          simp [Extents.perform, Extents.advance, Task.step, Task.start, hit, dirty, Op.id]
      | true =>
          cases gone : value.deleted with
          | true =>
              refine ⟨.ok, ⟨extents.cache.erase id, extents.server.remove id⟩, _, _, ?_,
                PointerMap.find_erase _ _, ExtentServer.extentMap_remove _ _, ?_⟩
              · simp [Extents.perform, Extents.advance, Task.step, Task.start, hit, dirty, gone,
                  Delivery.deliver, Task.afterStore]
              · rw [Op.id, present]
                exact .flushDeleted dirty gone
          | false =>
              obtain ⟨status, extentMap⟩ :=
                setattr_put id extents.server (clock 1) (clock 2) value
              have object : extents.cache.read address = some value := by
                rw [← PointerMap.find_of_map mapped]
                exact present
              refine ⟨.ok, ⟨extents.cache.erase id, _⟩, _, _, ?_, PointerMap.find_erase _ _,
                extentMap, ?_⟩
              · simp [Extents.perform, Extents.advance, Task.step, Task.start, hit, dirty, gone,
                  object, Delivery.deliver, Task.afterStore, status]
              · rw [Op.id, present]
                exact .flushDirty dirty gone

end Perform

theorem returns (clock : Nat → UInt32) (extents : Extents) (op : Op) :
    Returns clock extents op := by
  cases op with
  | put id buf => exact returns_put clock extents id buf
  | get id => exact returns_get clock extents id
  | getattr id => exact returns_getattr clock extents id
  | setattr id attr => exact returns_setattr clock extents id attr
  | remove id => exact returns_remove clock extents id
  | flush id => exact returns_flush clock extents id

end Ctgfs.Fs
