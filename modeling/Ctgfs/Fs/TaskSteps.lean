import Ctgfs.Fs.CacheRefinement

/-!
# The steps of a call among others

A call goes on between steps of calls on other numbers.  What it has learned about its own
number stays true meanwhile, because nobody else touches it, and a `flush` whose RPCs are
answered has written back what was there when it started.
-/

namespace Ctgfs.Fs

open Foundation

namespace Task

def On (id : ExtentId) : Task → Prop
  | .call op => op.id = id
  | .getCall other _ | .getCallAttr other _ _ | .getInsert other _ _ | .getattrCall other _
  | .getattrCallGet other _ _ | .getattrInsert other _ _ | .setattrCallGet other _ _
  | .setattrInsert other _ _ | .flushRemove other _ | .flushPut other _ _
  | .flushSetattr other _ _ | .flushErase other _ => other = id
  | .done _ => True

def Flushes : Task → Prop
  | .call (.flush _) | .flushRemove _ _ | .flushPut _ _ _ | .flushSetattr _ _ _
  | .flushErase _ _ | .done _ => True
  | _ => False

def retried : Task → Bool
  | .getCall _ retried | .getCallAttr _ _ retried | .getattrCall _ retried
  | .getattrCallGet _ _ retried | .setattrCallGet _ _ retried | .flushRemove _ retried
  | .flushPut _ _ retried | .flushSetattr _ _ retried => retried
  | .call _ | .getInsert _ _ _ | .getattrInsert _ _ _ | .setattrInsert _ _ _
  | .flushErase _ _ | .done _ => false

def Fits (id : ExtentId) (extents : Extents) : Task → Prop
  | .call _ | .done _ => True
  | .getCall _ _ | .getattrCall _ _ | .setattrCallGet _ _ _ => extents.cache.find id = none
  | .getCallAttr _ buf _ | .setattrInsert _ _ buf =>
      extents.cache.find id = none ∧ ∃ stored ∈ extents.server.extentMap id, stored.content = buf
  | .getattrCallGet _ attr _ =>
      extents.cache.find id = none ∧ ∃ stored ∈ extents.server.extentMap id,
        stored.mtime = attr.mtime ∧ stored.ctime = attr.ctime
  | .getInsert _ buf attr | .getattrInsert _ attr buf =>
      extents.cache.find id = none ∧ ∃ stored ∈ extents.server.extentMap id,
        stored.content = buf ∧ stored.mtime = attr.mtime ∧ stored.ctime = attr.ctime
  | .flushRemove _ _ =>
      ∃ value ∈ extents.cache.find id, value.dirty = true ∧ value.deleted = true
  | .flushPut _ address _ =>
      extents.cache.map id = some address ∧
        ∃ value ∈ extents.cache.find id, value.dirty = true ∧ value.deleted = false
  | .flushSetattr _ attr _ =>
      ∃ value ∈ extents.cache.find id, value.dirty = true ∧ value.deleted = false ∧
        attr = value.attr ∧ ∃ stored ∈ extents.server.extentMap id, stored.content = value.content
  | .flushErase _ _ =>
      extents.files id = (extents.server.extentMap id).map Extent.content

def change (file : Option Bytes) : Task → Option Bytes
  | .call op => op.change file
  | .setattrInsert _ attr _ => file.map (resize · attr.size.toNat)
  | _ => file

end Task

structure Agree (id : ExtentId) (first second : Extents) : Prop where
  map : second.cache.map id = first.cache.map id
  find : second.cache.find id = first.cache.find id
  extentMap : second.server.extentMap id = first.server.extentMap id

theorem Agree.refl (id : ExtentId) (extents : Extents) : Agree id extents extents :=
  ⟨rfl, rfl, rfl⟩

theorem Agree.files {id : ExtentId} {first second : Extents} (agree : Agree id first second) :
    second.files id = first.files id := by
  rw [Extents.files, Extents.files, agree.find, agree.extentMap]

theorem Task.Fits.agree {id : ExtentId} {first second : Extents} {task : Task}
    (fits : task.Fits id first) (agree : Agree id first second) : task.Fits id second := by
  cases task <;>
    simp only [Task.Fits, agree.map, agree.find, agree.extentMap, agree.files] at fits ⊢
  all_goals exact fits

variable {server : ExtentServer} {address : Address} {α : Type}

section Frame

variable {id other : ExtentId} {extents : Extents}

theorem agree_modify (apart : other ≠ id) (mapped : extents.cache.map id = some address)
    (change : CachedExtent → CachedExtent) :
    Agree other extents { extents with cache := extents.cache.modify address change } := by
  refine ⟨rfl, PointerMap.find_modify_of_ne ?_ change, rfl⟩
  intro same
  exact apart (extents.cache.separate other id address same mapped)

theorem agree_insert (apart : other ≠ id) (value : CachedExtent) :
    Agree other extents { extents with cache := extents.cache.insert id value } :=
  ⟨(extents.cache.insert_of_ne apart value).1, (extents.cache.insert_of_ne apart value).2, rfl⟩

theorem agree_insert_modify (apart : other ≠ id) (value : CachedExtent)
    (change : CachedExtent → CachedExtent) :
    Agree other extents { extents with
      cache := (extents.cache.insert id value).modify extents.cache.heap.length change } := by
  obtain ⟨map, find⟩ := extents.cache.insert_of_ne apart value
  refine ⟨map, ?_, rfl⟩
  rw [PointerMap.find_modify_of_ne]
  · exact find
  · rw [map]
    intro mapped
    exact lt_irrefl _ (extents.cache.allocated other _ mapped)

theorem agree_erase (apart : other ≠ id) :
    Agree other extents { extents with cache := extents.cache.erase id } := by
  refine ⟨Function.update_of_ne apart _ _, ?_, rfl⟩
  simp only [PointerMap.find_erase, Function.update_of_ne apart]

theorem agree_server (same : server.extentMap other = extents.server.extentMap other) :
    Agree other extents { extents with server } :=
  ⟨rfl, rfl, same⟩

theorem deliver_frame {handled : ExtentServer × Except Failure α}
    (same : handled.1.extentMap other = server.extentMap other) (delivery : Delivery) :
    (delivery.deliver server handled).1.extentMap other = server.extentMap other := by
  cases delivery with
  | answered => exact same
  | lost => rfl
  | unanswered => exact same

theorem get_frame (apart : other ≠ id) (server : ExtentServer) (now : UInt32) :
    (server.get now id).1.extentMap other = server.extentMap other := by
  rw [ExtentServer.get]
  cases server.extentMap id with
  | none => rfl
  | some extent => exact Function.update_of_ne apart _ _

theorem setattr_frame (apart : other ≠ id) (server : ExtentServer) (now : UInt32) (attr : Attr) :
    (server.setattr now id attr).1.extentMap other = server.extentMap other := by
  cases stored : server.extentMap id with
  | none => rw [ExtentServer.setattr, stored]
  | some extent =>
      rw [(ExtentServer.setattr_stored stored now attr).2, Function.update_of_ne apart]

theorem start_frame (now : UInt32) (op : Op) (apart : other ≠ op.id) :
    Agree other extents (Task.start now extents op).2 := by
  cases op with
  | put id buf =>
      simp only [Task.start, ExtentCache.put]
      split
      next address value hit => exact agree_modify apart (PointerMap.map_of_lookup hit).1 _
      next missed => exact agree_insert_modify apart _ _
  | get id =>
      simp only [Task.start]
      split
      next missed => exact Agree.refl _ _
      next address value hit =>
        split
        · exact Agree.refl _ _
        · exact agree_modify apart (PointerMap.map_of_lookup hit).1 _
  | getattr id =>
      simp only [Task.start]
      split
      next missed => exact Agree.refl _ _
      next address value hit =>
        split
        · exact Agree.refl _ _
        · exact Agree.refl _ _
  | setattr id attr =>
      simp only [Task.start]
      split
      next missed => exact Agree.refl _ _
      next address value hit =>
        split
        · exact Agree.refl _ _
        · exact agree_modify apart (PointerMap.map_of_lookup hit).1 _
  | remove id =>
      simp only [Task.start, ExtentCache.remove]
      split
      next address value hit => exact agree_modify apart (PointerMap.map_of_lookup hit).1 _
      next missed => exact agree_insert_modify apart _ _
  | flush id =>
      simp only [Task.start]
      split
      next missed => exact agree_erase apart
      next address value hit =>
        split
        · split
          · exact Agree.refl _ _
          · exact Agree.refl _ _
        · exact agree_erase apart

theorem step_frame (now : UInt32) (delivery : Delivery) {task : Task} (on : task.On id)
    (apart : other ≠ id) : Agree other extents (Task.step now delivery extents task).2 := by
  cases task with
  | call op =>
      obtain rfl := on
      exact start_frame now op apart
  | getCall id retried =>
      obtain rfl := on
      exact agree_server (deliver_frame (get_frame apart _ _) delivery)
  | getCallAttr id buf retried => exact agree_server (deliver_frame rfl delivery)
  | getInsert id buf attr =>
      obtain rfl := on
      exact agree_insert apart _
  | getattrCall id retried => exact agree_server (deliver_frame rfl delivery)
  | getattrCallGet id attr retried =>
      obtain rfl := on
      exact agree_server (deliver_frame (get_frame apart _ _) delivery)
  | getattrInsert id attr buf =>
      obtain rfl := on
      exact agree_insert apart _
  | setattrCallGet id attr retried =>
      obtain rfl := on
      exact agree_server (deliver_frame (get_frame apart _ _) delivery)
  | setattrInsert id attr buf =>
      obtain rfl := on
      exact agree_insert_modify apart _ _
  | flushRemove id retried =>
      obtain rfl := on
      refine agree_server (deliver_frame ?_ delivery)
      rw [ExtentServer.extentMap_remove, Function.update_of_ne apart]
  | flushPut id address retried =>
      obtain rfl := on
      simp only [Task.step]
      split
      · exact Agree.refl _ _
      · refine agree_server (deliver_frame ?_ delivery)
        rw [ExtentServer.extentMap_put, Function.update_of_ne apart]
  | flushSetattr id attr retried =>
      obtain rfl := on
      exact agree_server (deliver_frame (setattr_frame apart _ _ _) delivery)
  | flushErase id reply =>
      obtain rfl := on
      exact agree_erase apart
  | done reply => exact Agree.refl _ _

end Frame

section Progress

variable {id : ExtentId} {before after : Extents} {task next : Task}

structure Steady (id : ExtentId) (extents : Extents) (task : Task) : Prop where
  on : task.On id
  fits : task.Fits id extents
  mirrors : Mirrors (extents.cache.find id) (extents.server.extentMap id)

/-- What a step achieves for the number of its call.  A `flush` that is over has left no
entry. -/
structure Advanced (id : ExtentId) (before : Extents) (task : Task) (after : Extents)
    (next : Task) : Prop where
  steady : Steady id after next
  files : after.files id =
    if next = .done .ok then task.change (before.files id) else before.files id
  flushes : task.Flushes → next.Flushes ∧
    ∀ reply, next = .done reply → after.cache.find id = none

theorem advanced_of_read (steady : Steady id after next) (files : after.files id = before.files id)
    (reads : ¬ task.Flushes) (running : next ≠ .done .ok) : Advanced id before task after next := by
  refine ⟨steady, ?_, fun flushes => absurd flushes reads⟩
  rw [if_neg running, files]

variable {value : CachedExtent}

theorem advanced_of_write (find : after.cache.find id = some value) (dirty : value.dirty = true)
    (writes : ¬ task.Flushes)
    (files : visible (some value) (after.server.extentMap id) = task.change (before.files id)) :
    Advanced id before task after (.done .ok) := by
  refine ⟨⟨trivial, trivial, ?_⟩, ?_, fun flushes => absurd flushes writes⟩
  · rw [find]
    exact mirrors_dirty dirty
  · rw [if_pos rfl, ← files, Extents.files, find]

variable (now : UInt32)

theorem start_hit {op : Op} (here : op.id = id)
    (hit : before.cache.lookup id = some (address, value))
    (mirrors : Mirrors (some value) (before.server.extentMap id)) :
    Advanced id before (.call op) (Task.start now before op).2 (Task.start now before op).1 := by
  obtain ⟨mapped, present⟩ := PointerMap.map_of_lookup hit
  have same : Mirrors (before.cache.find id) (before.server.extentMap id) := by
    rw [present]
    exact mirrors
  have changed : ∀ change : CachedExtent → CachedExtent,
      (before.cache.modify address change).find id = some (change value) := by
    intro change
    rw [PointerMap.find_modify mapped, Function.update_self, present]
    rfl
  have seen : before.files id = visible (some value) (before.server.extentMap id) := by
    rw [Extents.files, present]
  cases op with
  | put other buf =>
      obtain rfl : other = id := here
      simp only [Task.start, ExtentCache.put, hit]
      exact advanced_of_write (changed _) rfl not_false rfl
  | get other =>
      obtain rfl : other = id := here
      simp only [Task.start, hit]
      split
      next gone => exact advanced_of_read ⟨trivial, trivial, same⟩ rfl not_false (by simp)
      next kept =>
        refine advanced_of_read ⟨trivial, trivial, ?_⟩ ?_ not_false (by simp)
        · simp only [changed]
          exact mirrors_dirty rfl
        · rw [seen]
          simp only [Extents.files, changed]
          rfl
  | getattr other =>
      obtain rfl : other = id := here
      simp only [Task.start, hit]
      split
      next gone => exact advanced_of_read ⟨trivial, trivial, same⟩ rfl not_false (by simp)
      next kept => exact advanced_of_read ⟨trivial, trivial, same⟩ rfl not_false (by simp)
  | setattr other attr =>
      obtain rfl : other = id := here
      simp only [Task.start, hit]
      split
      next gone => exact advanced_of_read ⟨trivial, trivial, same⟩ rfl not_false (by simp)
      next kept =>
        refine advanced_of_write (changed _) rfl not_false ?_
        simp [seen, Task.change, Op.change, visible, CachedExtent.change, kept]
  | remove other =>
      obtain rfl : other = id := here
      simp only [Task.start, ExtentCache.remove, hit]
      exact advanced_of_write (changed _) rfl not_false rfl
  | flush other =>
      obtain rfl : other = id := here
      simp only [Task.start, hit]
      split
      next dirty =>
        split
        next gone =>
          exact ⟨⟨rfl, ⟨value, present, dirty, gone⟩, same⟩, rfl, fun _ => ⟨trivial, by simp⟩⟩
        next kept =>
          have there : value.deleted = false := by simpa using kept
          exact ⟨⟨rfl, ⟨mapped, value, present, dirty, there⟩, same⟩, rfl,
            fun _ => ⟨trivial, by simp⟩⟩
      next clean =>
        have erased : (before.cache.erase other).find other = none := by
          rw [PointerMap.find_erase, Function.update_self]
        obtain ⟨kept, stored, found, content, -⟩ := mirrors value rfl (by simpa using clean)
        rw [Option.mem_def] at found
        refine ⟨⟨trivial, trivial, ?_⟩, ?_, fun _ => ⟨trivial, fun _ _ => erased⟩⟩
        · simp only [erased]
          rintro other ⟨⟩
        · rw [if_pos rfl, seen]
          simp [Extents.files, erased, visible, kept, found, content, Task.change, Op.change]

theorem start_miss {op : Op} (here : op.id = id) (absent : before.cache.find id = none) :
    Advanced id before (.call op) (Task.start now before op).2 (Task.start now before op).1 := by
  have missed := PointerMap.lookup_of_find_none absent
  have same : Mirrors (before.cache.find id) (before.server.extentMap id) := by
    rw [absent]
    rintro value ⟨⟩
  cases op with
  | put other buf =>
      obtain rfl : other = id := here
      have find := congrFun (find_put before.cache other now buf) other
      rw [Function.update_self] at find
      exact advanced_of_write find rfl not_false rfl
  | get other =>
      obtain rfl : other = id := here
      simp only [Task.start, missed]
      exact advanced_of_read ⟨rfl, absent, same⟩ rfl not_false (by simp)
  | getattr other =>
      obtain rfl : other = id := here
      simp only [Task.start, missed]
      exact advanced_of_read ⟨rfl, absent, same⟩ rfl not_false (by simp)
  | setattr other attr =>
      obtain rfl : other = id := here
      simp only [Task.start, missed]
      exact advanced_of_read ⟨rfl, absent, same⟩ rfl not_false (by simp)
  | remove other =>
      obtain rfl : other = id := here
      have find := congrFun (find_remove before.cache other) other
      rw [Function.update_self] at find
      exact advanced_of_write find rfl not_false rfl
  | flush other =>
      obtain rfl : other = id := here
      simp only [Task.start, missed]
      have erased : (before.cache.erase other).find other = none := by
        rw [PointerMap.find_erase, Function.update_self]
      refine ⟨⟨trivial, trivial, ?_⟩, ?_, fun _ => ⟨trivial, fun _ _ => erased⟩⟩
      · simp only [erased]
        rintro value ⟨⟩
      · simp [Extents.files, erased, absent, Task.change, Op.change]

variable (delivery : Delivery)

theorem deliver_get (server : ExtentServer) (now : UInt32) (id : ExtentId) :
    ((delivery.deliver server (server.get now id)).1.extentMap id).map Extent.content =
        (server.extentMap id).map Extent.content ∧
      (∀ old ∈ server.extentMap id,
        ∃ stored ∈ (delivery.deliver server (server.get now id)).1.extentMap id,
          stored.mtime = old.mtime ∧ stored.ctime = old.ctime) ∧
      ∀ buf, (delivery.deliver server (server.get now id)).2 = .ok buf →
        ∃ stored ∈ (delivery.deliver server (server.get now id)).1.extentMap id,
          stored.content = buf := by
  cases stored : server.extentMap id with
  | none => cases delivery <;> simp [Delivery.deliver, ExtentServer.get, stored]
  | some extent => cases delivery <;> simp [Delivery.deliver, ExtentServer.get, stored]

theorem deliver_same (server : ExtentServer) (result : Except Failure α) :
    (delivery.deliver server (server, result)).1 = server ∧
      ∀ value, (delivery.deliver server (server, result)).2 = .ok value → result = .ok value := by
  cases delivery <;> simp [Delivery.deliver]

theorem deliver_stored (server stored : ExtentServer) :
    (delivery = .answered → (delivery.deliver server (stored, .ok ())).2 = .ok ()) ∧
      ((delivery.deliver server (stored, .ok ())).2 = .ok () →
        (delivery.deliver server (stored, .ok ())).1 = stored) ∧
      (delivery.deliver server (stored, .ok ())).2 ≠ .error .noent := by
  cases delivery <;> simp [Delivery.deliver]

variable {attr : Attr}

theorem getattr_ok (told : server.getattr id = .ok attr) :
    ∃ stored ∈ server.extentMap id, stored.attr = attr := by
  rw [ExtentServer.getattr] at told
  split at told
  next extent found => exact ⟨extent, found, Except.ok.inj told⟩
  next => cases told

variable {retried : Bool}

theorem advanced_of_fetch {result : Except Failure α} {follow : α → Task} {again : Task}
    (absent : before.cache.find id = none) (content : (server.extentMap id).map Extent.content =
      (before.server.extentMap id).map Extent.content) (reads : ¬ task.Flushes)
    (found : ∀ value, result = .ok value → (follow value).On id ∧
      (follow value).Fits id { before with server } ∧ follow value ≠ .done .ok)
    (failed : again.On id ∧ again.Fits id { before with server } ∧ again ≠ .done .ok) :
    Advanced id before task { before with server }
      (Task.afterFetch result follow retried again) := by
  have mirrors : Mirrors (before.cache.find id) (server.extentMap id) := by
    rw [absent]
    rintro value ⟨⟩
  have files : ({ before with server } : Extents).files id = before.files id := by
    simp only [Extents.files, absent, visible, content]
  cases result with
  | ok value =>
      obtain ⟨on, fits, running⟩ := found value rfl
      exact advanced_of_read ⟨on, fits, mirrors⟩ files reads running
  | error failure =>
      cases retried with
      | true =>
          exact advanced_of_read ⟨trivial, trivial, mirrors⟩ files reads (by simp [Task.afterFetch])
      | false =>
          obtain ⟨on, fits, running⟩ := failed
          exact advanced_of_read ⟨on, fits, mirrors⟩ files reads running

variable {buf : Bytes}

theorem advanced_of_insert {reply : Reply} (absent : before.cache.find id = none)
    (stored : ∃ stored ∈ before.server.extentMap id,
      stored.content = buf ∧ stored.mtime = attr.mtime ∧ stored.ctime = attr.ctime)
    (reads : ¬ task.Flushes) (running : reply ≠ .ok) :
    Advanced id before task { before with
      cache := before.cache.insert id ⟨attr.atime, attr.mtime, attr.ctime, buf, false, false⟩ }
      (.done reply) := by
  obtain ⟨extent, found, content, mtime, ctime⟩ := stored
  have find := congrFun (PointerMap.find_insert absent
    ⟨attr.atime, attr.mtime, attr.ctime, buf, false, false⟩) id
  rw [Function.update_self] at find
  rw [Option.mem_def] at found
  refine advanced_of_read ⟨trivial, trivial, ?_⟩ ?_ reads ?_
  · simp only [find]
    rintro value ⟨⟩ clean
    exact ⟨rfl, extent, found, content, mtime, ctime⟩
  · simp [Extents.files, find, absent, visible, found, content]
  · intro same
    exact running (Task.done.inj same)

theorem advanced_of_store {result : Except Failure Unit} {follow : Reply → Task} {again : Task}
    (present : before.cache.find id = some value) (dirty : value.dirty = true)
    (told : retried = true → result = .ok ())
    (stored : result = .ok () → (follow .ok).On id ∧ (follow .ok).Fits id { before with server } ∧
      (follow .ok).Flushes ∧ ∀ reply, follow .ok ≠ .done reply) (known : result ≠ .error .noent)
    (failed : again.On id ∧ again.Fits id { before with server } ∧ again.Flushes ∧
      ∀ reply, again ≠ .done reply) :
    Advanced id before task { before with server }
      (Task.afterStore result follow retried again) := by
  have mirrors : Mirrors (before.cache.find id) (server.extentMap id) := by
    rw [present]
    exact mirrors_dirty dirty
  have files : ({ before with server } : Extents).files id = before.files id := by
    simp only [Extents.files, present, visible]
  have go : ∀ next : Task, next.On id ∧ next.Fits id { before with server } ∧ next.Flushes ∧
      (∀ reply, next ≠ .done reply) → Advanced id before task { before with server } next := by
    rintro next ⟨on, fits, flushes, running⟩
    refine ⟨⟨on, fits, mirrors⟩, ?_, fun _ => ⟨flushes, ?_⟩⟩
    · rw [if_neg (running .ok), files]
    · exact fun reply finished => absurd finished (running reply)
  cases result with
  | ok _ => exact go _ (stored rfl)
  | error failure =>
      cases failure with
      | noent => exact absurd rfl known
      | rpc =>
          cases retried with
          | true => cases told rfl
          | false => exact go _ failed

abbrev Advances (id : ExtentId) (now : UInt32) (delivery : Delivery) (before : Extents)
    (task : Task) : Prop :=
  Advanced id before task (Task.step now delivery before task).2
    (Task.step now delivery before task).1

variable {delivery : Delivery}

theorem getCallAttr_advanced (fits : (Task.getCallAttr id buf retried).Fits id before) :
    Advances id now delivery before (.getCallAttr id buf retried) := by
  obtain ⟨absent, stored, found, content⟩ := fits
  obtain ⟨same, told⟩ := deliver_same delivery before.server (before.server.getattr id)
  simp only [Advances, Task.step]
  generalize delivery.deliver before.server _ = delivered at same told ⊢
  obtain ⟨server, result⟩ := delivered
  obtain rfl : server = before.server := same
  refine advanced_of_fetch absent rfl not_false ?_
    ⟨rfl, ⟨absent, stored, found, content⟩, by simp⟩
  intro attr answer
  obtain ⟨extent, here, rfl⟩ := getattr_ok (told attr answer)
  obtain rfl : stored = extent := Option.some.inj (found.symm.trans here)
  exact ⟨rfl, ⟨absent, stored, found, content, rfl, rfl⟩, by simp⟩

theorem getattrCall_advanced (fits : (Task.getattrCall id retried).Fits id before) :
    Advances id now delivery before (.getattrCall id retried) := by
  obtain ⟨same, told⟩ := deliver_same delivery before.server (before.server.getattr id)
  simp only [Advances, Task.step]
  generalize delivery.deliver before.server _ = delivered at same told ⊢
  obtain ⟨server, result⟩ := delivered
  obtain rfl : server = before.server := same
  refine advanced_of_fetch fits rfl not_false ?_ ⟨rfl, fits, by simp⟩
  intro attr answer
  obtain ⟨extent, here, rfl⟩ := getattr_ok (told attr answer)
  exact ⟨rfl, ⟨fits, extent, here, rfl, rfl⟩, by simp⟩

theorem getattrCallGet_advanced (fits : (Task.getattrCallGet id attr retried).Fits id before) :
    Advances id now delivery before (.getattrCallGet id attr retried) := by
  obtain ⟨absent, stored, found, mtime, ctime⟩ := fits
  obtain ⟨content, times, told⟩ := deliver_get delivery before.server now id
  simp only [Advances, Task.step]
  generalize delivery.deliver before.server _ = delivered at content times told ⊢
  obtain ⟨server, result⟩ := delivered
  obtain ⟨later, there, sameTimes⟩ := times stored found
  have again : later.mtime = attr.mtime ∧ later.ctime = attr.ctime :=
    ⟨sameTimes.1.trans mtime, sameTimes.2.trans ctime⟩
  refine advanced_of_fetch absent content not_false ?_
    ⟨rfl, ⟨absent, later, there, again⟩, by simp⟩
  intro buf answer
  obtain ⟨extent, here, same⟩ := told buf answer
  obtain rfl : later = extent := Option.some.inj (there.symm.trans here)
  exact ⟨rfl, ⟨absent, later, there, same, again⟩, by simp⟩

theorem setattrInsert_advanced (fits : (Task.setattrInsert id attr buf).Fits id before) :
    Advances id now delivery before (.setattrInsert id attr buf) := by
  obtain ⟨absent, stored, found, content⟩ := fits
  rw [Option.mem_def] at found
  have find : ((before.cache.insert id ⟨attr.atime, attr.ctime, attr.mtime, buf, false,
      false⟩).modify before.cache.heap.length (CachedExtent.change attr)).find id =
      some (CachedExtent.change attr
        ⟨attr.atime, attr.ctime, attr.mtime, buf, false, false⟩) := by
    rw [PointerMap.find_modify (PointerMap.map_insert absent _), Function.update_self,
      PointerMap.find_insert absent, Function.update_self]
    rfl
  refine advanced_of_write find rfl not_false ?_
  simp [Task.change, Extents.files, absent, visible, found, content, CachedExtent.change]

theorem flushRemove_advanced (fits : (Task.flushRemove id retried).Fits id before)
    (answered : retried = true → delivery = .answered) :
    Advances id now delivery before (.flushRemove id retried) := by
  obtain ⟨value, present, dirty, gone⟩ := fits
  obtain ⟨told, done, known⟩ :=
    deliver_stored delivery before.server (before.server.remove id)
  simp only [Advances, Task.step]
  generalize delivery.deliver before.server _ = delivered at told done known ⊢
  obtain ⟨server, result⟩ := delivered
  refine advanced_of_store present dirty (fun second => told (answered second)) ?_ known
    ⟨rfl, ⟨value, present, dirty, gone⟩, trivial, by simp⟩
  intro answer
  obtain rfl : server = before.server.remove id := done answer
  refine ⟨rfl, ?_, trivial, by simp⟩
  rw [Option.mem_def] at present
  simp [Task.Fits, Extents.files, present, visible, gone, ExtentServer.extentMap_remove]

theorem flushPut_advanced (fits : (Task.flushPut id address retried).Fits id before)
    (answered : retried = true → delivery = .answered) :
    Advances id now delivery before (.flushPut id address retried) := by
  obtain ⟨mapped, value, present, dirty, kept⟩ := fits
  rw [Option.mem_def] at present
  have object : before.cache.read address = some value := by
    rw [← PointerMap.find_of_map mapped]
    exact present
  obtain ⟨told, done, known⟩ := deliver_stored delivery before.server
    (before.server.put now id value.content)
  simp only [Advances, Task.step, object]
  generalize delivery.deliver before.server _ = delivered at told done known ⊢
  obtain ⟨server, result⟩ := delivered
  refine advanced_of_store present dirty (fun second => told (answered second)) ?_ known
    ⟨rfl, ⟨mapped, value, present, dirty, kept⟩, trivial, by simp⟩
  intro answer
  obtain rfl : server = before.server.put now id value.content := done answer
  refine ⟨rfl, ⟨value, present, dirty, kept, rfl, ?_⟩, trivial, by simp⟩
  rw [ExtentServer.extentMap_put, Function.update_self]
  exact ⟨_, rfl, rfl⟩

theorem flushSetattr_advanced (fits : (Task.flushSetattr id attr retried).Fits id before)
    (short : ∀ content ∈ before.files id, Short content)
    (answered : retried = true → delivery = .answered) :
    Advances id now delivery before (.flushSetattr id attr retried) := by
  obtain ⟨value, present, dirty, kept, rfl, stored, found, content⟩ := fits
  rw [Option.mem_def] at present found
  have fitsSize : Short value.content := by
    apply short
    simp [Extents.files, present, visible, kept]
  have size : value.attr.size.toNat = value.content.length :=
    UInt32.toNat_ofNat_of_lt' fitsSize
  have unchanged : before.server.setattr now id value.attr = (before.server, .ok ()) := by
    rw [ExtentServer.setattr, found]
    simp only [content, size, if_true]
  obtain ⟨told, -, known⟩ := deliver_stored delivery before.server before.server
  obtain ⟨same, -⟩ := deliver_same delivery before.server (.ok ())
  simp only [Advances, Task.step, unchanged]
  generalize delivery.deliver before.server _ = delivered at told known same ⊢
  obtain ⟨server, result⟩ := delivered
  obtain rfl : server = before.server := same
  refine advanced_of_store present dirty (fun second => told (answered second)) ?_ known
    ⟨rfl, ⟨value, present, dirty, kept, rfl, stored, found, content⟩, trivial, by simp⟩
  intro answer
  refine ⟨rfl, ?_, trivial, by simp⟩
  simp [Task.Fits, Extents.files, present, visible, kept, found, content]

theorem flushErase_advanced {reply : Reply} (fits : (Task.flushErase id reply).Fits id before) :
    Advances id now delivery before (.flushErase id reply) := by
  have erased : (before.cache.erase id).find id = none := by
    rw [PointerMap.find_erase, Function.update_self]
  have files : ({ before with cache := before.cache.erase id } : Extents).files id =
      before.files id := by
    simp only [Extents.files, erased]
    exact fits.symm
  refine ⟨⟨trivial, trivial, ?_⟩, ?_, fun _ => ⟨trivial, fun _ _ => erased⟩⟩
  · simp only [Task.step, erased]
    rintro value ⟨⟩
  · simp only [Task.step, files, Task.change]
    exact (ite_self _).symm

/-- One step of a call.  The RPCs of a `flush` are answered at the latest when they are made
for the second time. -/
theorem step_advanced (steady : Steady id before task)
    (short : ∀ content ∈ before.files id, Short content)
    (answered : task.Flushes → task.retried = true → delivery = .answered)
    (running : ∀ reply, task ≠ .done reply) :
    Advanced id before task (Task.step now delivery before task).2
      (Task.step now delivery before task).1 := by
  obtain ⟨on, fits, mirrors⟩ := steady
  cases task with
  | call op =>
      cases present : before.cache.find id with
      | none => exact start_miss now on present
      | some value =>
          obtain ⟨address, -, hit⟩ := PointerMap.lookup_of_find_some present
          rw [present] at mirrors
          exact start_hit now on hit mirrors
  | getCall other retried =>
      obtain rfl : other = id := on
      obtain ⟨content, -, told⟩ := deliver_get delivery before.server now other
      refine advanced_of_fetch fits content not_false ?_ ⟨rfl, fits, by simp⟩
      intro buf answer
      exact ⟨rfl, ⟨fits, told buf answer⟩, by simp⟩
  | getCallAttr other buf retried =>
      obtain rfl : other = id := on
      exact getCallAttr_advanced now fits
  | getInsert other buf attr =>
      obtain rfl : other = id := on
      exact advanced_of_insert fits.1 fits.2 not_false (by simp)
  | getattrCall other retried =>
      obtain rfl : other = id := on
      exact getattrCall_advanced now fits
  | getattrCallGet other attr retried =>
      obtain rfl : other = id := on
      exact getattrCallGet_advanced now fits
  | getattrInsert other attr buf =>
      obtain rfl : other = id := on
      exact advanced_of_insert fits.1 fits.2 not_false (by simp)
  | setattrCallGet other attr retried =>
      obtain rfl : other = id := on
      obtain ⟨content, -, told⟩ := deliver_get delivery before.server now other
      refine advanced_of_fetch fits content not_false ?_ ⟨rfl, fits, by simp⟩
      intro buf answer
      exact ⟨rfl, ⟨fits, told buf answer⟩, by simp⟩
  | setattrInsert other attr buf =>
      obtain rfl : other = id := on
      exact setattrInsert_advanced now fits
  | flushRemove other retried =>
      obtain rfl : other = id := on
      exact flushRemove_advanced now fits (answered trivial)
  | flushPut other address retried =>
      obtain rfl : other = id := on
      exact flushPut_advanced now fits (answered trivial)
  | flushSetattr other attr retried =>
      obtain rfl : other = id := on
      exact flushSetattr_advanced now fits short (answered trivial)
  | flushErase other reply =>
      obtain rfl : other = id := on
      exact flushErase_advanced now fits
  | done reply => exact absurd rfl (running reply)

end Progress

end Ctgfs.Fs
