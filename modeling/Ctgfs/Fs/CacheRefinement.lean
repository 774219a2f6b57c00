import Ctgfs.Fs.Reconnect

/-!
# The extent cache is a map

To its caller, a cache over a server is a map from numbers to contents, whenever it writes
back.  Sizes go through an `unsigned int`, so this holds for contents that are shorter than
`2 ^ 32` bytes.  A call returns if and only if the `Client` gets it connected to the server.
-/

namespace Ctgfs.Fs

open Foundation

section Abstract

abbrev Files := ExtentId → Option Bytes

def Op.change (file : Option Bytes) : Op → Option Bytes
  | .put _ buf => some buf
  | .remove _ => none
  | .setattr _ attr => file.map (resize · attr.size.toNat)
  | .get _ | .getattr _ | .flush _ => file

def Op.apply (files : Files) (op : Op) : Files :=
  Function.update files op.id (op.change (files op.id))

def Op.Answers (file : Option Bytes) : Op → Reply → Prop
  | .put _ _, reply | .remove _, reply | .flush _, reply => reply = .ok
  | .get _, reply => reply = file.elim (.failed .noent) .buf
  | .getattr _, reply =>
      match file with
      | some content => ∃ attr, reply = .attr attr ∧ attr.size.toNat = content.length
      | none => reply = .failed .noent
  | .setattr _ _, reply => reply = file.elim (.failed .noent) fun _ => .ok

/-- The size of a content fits into an `unsigned int`. -/
def Short (content : Bytes) : Prop :=
  content.length < UInt32.size

def Op.Short : Op → Prop
  | .put _ buf => Fs.Short buf
  | .get _ | .getattr _ | .setattr _ _ | .remove _ | .flush _ => True

end Abstract

section Views

def visible (entry : Option CachedExtent) (extent : Option Extent) : Option Bytes :=
  match entry with
  | some value => if value.deleted then none else some value.content
  | none => extent.map Extent.content

def Extents.files (extents : Extents) : Files :=
  fun id => visible (extents.cache.find id) (extents.server.extentMap id)

def Mirrors (entry : Option CachedExtent) (extent : Option Extent) : Prop :=
  ∀ value ∈ entry, value.dirty = false → value.deleted = false ∧
    ∃ stored ∈ extent, stored.content = value.content ∧ stored.mtime = value.mtime ∧
      stored.ctime = value.ctime

variable {clock : Nat → UInt32} {entry entry' : Option CachedExtent}
  {extent extent' : Option Extent} {op : Op} {reply : Reply}

theorem mirrors_dirty {value : CachedExtent} (dirty : value.dirty = true) :
    Mirrors (some value) extent := by
  rintro other ⟨⟩ clean
  rw [dirty] at clean
  cases clean

theorem Outcome.mirrors (outcome : Outcome clock entry extent op reply entry' extent')
    (mirrors : Mirrors entry extent) : Mirrors entry' extent' := by
  cases outcome with
  | put id buf => exact mirrors_dirty rfl
  | getHit kept => exact mirrors_dirty rfl
  | getMiss =>
      rintro value ⟨⟩ clean
      exact ⟨rfl, _, rfl, rfl, rfl, rfl⟩
  | getattrHit kept => exact mirrors
  | getattrMiss =>
      rintro value ⟨⟩ clean
      exact ⟨rfl, _, rfl, rfl, rfl, rfl⟩
  | setattrHit kept => exact mirrors_dirty rfl
  | setattrMiss => exact mirrors_dirty rfl
  | absent fetches => exact mirrors
  | deleted fetches gone => exact mirrors
  | remove => exact mirrors_dirty rfl
  | flushAbsent => exact mirrors
  | flushClean clean => rintro value ⟨⟩
  | flushDeleted dirty gone => rintro value ⟨⟩
  | flushDirty dirty kept => rintro value ⟨⟩

theorem content_writtenBack {value : CachedExtent} (short : Short value.content)
    (old : Option Extent) (putTime setTime : UInt32) :
    (value.writtenBack old putTime setTime).content = value.content := by
  have fits : value.content.length < UInt32.size := short
  rw [CachedExtent.writtenBack, if_pos fits]

theorem Outcome.visible_eq (outcome : Outcome clock entry extent op reply entry' extent')
    (mirrors : Mirrors entry extent) (short : ∀ content ∈ visible entry extent, Short content) :
    visible entry' extent' = op.change (visible entry extent) := by
  cases outcome with
  | put id buf => rfl
  | @getHit value _ id kept => simp [visible, Op.change, CachedExtent.touch, kept]
  | getMiss => rfl
  | getattrHit kept => rfl
  | getattrMiss => rfl
  | setattrHit kept => simp [visible, Op.change, CachedExtent.change, kept]
  | setattrMiss => rfl
  | @absent op fetches => cases op <;> simp_all [visible, Op.change, Op.fetches]
  | @deleted op value _ fetches gone =>
      cases op <;> simp_all [visible, Op.change, Op.fetches]
  | remove => rfl
  | flushAbsent => rfl
  | @flushClean value _ id clean =>
      obtain ⟨kept, stored, ⟨⟩, same, -⟩ := mirrors value rfl clean
      simp [visible, Op.change, kept, same]
  | flushDeleted dirty gone => simp [visible, Op.change, gone]
  | @flushDirty value _ id dirty kept =>
      have fits : Short value.content := short value.content (by simp [visible, kept])
      simp [visible, Op.change, kept, content_writtenBack fits]

theorem Outcome.answers (outcome : Outcome clock entry extent op reply entry' extent')
    (short : ∀ content ∈ visible entry extent, Short content) :
    op.Answers (visible entry extent) reply := by
  have size : ∀ content : Bytes, Short content →
      (UInt32.ofNat content.length).toNat = content.length := fun content fits =>
    UInt32.toNat_ofNat_of_lt' fits
  cases outcome with
  | put id buf => rfl
  | getHit kept => simp [visible, Op.Answers, kept]
  | getMiss => rfl
  | @getattrHit value _ id kept =>
      have seen : visible (some value) extent = some value.content := by simp [visible, kept]
      rw [seen] at short ⊢
      exact ⟨_, rfl, size _ (short _ rfl)⟩
  | @getattrMiss stored id => exact ⟨_, rfl, size _ (short _ rfl)⟩
  | setattrHit kept => simp [visible, Op.Answers, kept]
  | setattrMiss => rfl
  | @absent op fetches => cases op <;> simp_all [visible, Op.Answers, Op.fetches]
  | @deleted op value _ fetches gone =>
      cases op <;> simp_all [visible, Op.Answers, Op.fetches]
  | remove => rfl
  | flushAbsent => rfl
  | flushClean clean => rfl
  | flushDeleted dirty gone => rfl
  | flushDirty dirty kept => rfl

theorem Outcome.flushed {id : ExtentId}
    (outcome : Outcome clock entry extent (.flush id) reply entry' extent')
    (mirrors : Mirrors entry extent) (short : ∀ content ∈ visible entry extent, Short content) :
    entry' = none ∧ extent'.map Extent.content = visible entry extent := by
  have gone : entry' = none := by
    cases outcome with
    | absent fetches => cases fetches
    | deleted fetches gone => cases fetches
    | flushAbsent => rfl
    | flushClean clean => rfl
    | flushDeleted dirty gone => rfl
    | flushDirty dirty kept => rfl
  refine ⟨gone, ?_⟩
  have seen := outcome.visible_eq mirrors short
  rw [gone] at seen
  exact seen

end Views

section Runs

variable {clock : Nat → UInt32} {before after : Extents} {op : Op} {reply : Reply}
  {entry : Option CachedExtent} {extent : Option Extent}

/-- The entries of a client that are not dirty are as on the server, and all files that it
sees are short. -/
structure Coherent (extents : Extents) : Prop where
  mirrors : ∀ id, Mirrors (extents.cache.find id) (extents.server.extentMap id)
  short : ∀ id, ∀ content ∈ extents.files id, Short content

theorem Performed.files_eq (performed : Performed clock before op reply after entry extent)
    (coherent : Coherent before) : after.files = op.apply before.files := by
  have changed := performed.outcome.visible_eq (coherent.mirrors _) (coherent.short op.id)
  funext id
  by_cases same : id = op.id
  · subst same
    rw [Extents.files, performed.find, performed.extentMap, Op.apply]
    simp only [Function.update_self]
    exact changed
  · rw [Extents.files, performed.find, performed.extentMap, Op.apply]
    simp only [Function.update_of_ne same]
    rfl

theorem Performed.mirrors (performed : Performed clock before op reply after entry extent)
    (mirrors : ∀ id, Mirrors (before.cache.find id) (before.server.extentMap id)) (id : ExtentId) :
    Mirrors (after.cache.find id) (after.server.extentMap id) := by
  rw [performed.find, performed.extentMap]
  by_cases same : id = op.id
  · subst same
    rw [Function.update_self, Function.update_self]
    exact performed.outcome.mirrors (mirrors _)
  · rw [Function.update_of_ne same, Function.update_of_ne same]
    exact mirrors id

theorem short_change {file : Option Bytes} (short : ∀ content ∈ file, Short content)
    (shortOp : op.Short) : ∀ content ∈ op.change file, Short content := by
  intro content changed
  cases op with
  | put id buf =>
      cases changed
      exact shortOp
  | get id => exact short content changed
  | getattr id => exact short content changed
  | setattr id attr =>
      obtain ⟨old, -, rfl⟩ := Option.map_eq_some_iff.mp changed
      rw [Short, length_resize]
      exact attr.size.toNat_lt
  | remove id => cases changed
  | flush id => exact short content changed

theorem Performed.coherent (performed : Performed clock before op reply after entry extent)
    (coherent : Coherent before) (shortOp : op.Short) : Coherent after := by
  refine ⟨performed.mirrors coherent.mirrors, ?_⟩
  intro id content seen
  rw [performed.files_eq coherent, Op.apply] at seen
  by_cases same : id = op.id
  · subst same
    rw [Function.update_self] at seen
    exact short_change (coherent.short op.id) shortOp content seen
  · rw [Function.update_of_ne same] at seen
    exact coherent.short id content seen

def Calls (mount : Mount) (call : Op × Outside) (next : Mount) : Prop :=
  ∃ reply, mount.perform call.2 call.1 = some (.done reply, next)

theorem Calls.performed {mount next : Mount} {call : Op × Outside}
    (called : Calls mount call next) :
    ∃ reply entry extent,
      Performed call.2.clock mount.extents call.1 reply next.extents entry extent := by
  obtain ⟨reply, returned⟩ := called
  obtain ⟨other, after, entry, extent, performed⟩ := returns call.2.clock mount.extents call.1
  have same := performed.returns.symm.trans (Mount.perform_eq_some.mp returned).1
  cases same
  exact ⟨reply, entry, extent, performed⟩

def Mount.initial (server : ExtentServer) (client : Placement.Client) : Mount :=
  ⟨⟨.empty, server⟩, client⟩

theorem coherent_of_run {server : ExtentServer} {client : Placement.Client}
    {calls : List (Op × Outside)} {mount : Mount}
    (run : Run Calls (.initial server client) calls mount)
    (stored : ∀ id, ∀ extent ∈ server.extentMap id, Short extent.content)
    (short : ∀ call ∈ calls, call.1.Short) :
    Coherent mount.extents ∧ mount.extents.files =
      (calls.map Prod.fst).foldl Op.apply fun id => (server.extentMap id).map Extent.content := by
  refine run.history (fun calls mount => (∀ call ∈ calls, call.1.Short) →
    Coherent mount.extents ∧ mount.extents.files = (calls.map Prod.fst).foldl Op.apply
      fun id => (server.extentMap id).map Extent.content) ?_ ?_ short
  · intro _
    refine ⟨⟨?_, ?_⟩, rfl⟩
    · rintro id value ⟨⟩
    · intro id content seen
      obtain ⟨extent, found, rfl⟩ := Option.map_eq_some_iff.mp seen
      exact stored id extent found
  · intro calls mount call next ih called short
    obtain ⟨coherent, files⟩ := ih fun other member =>
      short other (List.mem_append_left _ member)
    obtain ⟨reply, entry, extent, performed⟩ := called.performed
    have shortCall : call.1.Short :=
      short call (List.mem_append_right _ (List.mem_singleton_self _))
    refine ⟨performed.coherent coherent shortCall, ?_⟩
    rw [performed.files_eq coherent, files, List.map_append, List.foldl_append]
    rfl

end Runs

/-- After every sequence of calls that have returned, the client sees the files that the calls
make of those on the server.  The next call returns what it should for the file of its number,
and leaves it on the server and not in the cache if it is a `flush`, if and only if each of its
`retry` is defined. -/
theorem cache_refines_map {server : ExtentServer} {client : Placement.Client}
    {calls : List (Op × Outside)} {mount : Mount}
    (run : Run Calls (.initial server client) calls mount)
    (stored : ∀ id, ∀ extent ∈ server.extentMap id, Short extent.content)
    (short : ∀ call ∈ calls, call.1.Short) :
    mount.extents.files = (calls.map Prod.fst).foldl Op.apply
        (fun id => (server.extentMap id).map Extent.content) ∧
    ∀ outside op, (∃ reply next, mount.perform outside op = some (.done reply, next) ∧
      op.Answers (mount.extents.files op.id) reply ∧
      next.extents.files = op.apply mount.extents.files ∧
      (∀ id, op = .flush id → next.extents.cache.find id = none ∧
        (next.extents.server.extentMap id).map Extent.content = mount.extents.files id)) ↔
      mount.Reconnects outside op := by
  obtain ⟨coherent, files⟩ := coherent_of_run run stored short
  refine ⟨files, fun outside op => ?_⟩
  rw [← mount.reconnects_iff]
  constructor
  · rintro ⟨reply, next, returned, -⟩
    exact ⟨next.client, (Mount.perform_eq_some.mp returned).2⟩
  rintro ⟨reconnected, ran⟩
  obtain ⟨reply, next, entry, extent, performed⟩ := returns outside.clock mount.extents op
  refine ⟨reply, ⟨next, reconnected⟩, Mount.perform_eq_some.mpr ⟨performed.returns, ran⟩,
    performed.outcome.answers (coherent.short op.id), performed.files_eq coherent, ?_⟩
  rintro id rfl
  obtain ⟨gone, written⟩ := performed.outcome.flushed (coherent.mirrors id) (coherent.short id)
  constructor
  · rw [performed.find, Op.id, Function.update_self]
    exact gone
  · rw [performed.extentMap, Op.id, Function.update_self]
    exact written

/-- The clock stands still, and the master gives one address. -/
def Outside.still (now : UInt32) (addr : Bytes) : Outside :=
  ⟨fun _ => now, fun _ => addr⟩

/-- A new `Client` that has linked an inode to an address. -/
def linkedClient (ino : Nat) (addr : Bytes) : Placement.Client where
  kvAddrIndexList := OrderedMap.empty.insert ino 0
  kvAddrConnectStatus := OrderedMap.empty.insert 0 0
  kvAddrList := [⟨addr, 1⟩]
  reusedQueue := []

/-- An extent is put, cut to one byte, and flushed. -/
theorem cache_refines_map_cut :
    Placement.Client.new.getKVAddrByInum 7 [115] =
        some (⟨true, [115], some 0, none⟩, linkedClient 7 [115]) ∧
      ∃ mount next, Run Calls (.initial ⟨fun _ => none, []⟩ (linkedClient 7 [115]))
        [(.put 7 [97, 98], .still 0 [115]), (.setattr 7 ⟨0, 0, 0, 1⟩, .still 0 [115])] mount ∧
      mount.perform (.still 0 [115]) (.flush 7) = some (.done .ok, next) ∧
      (next.extents.server.extentMap 7).map Extent.content = some [97] := by
  have one : Run Calls (.initial ⟨fun _ => none, []⟩ (linkedClient 7 [115]))
      [(.put 7 [97, 98], .still 0 [115])] _ :=
    Run.refl.tail ⟨.ok, rfl⟩
  have two : Run Calls (.initial ⟨fun _ => none, []⟩ (linkedClient 7 [115]))
      [(.put 7 [97, 98], .still 0 [115]), (.setattr 7 ⟨0, 0, 0, 1⟩, .still 0 [115])] _ :=
    one.tail ⟨.ok, rfl⟩
  have short : ∀ call ∈ [(Op.put 7 [97, 98], Outside.still 0 [115]),
      (.setattr 7 ⟨0, 0, 0, 1⟩, .still 0 [115])], call.1.Short := by
    intro call member
    rcases List.mem_pair.mp member with rfl | rfl
    · exact (by decide : 2 < UInt32.size)
    · trivial
  obtain ⟨files, answers⟩ := cache_refines_map two (by rintro id extent ⟨⟩) short
  obtain ⟨reply, next, returned, rfl, -, flushed⟩ :=
    (answers (.still 0 [115]) (.flush 7)).mpr ((Mount.reconnects_iff ..).mp ⟨_, rfl⟩)
  refine ⟨rfl, _, next, two, returned, ?_⟩
  rw [(flushed 7 rfl).2, files]
  rfl

theorem getattr_put (content : Bytes) :
    ∃ mount next,
      Run Calls (.initial ⟨fun _ => none, []⟩ .new) [(.put 7 content, .still 0 [115])] mount ∧
      mount.extents.files 7 = some content ∧ mount.perform (.still 0 [115]) (.getattr 7) =
        some (.done (.attr ⟨0, 0, 0, UInt32.ofNat content.length⟩), next) :=
  ⟨_, _, Run.refl.tail ⟨.ok, rfl⟩, rfl, rfl⟩

/-- On a new `Client`, the first `flush` of an extent crashes.  The size of a content of `2 ^ 32`
bytes is returned as zero. -/
theorem flush_crashes :
    (∃ mount, Run Calls (.initial ⟨fun _ => none, []⟩ .new) [(.put 7 [97], .still 0 [115])] mount ∧
      mount.perform (.still 0 [115]) (.flush 7) = none) ∧
    ∃ mount reply next, Run Calls (.initial ⟨fun _ => none, []⟩ .new)
        [(.put 7 (List.replicate UInt32.size nullByte), .still 0 [115])] mount ∧
      mount.perform (.still 0 [115]) (.getattr 7) = some (.done reply, next) ∧
      ¬ (Op.getattr 7).Answers (mount.extents.files 7) reply := by
  refine ⟨⟨_, Run.refl.tail ⟨.ok, rfl⟩, rfl⟩, ?_⟩
  obtain ⟨mount, next, run, files, returned⟩ :=
    getattr_put (List.replicate UInt32.size nullByte)
  refine ⟨mount, _, next, run, returned, ?_⟩
  rw [files, List.length_replicate]
  rintro ⟨attr, same, size⟩
  cases same
  rw [List.length_replicate] at size
  exact absurd size (by decide)

end Ctgfs.Fs
