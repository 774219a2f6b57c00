import Ctgfs.Fs.CacheRefinement

/-!
# The attributes of a flushed extent

A `flush` writes the times of an entry back with `setattr`, but the server takes over the size
only, so the extent has the times of the `put` before it.  Reading an extent also leaves its
mark on the server, which the entry made by `getattr` does not have.  Both RPCs of a `flush` come
after a `retry`, which may not be defined.
-/

namespace Ctgfs.Fs

open Foundation

def FlushTransparent (mount : Mount) (id : ExtentId) (before flush after : Outside) : Prop :=
  ∃ attr fetched flushed last reply,
    mount.perform before (.getattr id) = some (.done (.attr attr), fetched) ∧
    fetched.perform flush (.flush id) = some (.done reply, flushed) ∧
    flushed.perform after (.getattr id) = some (.done (.attr attr), last)

/-- The times that an extent gets from the server when its entry is flushed are those that
`getattr` shows before.  What has to agree depends on the entry: without one, the access time
with the time of the fetch that `getattr` makes; for a dirty one, its times with those of the
write; for any other one, its access time with that on the server. -/
def TimesAgree (entry : Option CachedExtent) (extent : Option Extent)
    (fetchTime putTime setTime : UInt32) : Prop :=
  match entry with
  | none => ∃ stored ∈ extent, stored.atime = fetchTime
  | some value =>
      if value.dirty then
        let written := if value.content.length < UInt32.size then putTime else setTime
        value.atime = (extent.map Extent.atime).getD putTime ∧ value.mtime = written ∧
          value.ctime = written
      else ∃ stored ∈ extent, stored.atime = value.atime

/-- Each `retry` of the `flush` that writes a dirty entry back is defined. -/
def WritesBack (entry : Option CachedExtent) (client : Placement.Client) (id : ExtentId)
    (putAnswer setAnswer : Bytes) : Prop :=
  ∀ value ∈ entry, value.dirty = true →
    Meets retry Reconnects client [(id, putAnswer), (id, setAnswer)]

variable {mount : Mount}

theorem mirrors_of_run {server : ExtentServer} {client : Placement.Client}
    {calls : List (Op × Outside)} (run : Run Calls (.initial server client) calls mount)
    (id : ExtentId) :
    Mirrors (mount.extents.cache.find id) (mount.extents.server.extentMap id) := by
  refine run.invariant (fun mount => ∀ id, Mirrors (mount.extents.cache.find id)
    (mount.extents.server.extentMap id)) ?_ ?_ id
  · rintro id value ⟨⟩
  · intro mount call next mirrors called
    obtain ⟨reply, entry, extent, performed⟩ := called.performed
    exact performed.mirrors mirrors

section Attributes

theorem ofNat_mod_size (n : Nat) : UInt32.ofNat (n % UInt32.size) = UInt32.ofNat n := by
  apply UInt32.toNat_inj.mp
  rw [UInt32.toNat_ofNat', UInt32.toNat_ofNat']
  exact Nat.mod_mod _ _

theorem attr_writtenBack (value : CachedExtent) (old : Option Extent) (putTime setTime : UInt32) :
    (value.writtenBack old putTime setTime).attr =
      let written := if value.content.length < UInt32.size then putTime else setTime
      ⟨(old.map Extent.atime).getD putTime, written, written,
        UInt32.ofNat value.content.length⟩ := by
  rw [CachedExtent.writtenBack]
  split
  next short => simp only [Extent.attr]
  next long => simp only [Extent.attr, length_resize, ofNat_mod_size]

variable {id : ExtentId} {extents : Extents}

theorem getattr_server {extent : Extent} (absent : extents.cache.find id = none)
    (stored : extents.server.extentMap id = some extent) (clock : Nat → UInt32) :
    ∃ next, extents.perform clock (.getattr id) = (.done (.attr extent.attr), next) := by
  obtain ⟨reply, next, entry, extent', performed⟩ := returns clock extents (.getattr id)
  have outcome := performed.outcome
  simp only [Op.id, absent, stored] at outcome
  cases outcome
  exact ⟨next, performed.returns⟩

theorem getattr_flush {value : CachedExtent} (present : extents.cache.find id = some value)
    (kept : value.deleted = false) (mirrors : Mirrors (some value) (extents.server.extentMap id))
    (fetchTime : UInt32) (flush after : Nat → UInt32) :
    ∃ attr flushed last reply, extents.perform flush (.flush id) = (.done reply, flushed) ∧
      flushed.perform after (.getattr id) = (.done (.attr attr), last) ∧
      (flushed.server.extentMap id).isSome ∧
      (attr = value.attr ↔ TimesAgree (some value) (extents.server.extentMap id) fetchTime
        (flush 1) (flush 2)) := by
  obtain ⟨reply, flushed, entry, extent, performed⟩ := returns flush extents (.flush id)
  have find := performed.find
  have extentMap := performed.extentMap
  have outcome := performed.outcome
  simp only [Op.id, present] at find extentMap outcome
  cases outcome with
  | deleted fetches gone => cases fetches
  | flushClean clean =>
      obtain ⟨-, stored, found, content, mtime, ctime⟩ := mirrors value rfl clean
      rw [Option.mem_def] at found
      have there : flushed.server.extentMap id = some stored := by
        rw [extentMap, Function.update_self, found]
      obtain ⟨last, returned⟩ := getattr_server (by rw [find, Function.update_self]) there after
      refine ⟨_, flushed, last, _, performed.returns, returned, by rw [there]; rfl, ?_⟩
      simp [TimesAgree, clean, found, Extent.attr, CachedExtent.attr, content, mtime, ctime]
  | flushDeleted dirty gone =>
      rw [kept] at gone
      cases gone
  | flushDirty dirty _ =>
      have there := congrFun extentMap id
      rw [Function.update_self] at there
      obtain ⟨last, returned⟩ := getattr_server (by rw [find, Function.update_self]) there after
      refine ⟨_, flushed, last, _, performed.returns, returned, by rw [there]; rfl, ?_⟩
      rw [attr_writtenBack]
      simp [TimesAgree, dirty, CachedExtent.attr, eq_comm]

theorem getattr_quiet
    (there : (mount.extents.cache.find id).isSome ∨ (mount.extents.server.extentMap id).isSome)
    (outside : Outside) : mount.requests outside (.getattr id) = [] := by
  rw [Mount.requests, Op.retriesAt, if_neg, List.map_nil]
  rintro ⟨absent, missing⟩
  rcases there with there | there
  · exact Option.isSome_iff_ne_none.mp there (Option.isNone_iff_eq_none.mp absent)
  · exact Option.isSome_iff_ne_none.mp there (Option.isNone_iff_eq_none.mp missing)

theorem reconnects_flush {value : CachedExtent} (present : extents.cache.find id = some value)
    (kept : value.deleted = false) (client : Placement.Client) (flush : Outside) :
    (Mount.mk extents client).Reconnects flush (.flush id) ↔
      WritesBack (some value) client id (flush.answers 1) (flush.answers 2) := by
  rw [Mount.Reconnects, Mount.requests, Op.id, present, Op.retriesAt]
  cases dirty : value.dirty <;> simp [WritesBack, dirty, kept, Meets]

theorem flushTransparent_iff {fetched flushed last : Extents} {before flush after : Outside}
    {shown attr : Attr} {reply : Reply}
    (first : mount.extents.perform before.clock (.getattr id) = (.done (.attr shown), fetched))
    (second : fetched.perform flush.clock (.flush id) = (.done reply, flushed))
    (third : flushed.perform after.clock (.getattr id) = (.done (.attr attr), last))
    (there : (mount.extents.cache.find id).isSome ∨ (mount.extents.server.extentMap id).isSome)
    (stored : (flushed.server.extentMap id).isSome) :
    FlushTransparent mount id before flush after ↔
      attr = shown ∧ (Mount.mk fetched mount.client).Reconnects flush (.flush id) := by
  rw [← Mount.reconnects_iff]
  constructor
  · rintro ⟨same, fetched', flushed', last', reply', first', second', third'⟩
    obtain ⟨returned, quiet⟩ := Mount.perform_eq_some.mp first'
    rw [getattr_quiet there, exec, Option.some.injEq] at quiet
    obtain ⟨⟩ := first.symm.trans returned
    obtain ⟨extents, client⟩ := fetched'
    cases quiet
    obtain ⟨again, ran⟩ := Mount.perform_eq_some.mp second'
    cases second.symm.trans again
    cases third.symm.trans (Mount.perform_eq_some.mp third').1
    exact ⟨rfl, _, ran⟩
  · rintro ⟨rfl, client, ran⟩
    refine ⟨attr, ⟨fetched, mount.client⟩, ⟨flushed, client⟩, ⟨last, client⟩, reply,
      Mount.perform_eq_some.mpr ⟨first, ?_⟩, Mount.perform_eq_some.mpr ⟨second, ran⟩,
      Mount.perform_eq_some.mpr ⟨third, ?_⟩⟩
    · rw [getattr_quiet there]
      rfl
    · rw [getattr_quiet (.inr stored)]
      rfl

end Attributes

/-- In every reachable state, `getattr` gives the same before and after the `flush` of an
extent that is present if and only if the times agree and each `retry` of the `flush` is
defined. -/
theorem flush_transparent_iff {server : ExtentServer} {client : Placement.Client}
    {calls : List (Op × Outside)} {mount : Mount}
    (run : Run Calls (.initial server client) calls mount) (id : ExtentId)
    (present : mount.extents.files id ≠ none) (before flush after : Outside) :
    FlushTransparent mount id before flush after ↔
      TimesAgree (mount.extents.cache.find id) (mount.extents.server.extentMap id)
        (before.clock 2) (flush.clock 1) (flush.clock 2) ∧
      WritesBack (mount.extents.cache.find id) mount.client id (flush.answers 1)
        (flush.answers 2) := by
  have mirrors := mirrors_of_run run id
  obtain ⟨reply, fetched, entry, extent, performed⟩ :=
    returns before.clock mount.extents (.getattr id)
  have find := congrFun performed.find id
  have extentMap := congrFun performed.extentMap id
  have outcome := performed.outcome
  have mirrorsNext := outcome.mirrors mirrors
  have first := performed.returns
  simp only [Op.id, Function.update_self] at find extentMap outcome
  rw [Extents.files] at present
  generalize here : mount.extents.cache.find id = found at *
  generalize stored : mount.extents.server.extentMap id = extent at *
  cases outcome with
  | getattrHit kept =>
      rw [← extentMap] at mirrorsNext
      obtain ⟨attr, flushed, last, reply, second, third, written, agree⟩ :=
        getattr_flush find kept mirrorsNext (before.clock 2) flush.clock after.clock
      rw [flushTransparent_iff first second third (.inl (by rw [here]; rfl)) written, agree,
        extentMap, reconnects_flush find kept]
  | getattrMiss =>
      rw [← extentMap] at mirrorsNext
      obtain ⟨attr, flushed, last, reply, second, third, written, agree⟩ :=
        getattr_flush find rfl mirrorsNext (before.clock 2) flush.clock after.clock
      rw [flushTransparent_iff first second third (.inr (by rw [stored]; rfl)) written,
        reconnects_flush find rfl]
      refine and_congr (Iff.trans agree ?_) ?_
      · rw [extentMap]
        simp [TimesAgree, Extent.cached, Extent.accessed, eq_comm]
      · simp [WritesBack, Extent.cached]
  | absent fetches => exact absurd rfl present
  | deleted fetches gone =>
      rw [visible, gone] at present
      exact absurd rfl present

/-- An extent is put, and the clock does not move until it is flushed. -/
theorem flush_transparent_at_once :
    ∃ mount, Run Calls (.initial ⟨fun _ => none, []⟩ (linkedClient 7 [115]))
        [(.put 7 [97], .still 10 [115])] mount ∧
      FlushTransparent mount 7 (.still 10 [115]) (.still 10 [115]) (.still 20 [115]) := by
  have run : Run Calls (.initial ⟨fun _ => none, []⟩ (linkedClient 7 [115]))
      [(.put 7 [97], .still 10 [115])] _ :=
    Run.refl.tail ⟨.ok, rfl⟩
  refine ⟨_, run, (flush_transparent_iff run 7 (by decide) _ _ _).mpr ⟨⟨rfl, rfl, rfl⟩, ?_⟩⟩
  intro value _ _
  exact (isSome_exec isSome_retry).mp rfl

/-- An extent is put at time 10 and flushed at time 20: the attributes show 20.  With a `Client`
that has linked nothing, the `flush` crashes. -/
theorem flush_changes_mtime :
    (∃ mount, Run Calls (.initial ⟨fun _ => none, []⟩ (linkedClient 7 [115]))
        [(.put 7 [97], .still 10 [115])] mount ∧ mount.extents.files 7 = some [97] ∧
      ∃ attr attr' fetched flushed last,
        mount.perform (.still 20 [115]) (.getattr 7) = some (.done (.attr attr), fetched) ∧
        fetched.perform (.still 20 [115]) (.flush 7) = some (.done .ok, flushed) ∧
        flushed.perform (.still 20 [115]) (.getattr 7) = some (.done (.attr attr'), last) ∧
        attr'.mtime ≠ attr.mtime) ∧
    ∃ mount, Run Calls (.initial ⟨fun _ => none, []⟩ .new) [(.put 7 [97], .still 10 [115])] mount ∧
      mount.perform (.still 10 [115]) (.flush 7) = none := by
  refine ⟨⟨_, Run.refl.tail ⟨.ok, rfl⟩, rfl, _, _, _, _, _, rfl, rfl, rfl, by decide⟩,
    _, Run.refl.tail ⟨.ok, rfl⟩, rfl⟩

end Ctgfs.Fs
