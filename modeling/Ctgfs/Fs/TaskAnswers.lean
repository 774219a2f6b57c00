import Ctgfs.Fs.WriteBack

/-!
# What a call returns among others

A call on the extent cache that is not a `flush` answers for the file of its number as that
file is when the call returns, unless an RPC has failed twice.
-/

namespace Ctgfs.Fs

open Foundation

/-- The size that `getattr` has been told is that of the extent. -/
def Task.Measured (id : ExtentId) (extents : Extents) : Task → Prop
  | .getattrCallGet _ attr _ =>
      ∀ stored ∈ extents.server.extentMap id, attr.size = UInt32.ofNat stored.content.length
  | .getattrInsert _ attr buf => attr.size = UInt32.ofNat buf.length
  | _ => True

theorem Task.Measured.agree {id : ExtentId} {first second : Extents} {task : Task}
    (measured : task.Measured id first) (agree : Agree id first second) :
    task.Measured id second := by
  cases task with
  | getattrCallGet other attr retried =>
      simp only [Task.Measured, agree.extentMap]
      exact measured
  | _ => exact measured

theorem measured_start (now : UInt32) (id : ExtentId) (extents after : Extents) (op : Op) :
    (Task.start now extents op).1.Measured id after := by
  cases op <;> simp only [Task.start] <;> (repeat' split) <;> trivial

variable {retried : Bool} {again : Task} {α : Type}

theorem measured_afterFetch {id : ExtentId} {extents : Extents} {result : Except Failure α}
    {next : α → Task} (found : ∀ value, result = .ok value → (next value).Measured id extents)
    (failed : again.Measured id extents) :
    (Task.afterFetch result next retried again).Measured id extents := by
  cases result with
  | ok value => exact found value rfl
  | error failure =>
      cases retried with
      | true => trivial
      | false => exact failed

theorem measured_afterStore {id : ExtentId} {extents : Extents} {result : Except Failure Unit}
    {next : Reply → Task} (found : ∀ reply, (next reply).Measured id extents)
    (failed : again.Measured id extents) :
    (Task.afterStore result next retried again).Measured id extents := by
  unfold Task.afterStore
  split
  · exact found _
  · exact found _
  · split
    · trivial
    · exact failed

variable {id : ExtentId} {before : Extents} {task : Task}

theorem Task.Measured.step (now : UInt32) (delivery : Delivery) (steady : Steady id before task)
    (measured : task.Measured id before) :
    (Task.step now delivery before task).1.Measured id (Task.step now delivery before task).2 := by
  cases task with
  | call op => exact measured_start now id before _ op
  | getCall other retried => exact measured_afterFetch (fun _ _ => trivial) trivial
  | getCallAttr other buf retried => exact measured_afterFetch (fun _ _ => trivial) trivial
  | getattrCall other retried =>
      obtain rfl : other = id := steady.on
      obtain ⟨same, told⟩ := deliver_same delivery before.server (before.server.getattr other)
      refine measured_afterFetch (fun attr answer => ?_) trivial
      obtain ⟨extent, here, rfl⟩ := getattr_ok (told attr answer)
      intro stored found
      change stored ∈ (delivery.deliver before.server _).1.extentMap other at found
      rw [same, here] at found
      cases found
      rfl
  | getattrCallGet other attr retried =>
      obtain rfl : other = id := steady.on
      obtain ⟨content, -, told⟩ := deliver_get delivery before.server now other
      -- the content that is read is the one that was measured, whatever the RPC does
      have sized : ∀ stored,
          (delivery.deliver before.server (before.server.get now other)).1.extentMap other =
            some stored → attr.size = UInt32.ofNat stored.content.length := by
        intro stored found
        rw [found, Option.map_some] at content
        obtain ⟨old, here, same⟩ := Option.map_eq_some_iff.mp content.symm
        rw [← same]
        exact measured old here
      refine measured_afterFetch (fun buf answer => ?_) sized
      obtain ⟨stored, found, rfl⟩ := told buf answer
      exact sized stored found
  | setattrCallGet other attr retried => exact measured_afterFetch (fun _ _ => trivial) trivial
  | flushRemove other retried => exact measured_afterStore (fun _ => trivial) trivial
  | flushPut other address retried =>
      simp only [Task.step]
      split
      · trivial
      · dsimp only
        exact measured_afterStore (fun _ => trivial) trivial
  | flushSetattr other attr retried => exact measured_afterStore (fun _ => trivial) trivial
  | getInsert | getattrInsert | setattrInsert | flushErase | done => trivial

variable {reply : Reply} {op : Op}

/-- The first section of a call returns with an answer only when it finds an entry. -/
theorem start_answers (now : UInt32) (ordinary : op ≠ .flush op.id)
    (short : ∀ content ∈ before.files op.id, Short content)
    (returned : (Task.start now before op).1 = .done reply) :
    op.Answers (before.files op.id) reply := by
  have seen : ∀ address value, before.cache.lookup op.id = some (address, value) →
      before.files op.id = if value.deleted then none else some value.content := by
    intro address value hit
    rw [Extents.files, (PointerMap.map_of_lookup hit).2]
    rfl
  cases op with
  | put other buf | remove other =>
      cases returned
      rfl
  | flush other => exact absurd rfl ordinary
  | get other | setattr other attr =>
      simp only [Task.start] at returned
      split at returned
      next missed => cases returned
      next address value hit =>
        simp only [Op.id] at seen ⊢
        rw [seen address value hit]
        split at returned <;> cases returned <;> simp_all [Op.Answers]
  | getattr other =>
      simp only [Task.start] at returned
      split at returned
      next missed => cases returned
      next address value hit =>
        simp only [Op.id] at seen short ⊢
        rw [seen address value hit] at short ⊢
        split at returned
        next gone =>
          cases returned
          simp [Op.Answers, gone]
        next kept =>
          cases returned
          simp only [kept, Bool.false_eq_true, if_false] at short ⊢
          exact ⟨_, rfl, UInt32.toNat_ofNat_of_lt' (short _ rfl)⟩

variable {server : ExtentServer} {delivery : Delivery} {failure : Failure}

theorem deliver_noent {handled : ExtentServer × Except Failure α}
    (failed : (delivery.deliver server handled).2 = .error failure) :
    failure = .rpc ∨ handled.2 = .error failure := by
  cases delivery with
  | answered => exact .inr failed
  | lost | unanswered =>
      cases failed
      exact .inl rfl

theorem get_noent {now : UInt32} (failed : (server.get now id).2 = .error failure) :
    failure = .noent ∧ server.extentMap id = none := by
  rw [ExtentServer.get] at failed
  split at failed
  next => cases failed
  next absent =>
    cases failed
    exact ⟨rfl, absent⟩

theorem getattr_noent (failed : server.getattr id = .error failure) :
    failure = .noent ∧ server.extentMap id = none := by
  rw [ExtentServer.getattr] at failed
  split at failed
  next => cases failed
  next absent =>
    cases failed
    exact ⟨rfl, absent⟩

/-- A call without a file fails with `NOENT`, if it needs one. -/
theorem answers_noent (fetches : op.fetches = true) : op.Answers none (.failed .noent) := by
  cases op with
  | get | getattr | setattr => rfl
  | put | remove | flush => cases fetches

/-- A fetch that ends the call has failed, with `NOENT` for an extent that is not there. -/
theorem fetch_answers {handled : ExtentServer × Except Failure α} {next : α → Task}
    (absent : before.cache.find op.id = none) (fetches : op.fetches = true)
    (missing : ∀ {failure}, handled.2 = .error failure →
      failure = .noent ∧ before.server.extentMap op.id = none)
    (goesOn : ∀ value, next value ≠ .done reply) (repeated : again ≠ .done reply)
    (returned : Task.afterFetch (delivery.deliver before.server handled).2 next retried again =
      .done reply) : reply = .failed .rpc ∨ op.Answers (before.files op.id) reply := by
  unfold Task.afterFetch at returned
  split at returned
  next value _ => exact absurd returned (goesOn value)
  next failure failed =>
    split at returned
    · cases returned
      rcases deliver_noent failed with rfl | unfound
      · exact .inl rfl
      · obtain ⟨rfl, gone⟩ := missing unfound
        refine .inr ?_
        rw [Extents.files, absent, gone]
        exact answers_noent fetches
    · exact absurd returned repeated

theorem step_answers (now : UInt32) (ordinary : op ≠ .flush op.id) (serves : task.Serves op)
    (steady : Steady op.id before task) (measured : task.Measured op.id before)
    (short : ∀ content ∈ before.files op.id, Short content) (running : ∀ reply, task ≠ .done reply)
    (returned : (Task.step now delivery before task).1 = .done reply) :
    reply = .failed .rpc ∨ op.Answers (before.files op.id) reply := by
  have fetched : ∀ {buf : Bytes}, before.cache.find op.id = none →
      (∃ stored ∈ before.server.extentMap op.id, stored.content = buf) →
      before.files op.id = some buf := by
    rintro buf absent ⟨stored, found, rfl⟩
    rw [Extents.files, absent, found]
    rfl
  cases task with
  | call other =>
      obtain rfl := serves
      exact .inr (start_answers now ordinary short returned)
  | getCall other retried | setattrCallGet other _ retried =>
      obtain rfl := serves
      exact fetch_answers steady.fits rfl get_noent (by simp) (by simp) returned
  | getattrCallGet other attr retried =>
      obtain rfl := serves
      exact fetch_answers steady.fits.1 rfl get_noent (by simp) (by simp) returned
  | getCallAttr other buf retried =>
      obtain rfl := serves
      exact fetch_answers steady.fits.1 rfl getattr_noent (by simp) (by simp) returned
  | getattrCall other retried =>
      obtain rfl := serves
      exact fetch_answers steady.fits rfl getattr_noent (by simp) (by simp) returned
  | getInsert other buf attr =>
      obtain rfl := serves
      cases returned
      obtain ⟨absent, stored, found, content, -⟩ := steady.fits
      right
      rw [fetched absent ⟨stored, found, content⟩]
      rfl
  | getattrInsert other attr buf =>
      obtain rfl := serves
      cases returned
      obtain ⟨absent, stored, found, content, -⟩ := steady.fits
      right
      have seen := fetched absent ⟨stored, found, content⟩
      rw [seen] at short ⊢
      have size : attr.size = UInt32.ofNat buf.length := measured
      refine ⟨attr, rfl, ?_⟩
      rw [size]
      exact UInt32.toNat_ofNat_of_lt' (short buf rfl)
  | setattrInsert other attr buf =>
      obtain rfl := serves
      cases returned
      right
      rw [fetched steady.fits.1 steady.fits.2]
      rfl
  | flushRemove | flushPut | flushSetattr | flushErase =>
      obtain rfl := serves
      exact absurd rfl ordinary
  | done other => exact absurd rfl (running other)

end Ctgfs.Fs
