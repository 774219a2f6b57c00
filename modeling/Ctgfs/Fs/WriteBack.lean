import Ctgfs.Fs.TaskSteps
import Ctgfs.Lock.LocalExclusion

/-!
# Writing back before a lock is given up

`lock_release_user_impl` flushes the extent of a lock before the release RPC is sent.  It
drops what `flush` returns, so a lock is given up whether or not its extent was written back.
-/

namespace Ctgfs.Fs

open Foundation Lock

namespace Task

def Serves (op : Op) : Task → Prop
  | .call other => other = op
  | .getCall id _ | .getCallAttr id _ _ | .getInsert id _ _ => op = .get id
  | .getattrCall id _ | .getattrCallGet id _ _ | .getattrInsert id _ _ => op = .getattr id
  | .setattrCallGet id attr _ | .setattrInsert id attr _ => op = .setattr id attr
  | .flushRemove id _ | .flushPut id _ _ | .flushSetattr id _ _ | .flushErase id _ =>
      op = .flush id
  | .done _ => True

theorem serves_afterFetch {α : Type} {op : Op} {result : Except Failure α} {next : α → Task}
    {retried : Bool} {again : Task} (goesOn : ∀ value, (next value).Serves op)
    (repeated : again.Serves op) : (afterFetch result next retried again).Serves op := by
  unfold afterFetch
  split
  · exact goesOn _
  · split
    · trivial
    · exact repeated

theorem serves_afterStore {op : Op} {result : Except Failure Unit} {next : Reply → Task}
    {retried : Bool} {again : Task} (goesOn : ∀ reply, (next reply).Serves op)
    (repeated : again.Serves op) : (afterStore result next retried again).Serves op := by
  unfold afterStore
  split
  · exact goesOn _
  · exact goesOn _
  · split
    · trivial
    · exact repeated

theorem serves_start (now : UInt32) (extents : Extents) (op : Op) :
    (start now extents op).1.Serves op := by
  cases op <;> simp only [start] <;> (repeat' split) <;> trivial

variable {op : Op} {task : Task}

theorem Serves.step (serves : task.Serves op) (now : UInt32) (delivery : Delivery)
    (extents : Extents) : (step now delivery extents task).1.Serves op := by
  cases task with
  | call other =>
      obtain rfl := serves
      exact serves_start now extents other
  | getCall | getCallAttr | getattrCall | getattrCallGet | setattrCallGet =>
      exact serves_afterFetch (fun _ => serves) serves
  | flushRemove | flushSetattr => exact serves_afterStore (fun _ => serves) serves
  | flushPut id address retried =>
      simp only [Task.step]
      split
      · exact serves
      · dsimp only
        exact serves_afterStore (fun _ => serves) serves
  | getInsert | getattrInsert | setattrInsert | flushErase | done => trivial

theorem Serves.on (serves : task.Serves op) : task.On op.id := by
  cases task with
  | call other => exact congrArg Op.id serves
  | done reply => trivial
  | _ =>
      obtain rfl := serves
      rfl

theorem Serves.flushes {id : ExtentId} (serves : task.Serves (.flush id)) : task.Flushes := by
  cases task with
  | call other =>
      obtain rfl := serves
      trivial
  | flushRemove | flushPut | flushSetattr | flushErase | done => trivial
  | _ => cases serves

theorem Serves.flush_of_retried (serves : task.Serves op) (flushes : task.Flushes)
    (retried : task.retried = true) : op = .flush op.id := by
  cases task with
  | flushRemove | flushPut | flushSetattr =>
      obtain rfl := serves
      rfl
  | call | flushErase | done => cases retried
  | _ => cases flushes

theorem Serves.change_eq {now : UInt32} {delivery : Delivery} {extents : Extents}
    (serves : task.Serves op) (running : ∀ reply, task ≠ .done reply)
    (finished : (Task.step now delivery extents task).1 = .done .ok) (file : Option Bytes) :
    task.change file = op.change file := by
  cases task with
  | call other =>
      obtain rfl := serves
      rfl
  | setattrCallGet id attr retried =>
      simp only [Task.step, afterFetch] at finished
      split at finished
      · cases finished
      · split at finished <;> cases finished
  | done reply => exact absurd rfl (running reply)
  | _ =>
      obtain rfl := serves
      rfl

end Task

variable {t : ThreadId}

section Locks

variable {client next : LockClient} {event : ClientEvent} {lid : LockId}

theorem thread_eq_of_step (exclusive : client.Exclusive) (taken : client.step event = some next)
    (other : t ≠ event.actor) (awake : ∀ lid, client.thread t ≠ .acquireWait lid) :
    next.thread t = client.thread t := by
  obtain ⟨-, outcome⟩ := LockClient.step_outcome exclusive.coherent taken
  cases outcome with
  | ran lid trigger _ _ ran =>
      rcases ran.others t other with same | ⟨waited, -⟩
      · exact same
      · exact absurd waited (awake lid)
  | roused lid _ waited threads => rw [threads, Function.update_of_ne other]
  | died site shape => rw [shape]

theorem state_of_giveUp {trigger : Trigger} {pc after : Pc} {cell written : Cell}
    (turn : Turn lid trigger pc cell after written) {other : LockId}
    (gives : after = .releaseCall other ∨ after = .revokeCall other) :
    other = lid ∧ cell.state ≠ .releasing ∧ written.state = .releasing := by
  cases turn <;> simp_all

theorem giveUp_of_step (exclusive : client.Exclusive) (taken : client.step event = some next)
    (gives : next.thread event.actor = .releaseCall lid ∨
      next.thread event.actor = .revokeCall lid) :
    (client.cache lid).state ≠ .releasing ∧ (next.cache lid).state = .releasing := by
  obtain ⟨-, outcome⟩ := LockClient.step_outcome exclusive.coherent taken
  cases outcome with
  | ran other trigger _ _ ran =>
      obtain ⟨rfl, before, after⟩ := state_of_giveUp ran.turn gives
      exact ⟨before, after⟩
  | roused other _ waited threads =>
      rw [threads, Function.update_self] at gives
      rcases gives with same | same <;> cases same
  | died site shape released retried =>
      subst shape
      cases site with
      | release =>
          obtain ⟨other, holds, -⟩ := released rfl
          rw [holds] at gives
          rcases gives with same | same <;> cases same
      | retryHandler =>
          rw [retried rfl] at gives
          rcases gives with same | same <;> cases same

end Locks

inductive Errand where
  | idle
  /-- The call has come as far as the task says. -/
  | calling (op : Op) (task : Task)
  /-- The release RPC was sent. -/
  | sent
  deriving DecidableEq, Repr

/-- `release` and `revoke_handler` call `dorelease` before their RPC. -/
def Errand.after : Pc → Errand
  | .releaseCall lid | .revokeCall lid => .calling (.flush lid) (.call (.flush lid))
  | _ => .idle

def Errand.before : ClientEvent → Errand
  | .releaseReturn _ | .revokeReturn _ => .sent
  | _ => .idle

/-- A client: its locks, its extents and what its threads do.  `files` are the contents that
its calls have given to the numbers. -/
structure FsClient where
  locks : LockClient
  extents : Extents
  errand : ThreadId → Errand
  files : Files

inductive FsEvent where
  /-- A section of the lock client. -/
  | lock (event : ClientEvent)
  /-- A thread calls the extent cache. -/
  | call (t : ThreadId) (op : Op)
  /-- A step of the call of a thread. -/
  | work (t : ThreadId) (now : UInt32) (delivery : Delivery)
  /-- A call returns to the thread that holds the lock. -/
  | back (t : ThreadId)
  /-- `dorelease` returns and the release RPC is sent. -/
  | send (t : ThreadId)
  deriving DecidableEq, Repr

namespace FsClient

def initial (server : ExtentServer) : FsClient where
  locks := .initial
  extents := ⟨.empty, server⟩
  errand := fun _ => .idle
  files := fun id => (server.extentMap id).map Extent.content

/-- One step of a client.  `yfs_client` calls the cache under the lock of the number and never
calls `flush`. -/
def step (client : FsClient) : FsEvent → Option FsClient
  | .lock event =>
      if client.errand event.actor = .before event then
        (client.locks.step event).map fun locks =>
          { client with
            locks
            errand := Function.update client.errand event.actor
              (.after (locks.thread event.actor)) }
      else none
  | .call t op =>
      if client.locks.thread t = .holding op.id ∧ client.errand t = .idle ∧ op ≠ .flush op.id then
        some { client with errand := Function.update client.errand t (.calling op (.call op)) }
      else none
  | .work t now delivery =>
      match client.errand t with
      | .calling _ (.done _) => none
      | .calling op task =>
          let (next, extents) := Task.step now delivery client.extents task
          some { client with
            extents
            errand := Function.update client.errand t (.calling op next)
            files := if next = .done .ok then op.apply client.files else client.files }
      | _ => none
  | .back t =>
      match client.errand t, client.locks.thread t with
      | .calling _ (.done _), .holding _ =>
          some { client with errand := Function.update client.errand t .idle }
      | _, _ => none
  | .send t =>
      match client.errand t, client.locks.thread t with
      | .calling _ (.done _), .releaseCall _ | .calling _ (.done _), .revokeCall _ =>
          some { client with errand := Function.update client.errand t .sent }
      | _, _ => none

def Flushing (client : FsClient) (lid : LockId) : Prop :=
  ∃ t task, client.errand t = .calling (.flush lid) task

def WrittenBack (client : FsClient) (lid : LockId) : Prop :=
  (client.extents.server.extentMap lid).map Extent.content = client.files lid ∧
    ∀ value ∈ client.extents.cache.find lid, value.dirty = false

/-- What is assumed of a step: no RPC of a `flush` fails twice, nobody takes a lock out of
`RELEASING` while its extent is being written back, and the contents are short. -/
def Careful (client : FsClient) : FsEvent → Prop
  | .lock event => ∀ locks ∈ client.locks.step event, ∀ lid, client.Flushing lid →
      (locks.cache lid).state = .releasing
  | .call _ op => op.Short
  | .work t _ delivery => ∀ lid task, client.errand t = .calling (.flush lid) task →
      task.retried = true → delivery = .answered
  | .back _ | .send _ => True

structure Underway (client : FsClient) (t : ThreadId) (op : Op) (task : Task) : Prop where
  small : op.Short
  serves : task.Serves op
  steady : Steady op.id client.extents task
  holds : op ≠ .flush op.id → client.locks.thread t = .holding op.id
  releases : op = .flush op.id →
    (client.locks.thread t = .releaseCall op.id ∨ client.locks.thread t = .revokeCall op.id) ∧
      (client.locks.cache op.id).state = .releasing ∧
      ∀ reply, task = .done reply → client.extents.cache.find op.id = none

structure Orderly (client : FsClient) : Prop where
  exclusive : client.locks.Exclusive
  underway : ∀ t op task, client.errand t = .calling op task → client.Underway t op task
  alone : ∀ t u lid task other, client.errand t = .calling (.flush lid) task →
    client.errand u = .calling (.flush lid) other → t = u
  mirrors : ∀ id, Mirrors (client.extents.cache.find id) (client.extents.server.extentMap id)
  files : client.extents.files = client.files
  short : ∀ id, ∀ content ∈ client.files id, Short content

variable {client next : FsClient}

theorem Orderly.initial {server : ExtentServer}
    (short : ∀ id, ∀ extent ∈ server.extentMap id, Short extent.content) :
    (initial server).Orderly := by
  constructor
  · exact LockClient.Exclusive.initial
  · rintro t op task ⟨⟩
  · rintro t u lid task other ⟨⟩
  · rintro id value ⟨⟩
  · rfl
  · intro id content here
    obtain ⟨extent, found, rfl⟩ := Option.mem_map.mp here
    exact short id extent found

theorem Orderly.same_thread (orderly : client.Orderly) {u : ThreadId} {op other : Op}
    {task task' : Task} (first : client.errand t = .calling op task)
    (second : client.errand u = .calling other task') (same : other.id = op.id) : t = u := by
  have mine := orderly.underway t op task first
  have yours := orderly.underway u other task' second
  by_cases flush : op = .flush op.id
  · by_cases flush' : other = .flush other.id
    · rw [flush'] at second
      rw [flush] at first
      rw [same] at second
      exact orderly.alone t u op.id task task' first second
    · have locked := (orderly.exclusive.held op.id).mpr ⟨u, same ▸ yours.holds flush'⟩
      rw [(mine.releases flush).2.1] at locked
      cases locked
  · by_cases flush' : other = .flush other.id
    · have locked := (orderly.exclusive.held op.id).mpr ⟨t, mine.holds flush⟩
      rw [← same, (yours.releases flush').2.1] at locked
      cases locked
    · exact orderly.exclusive.unique op.id t u (mine.holds flush) (same ▸ yours.holds flush')

theorem Errand.after_eq_calling {pc : Pc} {op : Op} {task : Task}
    (calls : Errand.after pc = .calling op task) :
    op = .flush op.id ∧ task = .call op ∧ (pc = .releaseCall op.id ∨ pc = .revokeCall op.id) := by
  cases pc <;> simp_all [Errand.after]
  all_goals
    obtain ⟨rfl, rfl⟩ := calls
    simp [Op.id]

theorem Orderly.lock (orderly : client.Orderly) {event : ClientEvent} {locks : LockClient}
    (careful : client.Careful (.lock event)) (taken : client.locks.step event = some locks) :
    { client with
      locks
      errand := Function.update client.errand event.actor
        (.after (locks.thread event.actor)) }.Orderly := by
  have kept : ∀ t op task, t ≠ event.actor → client.errand t = .calling op task →
      locks.thread t = client.locks.thread t := by
    intro t op task other calls
    apply thread_eq_of_step orderly.exclusive taken other
    intro lid waits
    have call := orderly.underway t op task calls
    by_cases flush : op = .flush op.id
    · rcases (call.releases flush).1 with position | position <;> simp [position] at waits
    · simp [call.holds flush] at waits
  have fresh : ∀ op task, Errand.after (locks.thread event.actor) = .calling op task →
      ¬ client.Flushing op.id := by
    rintro op task calls ⟨u, other, flushes⟩
    obtain ⟨-, -, gives⟩ := Errand.after_eq_calling calls
    have releasing := ((orderly.underway u _ other flushes).releases rfl).2.1
    exact (giveUp_of_step orderly.exclusive taken gives).1 releasing
  refine ⟨orderly.exclusive.step taken, ?_, ?_, orderly.mirrors, orderly.files, orderly.short⟩
  · intro t op task calls
    by_cases mine : t = event.actor
    · subst mine
      simp only [Function.update_self] at calls
      obtain ⟨flush, rfl, gives⟩ := Errand.after_eq_calling calls
      refine ⟨flush ▸ trivial, rfl, ⟨rfl, trivial, orderly.mirrors _⟩,
        fun other => absurd flush other, fun _ => ?_⟩
      exact ⟨gives, (giveUp_of_step orderly.exclusive taken gives).2, by simp⟩
    · simp only [Function.update_of_ne mine] at calls
      have call := orderly.underway t op task calls
      have position := kept t op task mine calls
      refine ⟨call.small, call.serves, call.steady, fun other => ?_, fun flush => ?_⟩
      · exact position.trans (call.holds other)
      · obtain ⟨gives, -, done⟩ := call.releases flush
        refine ⟨?_, ?_, done⟩
        · simp only [position]
          exact gives
        · exact careful locks taken op.id ⟨t, task, flush ▸ calls⟩
  · intro t u lid task other first second
    by_cases mine : t = event.actor
    · by_cases yours : u = event.actor
      · rw [mine, yours]
      · subst mine
        simp only [Function.update_self, Function.update_of_ne yours] at first second
        exact absurd ⟨u, other, second⟩ (fresh _ _ first)
    · by_cases yours : u = event.actor
      · subst yours
        simp only [Function.update_self, Function.update_of_ne mine] at first second
        exact absurd ⟨t, task, first⟩ (fresh _ _ second)
      · simp only [Function.update_of_ne mine, Function.update_of_ne yours] at first second
        exact orderly.alone t u lid task other first second

theorem Underway.agree {op : Op} {task : Task} (call : client.Underway t op task)
    (locks : next.locks = client.locks) (same : Agree op.id client.extents next.extents) :
    next.Underway t op task := by
  have steady : Steady op.id next.extents task := by
    refine ⟨call.steady.on, call.steady.fits.agree same, ?_⟩
    rw [same.find, same.extentMap]
    exact call.steady.mirrors
  refine ⟨call.small, call.serves, steady, locks ▸ call.holds, fun flush => ?_⟩
  rw [locks, same.find]
  exact call.releases flush

theorem Underway.advance {op : Op} {task rest : Task} (call : client.Underway t op task)
    (locks : next.locks = client.locks) (serves : rest.Serves op)
    (advanced : Advanced op.id client.extents task next.extents rest) :
    next.Underway t op rest := by
  refine ⟨call.small, serves, advanced.steady, locks ▸ call.holds, fun flush => ?_⟩
  obtain ⟨gives, releasing, -⟩ := call.releases flush
  have flushes : task.Flushes := Task.Serves.flushes (flush ▸ call.serves)
  rw [locks]
  exact ⟨gives, releasing, (advanced.flushes flushes).2⟩

/-- A step gives the number of its call the content that the call is for, and only in the
step with which the call returns. -/
theorem files_of_advanced {extents after : Extents} {op : Op} {task rest : Task}
    (advanced : Advanced op.id extents task after rest)
    (frame : ∀ id, id ≠ op.id → Agree id extents after)
    (changes : rest = .done .ok →
      task.change (extents.files op.id) = op.change (extents.files op.id)) :
    after.files = if rest = .done .ok then op.apply extents.files else extents.files := by
  funext id
  by_cases here : id = op.id
  · subst here
    rw [advanced.files]
    split
    next finished => rw [changes finished, Op.apply, Function.update_self]
    next unfinished => rfl
  · rw [(frame id here).files]
    split
    next finished => rw [Op.apply, Function.update_of_ne here]
    next unfinished => rfl

theorem short_apply {files : Files} {op : Op} (short : ∀ id, ∀ content ∈ files id, Short content)
    (small : op.Short) (id : ExtentId) : ∀ content ∈ op.apply files id, Short content := by
  by_cases here : id = op.id
  · subst here
    rw [Op.apply, Function.update_self]
    exact short_change (short _) small
  · rw [Op.apply, Function.update_of_ne here]
    exact short id

theorem Orderly.errand (orderly : client.Orderly) {errand : Errand}
    (started : ∀ op task, errand = .calling op task →
      op ≠ .flush op.id ∧ client.Underway t op task) :
    { client with errand := Function.update client.errand t errand }.Orderly := by
  refine ⟨orderly.exclusive, ?_, ?_, orderly.mirrors, orderly.files, orderly.short⟩
  · intro u op task calls
    by_cases mine : u = t
    · subst mine
      simp only [Function.update_self] at calls
      exact (started op task calls).2.agree rfl (.refl _ _)
    · simp only [Function.update_of_ne mine] at calls
      exact (orderly.underway u op task calls).agree rfl (.refl _ _)
  · intro u v lid task other first second
    have elsewhere : ∀ w task, Function.update client.errand t errand w =
        .calling (.flush lid) task → client.errand w = .calling (.flush lid) task := by
      intro w task calls
      by_cases mine : w = t
      · subst mine
        rw [Function.update_self] at calls
        exact absurd rfl (started _ _ calls).1
      · rwa [Function.update_of_ne mine] at calls
    exact orderly.alone u v lid task other (elsewhere u task first) (elsewhere v other second)

theorem Orderly.work (orderly : client.Orderly) {now : UInt32} {delivery : Delivery} {op : Op}
    {task : Task} (careful : client.Careful (.work t now delivery))
    (calls : client.errand t = .calling op task) (running : ∀ reply, task ≠ .done reply) :
    { client with
      extents := (Task.step now delivery client.extents task).2
      errand := Function.update client.errand t
        (.calling op (Task.step now delivery client.extents task).1)
      files := if (Task.step now delivery client.extents task).1 = Task.done .ok then
        op.apply client.files else client.files }.Orderly := by
  have call := orderly.underway t op task calls
  have short : ∀ content ∈ client.extents.files op.id, Short content := by
    rw [orderly.files]
    exact orderly.short op.id
  have advanced : Advanced op.id client.extents task
      (Task.step now delivery client.extents task).2
      (Task.step now delivery client.extents task).1 :=
    step_advanced now call.steady short (fun flushes retried => careful op.id task
      (call.serves.flush_of_retried flushes retried ▸ calls) retried) running
  have frame : ∀ id, id ≠ op.id →
      Agree id client.extents (Task.step now delivery client.extents task).2 := fun id apart =>
    step_frame now delivery call.steady.on apart
  have contents := files_of_advanced advanced frame fun finished =>
    call.serves.change_eq running finished _
  rw [orderly.files] at contents
  have serves := call.serves.step now delivery client.extents
  generalize Task.step now delivery client.extents task = reached at *
  obtain ⟨rest, extents⟩ := reached
  dsimp only at advanced frame contents serves ⊢
  refine ⟨orderly.exclusive, ?_, ?_, ?_, contents, ?_⟩
  · intro u other task' calling
    by_cases mine : u = t
    · subst mine
      simp only [Function.update_self, Errand.calling.injEq] at calling
      obtain ⟨rfl, rfl⟩ := calling
      exact call.advance rfl serves advanced
    · simp only [Function.update_of_ne mine] at calling
      have apart : other.id ≠ op.id := fun same =>
        mine (orderly.same_thread calls calling same).symm
      exact (orderly.underway u other task' calling).agree rfl (frame other.id apart)
  · intro u v lid first second flushes flushes'
    have before : ∀ w task', Function.update client.errand t (.calling op rest) w =
        .calling (.flush lid) task' →
          ∃ earlier, client.errand w = .calling (.flush lid) earlier := by
      intro w task' calling
      by_cases mine : w = t
      · subst mine
        rw [Function.update_self, Errand.calling.injEq] at calling
        exact ⟨task, calling.1 ▸ calls⟩
      · rw [Function.update_of_ne mine] at calling
        exact ⟨task', calling⟩
    obtain ⟨_, flushes⟩ := before u first flushes
    obtain ⟨_, flushes'⟩ := before v second flushes'
    exact orderly.alone u v lid _ _ flushes flushes'
  · intro id
    by_cases here : id = op.id
    · rw [here]
      exact advanced.steady.mirrors
    · rw [(frame id here).find, (frame id here).extentMap]
      exact orderly.mirrors id
  · intro id
    dsimp only
    split
    next finished => exact short_apply orderly.short call.small id
    next unfinished => exact orderly.short id

theorem Orderly.step (orderly : client.Orderly) {event : FsEvent} (careful : client.Careful event)
    (taken : client.step event = some next) : next.Orderly := by
  cases event with
  | lock event =>
      simp only [FsClient.step, Option.ite_none_right_eq_some, Option.map_eq_some_iff] at taken
      obtain ⟨-, locks, taken, rfl⟩ := taken
      exact orderly.lock careful taken
  | call t op =>
      simp only [FsClient.step, Option.ite_none_right_eq_some, Option.some.injEq] at taken
      obtain ⟨⟨holds, -, ordinary⟩, rfl⟩ := taken
      refine orderly.errand ?_
      rintro op task ⟨⟩
      exact ⟨ordinary, careful, rfl, ⟨rfl, trivial, orderly.mirrors _⟩, fun _ => holds,
        fun flush => absurd flush ordinary⟩
  | work t now delivery =>
      simp only [FsClient.step] at taken
      split at taken
      next => cases taken
      next op task running calls =>
        cases taken
        exact orderly.work careful calls running
      next => cases taken
  | back t =>
      simp only [FsClient.step] at taken
      split at taken
      next =>
        cases taken
        exact orderly.errand (by simp)
      next => cases taken
  | send t =>
      simp only [FsClient.step] at taken
      split at taken
      next =>
        cases taken
        exact orderly.errand (by simp)
      next =>
        cases taken
        exact orderly.errand (by simp)
      next => cases taken

abbrev CarefulStep : FsClient → FsEvent → FsClient → Prop :=
  Guarded (StepOf FsClient.step) Careful

theorem orderly_of_run {server : ExtentServer} {events : List FsEvent}
    (stored : ∀ id, ∀ extent ∈ server.extentMap id, Short extent.content)
    (run : Run CarefulStep (initial server) events client) : client.Orderly :=
  run.invariant Orderly (.initial stored) fun _ _ _ orderly taken =>
    orderly.step taken.1 taken.2

end FsClient

/-- When no RPC of a `flush` fails twice and nobody takes a lock out of `RELEASING` during the
`flush`, the extent has been written back whenever the release RPC is sent, in every
interleaving of the threads. -/
theorem written_back_before_release {server : ExtentServer} {events : List FsEvent}
    {client next : FsClient} {t : ThreadId} {lid : LockId}
    (stored : ∀ id, ∀ extent ∈ server.extentMap id, Short extent.content)
    (run : Run FsClient.CarefulStep (.initial server) events client)
    (sends : client.step (.send t) = some next)
    (releases : client.locks.thread t = .releaseCall lid ∨
      client.locks.thread t = .revokeCall lid) : client.WrittenBack lid := by
  have orderly := FsClient.orderly_of_run stored run
  obtain ⟨op, reply, calls⟩ : ∃ op reply, client.errand t = .calling op (.done reply) := by
    simp only [FsClient.step] at sends
    split at sends
    next op reply _ calls _ => exact ⟨op, reply, calls⟩
    next op reply _ calls _ => exact ⟨op, reply, calls⟩
    next => cases sends
  have call := orderly.underway t op _ calls
  have flush : op = .flush op.id := by
    by_contra other
    rw [call.holds other] at releases
    rcases releases with same | same <;> cases same
  obtain ⟨position, -, done⟩ := call.releases flush
  obtain rfl : lid = op.id := by
    rcases releases with here | here <;> rcases position with there | there <;>
      cases here.symm.trans there <;> rfl
  have gone := done reply rfl
  constructor
  · rw [← orderly.files, Extents.files, gone]
    rfl
  · rw [gone]
    rintro value ⟨⟩

/-- A thread puts an extent, the lock is revoked, and the put RPC of the `flush` fails once. -/
theorem written_back_after_retry :
    ∃ client, Run FsClient.CarefulStep (.initial ⟨fun _ => none, []⟩)
        [.lock (.acquire 0 7), .lock (.acquireReturn 0 .ok), .call 0 (.put 7 [97]),
          .work 0 10 .answered, .back 0, .lock (.revokeHandler 1 7), .lock (.release 0 none),
          .work 0 20 .answered, .work 0 20 .lost, .work 0 20 .answered, .work 0 20 .answered,
          .work 0 20 .answered] client ∧
      client.files 7 = some [97] ∧ client.WrittenBack 7 := by
  have careful : Meets FsClient.step FsClient.Careful (.initial ⟨fun _ => none, []⟩)
      [.lock (.acquire 0 7), .lock (.acquireReturn 0 .ok), .call 0 (.put 7 [97]),
        .work 0 10 .answered, .back 0, .lock (.revokeHandler 1 7), .lock (.release 0 none),
        .work 0 20 .answered, .work 0 20 .lost, .work 0 20 .answered, .work 0 20 .answered,
        .work 0 20 .answered] := by
    refine ⟨?_, ?_⟩
    · rintro _ ⟨⟩ lid ⟨t, task, calls⟩
      cases calls
    rintro _ ⟨⟩
    refine ⟨?_, ?_⟩
    · rintro _ ⟨⟩ lid ⟨t, task, calls⟩
      rcases t with _ | t <;> cases calls
    rintro _ ⟨⟩
    refine ⟨show 1 < UInt32.size by decide, ?_⟩
    rintro _ ⟨⟩
    refine ⟨by rintro lid task ⟨⟩, ?_⟩
    rintro _ ⟨⟩
    refine ⟨trivial, ?_⟩
    rintro _ ⟨⟩
    refine ⟨?_, ?_⟩
    · rintro _ ⟨⟩ lid ⟨t, task, calls⟩
      rcases t with _ | t <;> cases calls
    rintro _ ⟨⟩
    refine ⟨?_, ?_⟩
    · rintro _ ⟨⟩ lid ⟨t, task, calls⟩
      rcases t with _ | _ | t <;> cases calls
    rintro _ ⟨⟩
    refine ⟨fun _ _ _ _ => rfl, ?_⟩
    rintro _ ⟨⟩
    refine ⟨?_, ?_⟩
    · rintro lid task ⟨⟩ ⟨⟩
    rintro _ ⟨⟩
    refine ⟨fun _ _ _ _ => rfl, ?_⟩
    rintro _ ⟨⟩
    refine ⟨fun _ _ _ _ => rfl, ?_⟩
    rintro _ ⟨⟩
    exact ⟨fun _ _ _ _ => rfl, fun _ _ => trivial⟩
  have run := guarded_of_exec rfl careful
  refine ⟨_, run, rfl, written_back_before_release (t := 0) ?_ run rfl (.inl rfl)⟩
  rintro id extent ⟨⟩

/-- The put RPC of the `flush` fails twice.  The release RPC is sent with the new content only
in the cache. -/
theorem released_unflushed :
    ∃ client next, Run (StepOf FsClient.step) (.initial ⟨fun _ => none, []⟩)
        [.lock (.acquire 0 7), .lock (.acquireReturn 0 .ok), .call 0 (.put 7 [97]),
          .work 0 10 .answered, .back 0, .lock (.revokeHandler 1 7), .lock (.release 0 none),
          .work 0 20 .answered, .work 0 20 .lost, .work 0 20 .lost] client ∧
      client.step (.send 0) = some next ∧ client.locks.thread 0 = .releaseCall 7 ∧
      client.files 7 = some [97] ∧ client.extents.server.extentMap 7 = none ∧
      ¬ client.WrittenBack 7 := by
  have run := run_of_exec (rfl : exec FsClient.step (.initial ⟨fun _ => none, []⟩)
    [.lock (.acquire 0 7), .lock (.acquireReturn 0 .ok), .call 0 (.put 7 [97]),
      .work 0 10 .answered, .back 0, .lock (.revokeHandler 1 7), .lock (.release 0 none),
      .work 0 20 .answered, .work 0 20 .lost, .work 0 20 .lost] = some _)
  refine ⟨_, _, run, rfl, rfl, rfl, rfl, ?_⟩
  rintro ⟨same, -⟩
  cases same

end Ctgfs.Fs
