import Ctgfs.Fs.TaskAnswers
import Ctgfs.Lock.MutualExclusion

/-!
# Several clients of one extent server

Every client has an extent cache of its own in front of the one extent server.  The locks say
who may use the cache for a number, and a lock is given up only after its extent has been
written back.  To the threads that hold the locks, the caches and the server are one map of
files.
-/

namespace Ctgfs.Lock

/-- The events in which a thread of a client runs a section. -/
def Event.runs : Event → Bool
  | .act _ _ | .handle _ _ | .deliver _ _ => true
  | .serve _ | .acknowledge _ => false

namespace World

def concerned (world : World) : Event → Caller
  | .act c event => (c, event.actor)
  | .handle caller handler =>
      match world.wire caller with
      | .callback _ _ _ target => (target, handler)
      | _ => caller
  | .serve caller | .acknowledge caller | .deliver caller _ => caller

/-- What the others see of a section that a thread runs. -/
structure Runs (world : World) (caller : Caller) (next : World) : Prop where
  server : next.server = world.server
  own : next.wire caller = (next.thread caller).wire
  threads : ∀ other, other ≠ caller → (∀ lid, world.thread other ≠ .acquireWait lid) →
    next.thread other = world.thread other
  asks : ∀ other, other ≠ caller → (next.wire other).asks = (world.wire other).asks

variable {world next : World} {event : Event} {c : ClientId}

theorem Ran.runs {action : ClientEvent} (ran : world.Ran c action next) :
    world.Runs (c, action.actor) next := by
  refine ⟨ran.server, ran.own, fun other apart awake => ?_, fun other apart => ?_⟩
  · by_cases here : other.1 = c
    · have distinct : other.2 ≠ action.actor := fun same => apart (Prod.ext here same)
      subst here
      cases ran.outcome with
      | ran lid trigger _ _ row =>
          rcases row.others other.2 distinct with same | ⟨waited, -⟩
          · exact same
          · exact absurd waited (awake lid)
      | roused lid _ _ threads _ _ =>
          rw [thread, threads, Function.update_of_ne distinct]
          rfl
      | died site shape _ _ =>
          rw [thread, shape]
          rfl
    · rw [thread, thread, ran.clients _ here]
  · rw [ran.wires other apart]

theorem outside_of_callback {client after : LockClient} {kind : Callback} {handler : ThreadId}
    {lid : LockId} (taken : client.step (kind.event handler lid) = some after) :
    client.thread handler = .outside := by
  cases kind <;> simp only [Callback.event, LockClient.step, ClientEvent.actor] at taken <;>
    split at taken <;> try cases taken
  all_goals
    split at taken <;> simp_all

theorem Linked.runs (linked : world.Linked) (taken : world.step event = some next)
    (runs : event.runs = true) : world.Runs (world.concerned event) next := by
  cases event with
  | act c action =>
      simp only [World.step, Option.ite_none_right_eq_some] at taken
      exact (linked.ran taken.2).runs
  | handle caller handler =>
      simp only [World.step] at taken
      split at taken
      next request r kind target called =>
        obtain ⟨middle, ran, rfl⟩ := Option.map_eq_some_iff.mp taken
        have section' := (linked.ran ran).runs
        rw [Callback.event_actor] at section'
        have here : world.concerned (.handle caller handler) = (target, handler) := by
          simp only [concerned, called]
        rw [here]
        split
        · exact section'
        · -- the caller waits for its RPC, so it is not the thread that handles the callback
          have apart : caller ≠ (target, handler) := by
            rintro rfl
            obtain ⟨after, step, -⟩ := Option.map_eq_some_iff.mp ran
            have inside : (world.thread (target, handler)).request = some request := by
              rw [← linked.subject, called]
              rfl
            rw [thread, outside_of_callback step] at inside
            cases inside
          refine ⟨section'.server, ?_, section'.threads, fun other different => ?_⟩
          · exact (Function.update_of_ne apart.symm _ _).trans section'.own
          · by_cases parent : other = caller
            · subst parent
              simp only [World.setWire, Function.update_self, Wire.asks, called]
            · simp only [World.setWire, Function.update_of_ne parent]
              exact section'.asks other different
      next => cases taken
  | deliver caller woken =>
      simp only [World.step] at taken
      split at taken
      next request r answered =>
        obtain ⟨action, returns, ran⟩ := Option.bind_eq_some_iff.mp taken
        have actor : action.actor = caller.2 := by
          cases position : world.thread caller <;> rw [position] at returns <;>
            cases returns <;> rfl
        have section' := (linked.ran ran).runs
        rw [actor] at section'
        exact section'
      next => cases taken
  | serve caller | acknowledge caller => cases runs

end World

end Ctgfs.Lock

namespace Ctgfs.Fs

open Foundation Lock

/-- One call on a map of files.  A call that fails with an RPC has done nothing. -/
inductive Files.Called : Files → Op × Reply → Files → Prop where
  | answered {files : Files} {op : Op} {reply : Reply} : op.Answers (files op.id) reply →
      Called files (op, reply) (op.apply files)
  | failed {files : Files} {op : Op} : Called files (op, .failed .rpc) files

/-- What a thread at a position must have done when an event of the lock system concerns it. -/
def Errand.due : Pc → Errand
  | .releaseCall _ | .revokeCall _ => .sent
  | _ => .idle

/-- The clients with their locks and their caches, and the extent server.  The calls that have
returned are logged in their order. -/
structure Cluster where
  world : World
  server : ExtentServer
  cache : ClientId → ExtentCache
  errand : Caller → Errand
  log : List (Op × Reply)

inductive ClusterEvent where
  /-- A step of the lock system. -/
  | lock (event : Event)
  /-- A thread calls the extent cache of its client. -/
  | call (caller : Caller) (op : Op)
  /-- A step of the call of a thread. -/
  | work (caller : Caller) (now : UInt32) (delivery : Delivery)
  /-- A call returns to the thread that holds the lock. -/
  | back (caller : Caller)
  /-- `dorelease` returns and the release RPC is sent. -/
  | send (caller : Caller)
  deriving DecidableEq, Repr

namespace Cluster

def initial (server : ExtentServer) : Cluster where
  world := .initial
  server
  cache := fun _ => .empty
  errand := fun _ => .idle
  log := []

def extents (cluster : Cluster) (c : ClientId) : Extents :=
  ⟨cluster.cache c, cluster.server⟩

def alive (cluster : Cluster) (c : ClientId) : Bool :=
  (cluster.world.client c).aborted.isNone

/-- What is logged of a call that has come as far as a task; nobody reads the reply of a
`flush`. -/
def logged (op : Op) : Task → List (Op × Reply)
  | .done reply => if op = .flush op.id then [] else [(op, reply)]
  | _ => []

/-- One step of the system.  A release RPC is sent after the `flush` of its extent. -/
def step (cluster : Cluster) : ClusterEvent → Option Cluster
  | .lock event =>
      let caller := cluster.world.concerned event
      if cluster.errand caller = .due (cluster.world.thread caller) then
        (cluster.world.step event).map fun world =>
          { cluster with
            world
            errand :=
              if event.runs then
                Function.update cluster.errand caller (.after (world.thread caller))
              else cluster.errand }
      else none
  | .call caller op =>
      if cluster.alive caller.1 ∧ cluster.world.thread caller = .holding op.id ∧
          cluster.errand caller = .idle ∧ op ≠ .flush op.id then
        some { cluster with
          errand := Function.update cluster.errand caller (.calling op (.call op)) }
      else none
  | .work caller now delivery =>
      match cluster.alive caller.1, cluster.errand caller with
      | true, .calling _ (.done _) => none
      | true, .calling op task =>
          let (next, extents) := Task.step now delivery (cluster.extents caller.1) task
          some { cluster with
            server := extents.server
            cache := Function.update cluster.cache caller.1 extents.cache
            errand := Function.update cluster.errand caller (.calling op next)
            log := cluster.log ++ logged op next }
      | _, _ => none
  | .back caller =>
      match cluster.alive caller.1, cluster.errand caller, cluster.world.thread caller with
      | true, .calling _ (.done _), .holding _ =>
          some { cluster with errand := Function.update cluster.errand caller .idle }
      | _, _, _ => none
  | .send caller =>
      match cluster.alive caller.1, cluster.errand caller, cluster.world.thread caller with
      | true, .calling _ (.done _), .releaseCall _ | true, .calling _ (.done _), .revokeCall _ =>
          some { cluster with errand := Function.update cluster.errand caller .sent }
      | _, _, _ => none

/-- What is assumed of a step: the messages of the lock system stay in order, no RPC of a
`flush` fails twice, and the contents are short. -/
def Careful (cluster : Cluster) : ClusterEvent → Prop
  | .lock event => cluster.world.Orderly event
  | .call _ op => op.Short
  | .work caller _ delivery => ∀ lid task, cluster.errand caller = .calling (.flush lid) task →
      task.retried = true → delivery = .answered
  | .back _ | .send _ => True

structure Underway (cluster : Cluster) (caller : Caller) (op : Op) (task : Task) : Prop where
  small : op.Short
  serves : task.Serves op
  steady : Steady op.id (cluster.extents caller.1) task
  measured : task.Measured op.id (cluster.extents caller.1)
  holds : op ≠ .flush op.id → cluster.world.thread caller = .holding op.id
  releases : op = .flush op.id →
    (cluster.world.wire caller).asks = some (.release op.id) ∧
      ∀ reply, task = .done reply → (cluster.cache caller.1).find op.id = none

/-- The caches and the server are one map of files: a number is in the cache of the holder of
its lock only, and a client that has no other holder beside it sees the file. -/
structure Coherent (cluster : Cluster) (files : Files) : Prop where
  linked : cluster.world.Linked
  exclusive : cluster.world.Exclusive
  clients : ∀ c, (cluster.world.client c).Exclusive
  underway : ∀ caller op task, cluster.errand caller = .calling op task →
    cluster.Underway caller op task
  given : ∀ caller lid, cluster.errand caller = .sent →
    (cluster.world.wire caller).asks = some (.release lid) →
    (cluster.cache caller.1).find lid = none
  absent : ∀ c lid, (cluster.world.server lid).holder ≠ some c → (cluster.cache c).find lid = none
  mirrors : ∀ c id, Mirrors ((cluster.cache c).find id) (cluster.server.extentMap id)
  seen : ∀ c id, (∀ d, (cluster.world.server id).holder = some d → d = c) →
    (cluster.extents c).files id = files id
  short : ∀ id, ∀ content ∈ files id, Short content

def stored (server : ExtentServer) : Files :=
  fun id => (server.extentMap id).map Extent.content

variable {cluster next : Cluster} {files : Files} {caller : Caller} {op : Op} {task : Task}

theorem Coherent.initial {server : ExtentServer}
    (short : ∀ id, ∀ extent ∈ server.extentMap id, Short extent.content) :
    (initial server).Coherent (stored server) where
  linked := .initial
  exclusive := .initial
  clients := fun _ => .initial
  underway := by rintro caller op task ⟨⟩
  given := by rintro caller lid ⟨⟩
  absent := fun _ _ _ => rfl
  mirrors := by rintro c id value ⟨⟩
  seen := fun _ _ _ => rfl
  short := by
    intro id content here
    obtain ⟨extent, found, rfl⟩ := Option.mem_map.mp here
    exact short id extent found

section

variable (coherent : cluster.Coherent files)

include coherent

theorem Coherent.entitled {lid : LockId} (holds : cluster.world.thread caller = .holding lid) :
    (cluster.world.server lid).holder = some caller.1 ∧
      ∀ t, (cluster.world.wire (caller.1, t)).asks ≠ some (.release lid) := by
  have locked := ((coherent.clients caller.1).held lid).mpr ⟨caller.2, holds⟩
  obtain ⟨-, owner, keeps⟩ := coherent.exclusive.entitled _ _ (.inl (.inr locked))
  exact ⟨owner, fun t asks => keeps ⟨t, asks⟩⟩

theorem Coherent.holder (calls : cluster.errand caller = .calling op task) :
    (cluster.world.server op.id).holder = some caller.1 := by
  have call := coherent.underway caller op task calls
  by_cases flush : op = .flush op.id
  · exact (coherent.exclusive.giving _ _ caller.2 (call.releases flush).1).2.1
  · exact (coherent.entitled (call.holds flush)).1

theorem Coherent.own {c : ClientId} {id : ExtentId}
    (owner : (cluster.world.server id).holder = some c) : (cluster.extents c).files id = files id :=
  coherent.seen c id fun _ other => (Option.some.inj (owner.symm.trans other)).symm

theorem Coherent.same_caller {other : Caller} {op' : Op} {task' : Task}
    (first : cluster.errand caller = .calling op task)
    (second : cluster.errand other = .calling op' task') (same : op'.id = op.id) :
    other = caller := by
  have mine := coherent.underway caller op task first
  have yours := coherent.underway other op' task' second
  have holder := coherent.holder second
  rw [same, coherent.holder first] at holder
  have client : caller.1 = other.1 := Option.some.inj holder
  refine Prod.ext client.symm ?_
  by_cases flush : op = .flush op.id
  · have asks := (mine.releases flush).1
    by_cases flush' : op' = .flush op'.id
    · have asks' := (yours.releases flush').1
      rw [same] at asks'
      apply (coherent.exclusive.giving _ _ caller.2 asks).2.2
      rw [client]
      exact asks'
    · refine absurd ?_ ((coherent.entitled (yours.holds flush')).2 caller.2)
      rw [← client, same]
      exact asks
  · by_cases flush' : op' = .flush op'.id
    · refine absurd ?_ ((coherent.entitled (mine.holds flush)).2 other.2)
      rw [client, ← same]
      exact (yours.releases flush').1
    · have theirs := yours.holds flush'
      rw [World.thread, ← client, same] at theirs
      exact (coherent.clients caller.1).unique op.id other.2 caller.2 theirs (mine.holds flush)

end

theorem Underway.agree (call : cluster.Underway caller op task)
    (thread : op ≠ .flush op.id → next.world.thread caller = cluster.world.thread caller)
    (asks : op = .flush op.id →
      (next.world.wire caller).asks = (cluster.world.wire caller).asks)
    (same : Agree op.id (cluster.extents caller.1) (next.extents caller.1)) :
    next.Underway caller op task := by
  have steady : Steady op.id (next.extents caller.1) task := by
    refine ⟨call.steady.on, call.steady.fits.agree same, ?_⟩
    rw [same.find, same.extentMap]
    exact call.steady.mirrors
  refine ⟨call.small, call.serves, steady, call.measured.agree same, fun ordinary => ?_,
    fun flush => ⟨?_, ?_⟩⟩
  · rw [thread ordinary]
    exact call.holds ordinary
  · rw [asks flush]
    exact (call.releases flush).1
  · have gone := (call.releases flush).2
    intro reply done
    exact same.find.trans (gone reply done)

section Locks

variable {world : World} {event : Event}

theorem Coherent.runs (coherent : cluster.Coherent files)
    (orderly : cluster.world.Orderly event) (taken : cluster.world.step event = some world)
    (runs : event.runs = true) :
    { cluster with
      world
      errand := Function.update cluster.errand (cluster.world.concerned event)
        (.after (world.thread (cluster.world.concerned event))) }.Coherent files := by
  have seen := coherent.linked.runs taken runs
  generalize cluster.world.concerned event = actor at seen ⊢
  refine ⟨(coherent.linked.step taken).1, coherent.exclusive.step coherent.linked orderly taken,
    fun c => ?_, ?_, ?_, ?_, coherent.mirrors, ?_, coherent.short⟩
  · rcases World.step_client taken c with same | ⟨action, step⟩
    · exact same ▸ coherent.clients c
    · exact (coherent.clients c).step step
  · intro other op task calls
    by_cases mine : other = actor
    · subst mine
      simp only [Function.update_self] at calls
      obtain ⟨flush, rfl, gives⟩ := FsClient.Errand.after_eq_calling calls
      refine ⟨flush ▸ trivial, rfl, ⟨rfl, trivial, coherent.mirrors _ _⟩, trivial,
        fun ordinary => absurd flush ordinary, fun _ => ⟨?_, by simp⟩⟩
      rw [seen.own, Pc.wire_asks]
      rcases gives with position | position <;> rw [position] <;> rfl
    · simp only [Function.update_of_ne mine] at calls
      have call := coherent.underway other op task calls
      refine call.agree (fun ordinary => ?_) (fun flush => seen.asks other mine) (.refl _ _)
      refine seen.threads other mine fun lid waits => ?_
      rw [call.holds ordinary] at waits
      cases waits
  · intro other lid sent asks
    by_cases mine : other = actor
    · subst mine
      simp only [Function.update_self] at sent
      cases position : world.thread other <;> rw [position] at sent <;> cases sent
    · simp only [Function.update_of_ne mine] at sent
      exact coherent.given other lid sent ((seen.asks other mine).symm.trans asks)
  · simp only [seen.server]
    exact coherent.absent
  · simp only [seen.server]
    exact coherent.seen

theorem Coherent.acknowledged (coherent : cluster.Coherent files)
    (orderly : cluster.world.Orderly (.acknowledge caller))
    (taken : cluster.world.step (.acknowledge caller) = some world) :
    { cluster with world }.Coherent files := by
  have linked := (coherent.linked.step taken).1
  have exclusive := coherent.exclusive.step coherent.linked orderly taken
  simp only [World.step] at taken
  split at taken
  next request r target handler handled =>
    simp only [Option.ite_none_right_eq_some, Option.some.injEq] at taken
    obtain ⟨-, rfl⟩ := taken
    have asks : ∀ other, ((cluster.world.setWire caller (.reply request r)).wire other).asks =
        (cluster.world.wire other).asks := by
      intro other
      by_cases here : other = caller
      · subst here
        simp only [World.setWire, Function.update_self, handled]
        rfl
      · simp only [World.setWire, Function.update_of_ne here]
    refine ⟨linked, exclusive, coherent.clients, fun other op task calls => ?_,
      fun other lid sent asked => ?_, coherent.absent, coherent.mirrors, coherent.seen,
      coherent.short⟩
    · exact (coherent.underway other op task calls).agree (fun _ => rfl) (fun _ => asks other)
        (.refl _ _)
    · exact coherent.given other lid sent ((asks other).symm.trans asked)
  next => cases taken

/-- The lock server handles a request.  What is left to show is about the new holder. -/
theorem Coherent.served (coherent : cluster.Coherent files) {request : Request}
    (orderly : cluster.world.Orderly (.serve caller))
    (asked : cluster.world.wire caller = .request request)
    (due : cluster.errand caller = .due (cluster.world.thread caller))
    (absent : ∀ c, ((request.serve (cluster.world.server request.lid) caller.1).state).holder ≠
      some c → (cluster.cache c).find request.lid = none)
    (seen : ∀ c, (∀ d, ((request.serve (cluster.world.server request.lid) caller.1).state).holder =
      some d → d = c) → (cluster.extents c).files request.lid = files request.lid) :
    { cluster with world := cluster.world.serve caller request }.Coherent files := by
  have taken : cluster.world.step (.serve caller) = some (cluster.world.serve caller request) := by
    simp only [World.step, asked]
  refine ⟨(coherent.linked.step taken).1, coherent.exclusive.step coherent.linked orderly taken,
    coherent.clients, fun other op task calls => ?_, fun other lid sent asks => ?_,
    fun c lid => ?_, coherent.mirrors, fun c id => ?_, coherent.short⟩
  · have apart : other ≠ caller := by
      rintro rfl
      rw [due] at calls
      cases position : cluster.world.thread other <;> rw [position] at calls <;> cases calls
    refine (coherent.underway other op task calls).agree (fun _ => rfl) (fun _ => ?_) (.refl _ _)
    simp only [World.serve_wire_of_ne apart]
  · exact coherent.given other lid sent (World.serve_asks_iff.mp asks).2
  · by_cases here : lid = request.lid
    · subst here
      simp only [World.serve_server_self]
      exact absent c
    · simp only [World.serve_server_of_ne here]
      exact coherent.absent c lid
  · by_cases here : id = request.lid
    · subst here
      simp only [World.serve_server_self]
      exact seen c
    · simp only [World.serve_server_of_ne here]
      exact coherent.seen c id

/-- Without an entry a client sees what is on the server, as any other client without one. -/
theorem files_of_absent {c d : ClientId} {id : ExtentId} (first : (cluster.cache c).find id = none)
    (second : (cluster.cache d).find id = none) :
    (cluster.extents c).files id = (cluster.extents d).files id := by
  simp only [Extents.files, extents, first, second]

theorem Coherent.acquired (coherent : cluster.Coherent files) {lid : LockId}
    (orderly : cluster.world.Orderly (.serve caller))
    (asked : cluster.world.wire caller = .request (.acquire lid))
    (due : cluster.errand caller = .due (cluster.world.thread caller)) :
    { cluster with world := cluster.world.serve caller (.acquire lid) }.Coherent files := by
  have valid := coherent.linked.valid lid
  have spec := valid.acquire caller.1
  -- a lock that is held stays with its holder
  have kept : ∀ c, (cluster.world.server lid).holder = some c →
      ((cluster.world.server lid).acquire caller.1).state.holder = some c := by
    intro c owner
    cases held : (cluster.world.server lid).holded with
    | true => exact (spec.keeps held owner).2
    | false =>
        rw [(valid.idle held).1] at owner
        cases owner
  exact coherent.served orderly asked due
    (fun c other => coherent.absent c lid fun owner => other (kept c owner))
    fun c alone => coherent.seen c lid fun d owner => alone d (kept d owner)

theorem Coherent.released (coherent : cluster.Coherent files) {lid : LockId}
    (orderly : cluster.world.Orderly (.serve caller))
    (asked : cluster.world.wire caller = .request (.release lid))
    (due : cluster.errand caller = .due (cluster.world.thread caller)) :
    { cluster with world := cluster.world.serve caller (.release lid) }.Coherent files := by
  have asks : (cluster.world.wire caller).asks = some (.release lid) := by
    rw [asked]
    rfl
  have owner := (coherent.exclusive.giving caller.1 lid caller.2 asks).2.1
  have sent : cluster.errand caller = .sent := by
    rw [due]
    have inside : (cluster.world.thread caller).request = some (.release lid) := by
      rw [← coherent.linked.subject caller, asked]
      rfl
    cases position : cluster.world.thread caller <;> rw [position] at inside <;>
      cases inside <;> rfl
  -- the `flush` has emptied the cache of the client that gives up the lock
  have gone : ∀ c, (cluster.cache c).find lid = none := by
    intro c
    by_cases here : c = caller.1
    · subst here
      exact coherent.given caller lid sent asks
    · refine coherent.absent c lid fun other => here ?_
      exact (Option.some.inj (owner.symm.trans other)).symm
  exact coherent.served orderly asked due (fun c _ => gone c)
    fun c _ => (files_of_absent (gone c) (gone caller.1)).trans (coherent.own owner)

end Locks

theorem Coherent.errand (coherent : cluster.Coherent files) {errand : Errand}
    (started : ∀ op task, errand = .calling op task → cluster.Underway caller op task)
    (given : ∀ lid, errand = .sent → (cluster.world.wire caller).asks = some (.release lid) →
      (cluster.cache caller.1).find lid = none) :
    { cluster with errand := Function.update cluster.errand caller errand }.Coherent files := by
  refine ⟨coherent.linked, coherent.exclusive, coherent.clients, fun other op task calls => ?_,
    fun other lid sent asks => ?_, coherent.absent, coherent.mirrors, coherent.seen,
    coherent.short⟩
  · by_cases mine : other = caller
    · subst mine
      simp only [Function.update_self] at calls
      exact (started op task calls).agree (fun _ => rfl) (fun _ => rfl) (.refl _ _)
    · simp only [Function.update_of_ne mine] at calls
      exact (coherent.underway other op task calls).agree (fun _ => rfl) (fun _ => rfl) (.refl _ _)
  · by_cases mine : other = caller
    · subst mine
      simp only [Function.update_self] at sent
      exact given lid sent asks
    · simp only [Function.update_of_ne mine] at sent
      exact coherent.given other lid sent asks

/-- A call that answers something else than `OK` leaves its file as it is. -/
theorem change_of_answers {file : Option Bytes} {reply : Reply} (answers : op.Answers file reply)
    (other : reply ≠ .ok) : op.change file = file := by
  cases op with
  | get | getattr | flush => rfl
  | put | remove => exact absurd answers other
  | setattr id attr =>
      cases file with
      | none => rfl
      | some content => exact absurd answers other

theorem Underway.called (call : cluster.Underway caller op task) {now : UInt32}
    {delivery : Delivery} {rest : Task} {after : Extents}
    (running : ∀ reply, task ≠ .done reply)
    (stepped : Task.step now delivery (cluster.extents caller.1) task = (rest, after))
    (seen : (cluster.extents caller.1).files op.id = files op.id)
    (short : ∀ content ∈ files op.id, Short content) :
    Run Files.Called files (logged op rest)
      (if rest = Task.done .ok then op.apply files else files) := by
  have serves := call.serves
  have answers : ∀ reply, rest = .done reply → op ≠ .flush op.id →
      reply = .failed .rpc ∨ op.Answers (files op.id) reply := by
    intro reply returned ordinary
    have done := step_answers now ordinary serves call.steady call.measured (seen ▸ short) running
      ((congrArg Prod.fst stepped).trans returned)
    rwa [seen] at done
  cases rest with
  | done reply =>
      rw [logged]
      by_cases flush : op = .flush op.id
      · have same : op.apply files = files := by
          rw [flush, Op.apply]
          exact Function.update_eq_self _ _
        simp only [if_pos flush, same, ite_self]
        exact .refl
      · simp only [if_neg flush]
        rw [← List.nil_append [(op, reply)]]
        refine .tail .refl ?_
        by_cases ok : reply = .ok
        · subst ok
          simp only [if_true]
          exact .answered ((answers _ rfl flush).resolve_left (by simp))
        · simp only [Task.done.injEq, ok, if_false]
          rcases answers reply rfl flush with rfl | answered
          · exact .failed
          · have same : op.apply files = files := by
              rw [Op.apply, change_of_answers answered ok, Function.update_eq_self]
            have step := Files.Called.answered answered
            rwa [same] at step
  | _ => exact .refl

theorem Coherent.work (coherent : cluster.Coherent files) {now : UInt32} {delivery : Delivery}
    (careful : cluster.Careful (.work caller now delivery))
    (calls : cluster.errand caller = .calling op task) (running : ∀ reply, task ≠ .done reply)
    {rest : Task} {after : Extents}
    (stepped : Task.step now delivery (cluster.extents caller.1) task = (rest, after)) :
    { cluster with
      server := after.server
      cache := Function.update cluster.cache caller.1 after.cache
      errand := Function.update cluster.errand caller (.calling op rest)
      log := cluster.log ++ logged op rest }.Coherent
        (if rest = Task.done .ok then op.apply files else files) := by
  have call := coherent.underway caller op task calls
  have owner := coherent.holder calls
  have mine := coherent.own owner
  have short : ∀ content ∈ (cluster.extents caller.1).files op.id, Short content := by
    rw [mine]
    exact coherent.short op.id
  have advanced : Advanced op.id (cluster.extents caller.1) task
      (Task.step now delivery (cluster.extents caller.1) task).2
      (Task.step now delivery (cluster.extents caller.1) task).1 :=
    step_advanced now call.steady short (fun flushes retried => careful op.id task
      (call.serves.flush_of_retried flushes retried ▸ calls) retried) running
  have frame : ∀ id, id ≠ op.id →
      Agree id (cluster.extents caller.1)
        (Task.step now delivery (cluster.extents caller.1) task).2 := fun id apart =>
    step_frame now delivery call.steady.on apart
  have changed : rest = .done .ok →
      task.change (files op.id) = op.change (files op.id) := fun finished =>
    call.serves.change_eq running ((congrArg Prod.fst stepped).trans finished) _
  have serves := call.serves.step now delivery (cluster.extents caller.1)
  have measured := call.measured.step now delivery call.steady
  rw [stepped] at advanced frame serves measured
  dsimp only at advanced frame serves measured
  -- nobody else sees the step
  have agree : ∀ c id, id ≠ op.id → Agree id (cluster.extents c)
      ⟨Function.update cluster.cache caller.1 after.cache c, after.server⟩ := by
    intro c id apart
    by_cases here : c = caller.1
    · subst here
      rw [Function.update_self]
      exact frame id apart
    · rw [Function.update_of_ne here]
      exact ⟨rfl, rfl, (frame id apart).extentMap⟩
  have unmoved : ∀ c id, (id = op.id → c ≠ caller.1) →
      (Function.update cluster.cache caller.1 after.cache c).find id =
        (cluster.cache c).find id := by
    intro c id apart
    by_cases same : id = op.id
    · rw [Function.update_of_ne (apart same)]
    · exact (agree c id same).find
  have elsewhere : ∀ c, c ≠ caller.1 → (cluster.cache c).find op.id = none := fun c apart =>
    coherent.absent c op.id fun other => apart (Option.some.inj (owner.symm.trans other)).symm
  refine ⟨coherent.linked, coherent.exclusive, coherent.clients, fun other op' task' calling => ?_,
    fun other lid sent asks => ?_, fun c lid apart => ?_, fun c id => ?_, fun c id alone => ?_,
    fun id => ?_⟩
  · by_cases own : other = caller
    · subst own
      simp only [Function.update_self, Errand.calling.injEq] at calling
      obtain ⟨rfl, rfl⟩ := calling
      refine ⟨call.small, serves, ?_, ?_, call.holds, fun flush => ⟨(call.releases flush).1, ?_⟩⟩
      · simp only [extents, Function.update_self]
        exact advanced.steady
      · simp only [extents, Function.update_self]
        exact measured
      · simp only [Function.update_self]
        exact (advanced.flushes (Task.Serves.flushes (flush ▸ call.serves))).2
    · simp only [Function.update_of_ne own] at calling
      have apart : op'.id ≠ op.id := fun same => own (coherent.same_caller calls calling same)
      exact (coherent.underway other op' task' calling).agree (fun _ => rfl) (fun _ => rfl)
        (agree other.1 op'.id apart)
  · by_cases own : other = caller
    · subst own
      simp only [Function.update_self] at sent
      cases sent
    · simp only [Function.update_of_ne own] at sent
      by_cases here : lid = op.id ∧ other.1 = caller.1
      · -- the number of the call would be given up while it is used
        obtain ⟨rfl, client⟩ := here
        dsimp only at asks
        have asks : (cluster.world.wire (caller.1, other.2)).asks = some (.release op.id) := by
          rw [← client]
          exact asks
        by_cases flush : op = .flush op.id
        · refine absurd (Prod.ext client ?_) own
          exact (coherent.exclusive.giving _ _ caller.2 (call.releases flush).1).2.2 _ asks
        · exact absurd asks ((coherent.entitled (call.holds flush)).2 other.2)
      · exact (unmoved other.1 lid fun same client => here ⟨same, client⟩).trans
          (coherent.given other lid sent asks)
  · refine (unmoved c lid ?_).trans (coherent.absent c lid apart)
    rintro rfl rfl
    exact apart owner
  · by_cases same : id = op.id
    · subst same
      by_cases here : c = caller.1
      · subst here
        simp only [Function.update_self]
        exact advanced.steady.mirrors
      · simp only [Function.update_of_ne here, elsewhere c here]
        rintro value ⟨⟩
    · have moved := agree c id same
      exact (congrArg₂ Mirrors moved.find moved.extentMap).mpr (coherent.mirrors c id)
  · by_cases same : id = op.id
    · subst same
      obtain rfl : caller.1 = c := alone caller.1 owner
      have files' := advanced.files
      rw [mine] at files'
      simp only [extents, Function.update_self]
      refine files'.trans ?_
      split
      next finished => rw [changed finished, Op.apply, Function.update_self]
      next unfinished => rfl
    · refine (agree c id same).files.trans ((coherent.seen c id alone).trans ?_)
      split
      next finished => rw [Op.apply, Function.update_of_ne same]
      next unfinished => rfl
  · split
    next finished => exact FsClient.short_apply coherent.short call.small id
    next unfinished => exact coherent.short id

theorem Coherent.step (coherent : cluster.Coherent files) {event : ClusterEvent}
    (careful : cluster.Careful event) (taken : cluster.step event = some next) :
    ∃ calls files', next.log = cluster.log ++ calls ∧ Run Files.Called files calls files' ∧
      next.Coherent files' := by
  -- only a step of a call is logged
  have silent : next.log = cluster.log → next.Coherent files →
      ∃ calls files', next.log = cluster.log ++ calls ∧ Run Files.Called files calls files' ∧
        next.Coherent files' := fun same kept => ⟨[], files, by simp [same], .refl, kept⟩
  cases event with
  | lock event =>
      simp only [Cluster.step, Option.ite_none_right_eq_some, Option.map_eq_some_iff] at taken
      obtain ⟨due, world, taken, rfl⟩ := taken
      refine silent rfl ?_
      cases runs : event.runs with
      | true => exact coherent.runs careful taken runs
      | false =>
          cases event with
          | serve caller =>
              cases asked : cluster.world.wire caller with
              | request request =>
                  simp only [World.step, asked, Option.some.injEq] at taken
                  subst taken
                  cases request with
                  | acquire lid => exact coherent.acquired careful asked due
                  | release lid => exact coherent.released careful asked due
              | _ => simp [World.step, asked] at taken
          | acknowledge caller => exact coherent.acknowledged careful taken
          | act | handle | deliver => cases runs
  | call caller op =>
      simp only [Cluster.step, Option.ite_none_right_eq_some, Option.some.injEq] at taken
      obtain ⟨⟨-, holds, -, ordinary⟩, rfl⟩ := taken
      refine silent rfl (coherent.errand ?_ (by simp))
      rintro op task ⟨⟩
      exact ⟨careful, rfl, ⟨rfl, trivial, coherent.mirrors _ _⟩, trivial, fun _ => holds,
        fun flush => absurd flush ordinary⟩
  | work caller now delivery =>
      simp only [Cluster.step] at taken
      split at taken
      next => cases taken
      next op task running _ calls =>
        cases taken
        have call := coherent.underway caller op task calls
        exact ⟨_, _, rfl, call.called running rfl (coherent.own (coherent.holder calls))
          (coherent.short op.id), coherent.work careful calls running rfl⟩
      next => cases taken
  | back caller =>
      simp only [Cluster.step] at taken
      split at taken
      next =>
        cases taken
        exact silent rfl (coherent.errand (by simp) (by simp))
      next => cases taken
  | send caller =>
      -- the call that is over was the `flush`, because the thread holds no lock
      have sent : ∀ op reply, cluster.errand caller = .calling op (.done reply) →
          (∀ lid, cluster.world.thread caller ≠ .holding lid) →
          { cluster with
            errand := Function.update cluster.errand caller .sent }.Coherent files := by
        intro op reply calls released
        refine coherent.errand (by simp) fun lid _ asks => ?_
        have call := coherent.underway caller op _ calls
        by_cases flush : op = .flush op.id
        · obtain ⟨asked, gone⟩ := call.releases flush
          cases asked.symm.trans asks
          exact gone reply rfl
        · exact absurd (call.holds flush) (released op.id)
      simp only [Cluster.step] at taken
      split at taken
      next op reply _ _ calls position =>
        cases taken
        exact silent rfl (sent op reply calls (by simp [position]))
      next op reply _ _ calls position =>
        cases taken
        exact silent rfl (sent op reply calls (by simp [position]))
      next => cases taken

abbrev CarefulStep : Cluster → ClusterEvent → Cluster → Prop :=
  Guarded (StepOf Cluster.step) Careful

theorem coherent_of_run {server : ExtentServer} {events : List ClusterEvent}
    (short : ∀ id, ∀ extent ∈ server.extentMap id, Short extent.content)
    (run : Run CarefulStep (initial server) events cluster) :
    ∃ files, Run Files.Called (stored server) cluster.log files ∧ cluster.Coherent files := by
  refine run.invariant (fun cluster => ∃ files, Run Files.Called (stored server) cluster.log files ∧
    cluster.Coherent files) ⟨_, .refl, .initial short⟩ ?_
  rintro cluster event next ⟨files, calls, coherent⟩ ⟨careful, taken⟩
  obtain ⟨more, files', log, called, kept⟩ := coherent.step careful taken
  refine ⟨files', ?_, kept⟩
  rw [log]
  exact calls.trans called

end Cluster

/-- In every interleaving of the clients, the calls that their threads make under the locks are,
in the order in which they return, the calls on one map of files, and a thread that holds a
lock sees through its cache what that map has under the number. -/
theorem clients_share_files {server : ExtentServer} {events : List ClusterEvent}
    {cluster : Cluster} (short : ∀ id, ∀ extent ∈ server.extentMap id, Short extent.content)
    (run : Run Cluster.CarefulStep (.initial server) events cluster) :
    ∃ files, Run Files.Called (Cluster.stored server) cluster.log files ∧
      ∀ caller lid, cluster.world.thread caller = .holding lid →
        (cluster.extents caller.1).files lid = files lid := by
  obtain ⟨files, calls, coherent⟩ := Cluster.coherent_of_run short run
  exact ⟨files, calls, fun caller lid holds => coherent.own (coherent.entitled holds).1⟩

/-- One client puts an extent, and another takes the lock away from it and gets the extent. -/
def handedOver : List ClusterEvent :=
  [.lock (.act 0 (.acquire 0 7)), .lock (.serve (0, 0)), .lock (.deliver (0, 0) none),
    .call (0, 0) (.put 7 [nullByte]), .work (0, 0) 10 .answered, .back (0, 0),
    .lock (.act 1 (.acquire 0 7)), .lock (.serve (1, 0)), .lock (.handle (1, 0) 1),
    .lock (.acknowledge (1, 0)), .lock (.deliver (1, 0) none),
    .lock (.act 0 (.release 0 none)), .work (0, 0) 20 .answered, .work (0, 0) 20 .answered,
    .work (0, 0) 20 .answered, .work (0, 0) 20 .answered, .send (0, 0), .lock (.serve (0, 0)),
    .lock (.handle (0, 0) 1), .lock (.serve (1, 1)), .lock (.deliver (1, 1) (some 0)),
    .lock (.act 1 (.wake 0)), .call (1, 0) (.get 7), .work (1, 0) 30 .answered,
    .work (1, 0) 30 .answered, .work (1, 0) 30 .answered, .work (1, 0) 30 .answered]

theorem handedOver_careful :
    Meets Cluster.step Cluster.Careful (.initial ⟨fun _ => none, []⟩) handedOver := by
  refine ⟨trivial, ?_⟩
  rintro _ ⟨⟩
  refine ⟨?_, ?_⟩
  · rintro lid _ ⟨t, asks⟩
    rcases t with _ | t <;> cases asks
  rintro _ ⟨⟩
  refine ⟨?_, ?_⟩
  · rintro lid request ⟨⟩
  rintro _ ⟨⟩
  refine ⟨show 1 < UInt32.size by decide, ?_⟩
  rintro _ ⟨⟩
  refine ⟨?_, ?_⟩
  · rintro lid task ⟨⟩
  rintro _ ⟨⟩
  iterate 2
    refine ⟨trivial, ?_⟩
    rintro _ ⟨⟩
  refine ⟨?_, ?_⟩
  · rintro lid _ ⟨t, asks⟩
    rcases t with _ | t <;> cases asks
  rintro _ ⟨⟩
  refine ⟨?_, ?_⟩
  · rintro request r target ⟨⟩ ⟨⟩
  rintro _ ⟨⟩
  refine ⟨trivial, ?_⟩
  rintro _ ⟨⟩
  refine ⟨?_, ?_⟩
  · rintro lid request _ ⟨⟩
  rintro _ ⟨⟩
  refine ⟨?_, ?_⟩
  · rintro lid _ _ ⟨t, r, _, answered⟩
    rcases t with _ | _ | t <;> cases answered
  rintro _ ⟨⟩
  iterate 4
    refine ⟨fun _ _ _ _ => rfl, ?_⟩
    rintro _ ⟨⟩
  refine ⟨trivial, ?_⟩
  rintro _ ⟨⟩
  refine ⟨?_, ?_⟩
  · rintro lid ⟨⟩
  rintro _ ⟨⟩
  refine ⟨?_, ?_⟩
  · rintro request r target ⟨⟩
  rintro _ ⟨⟩
  refine ⟨?_, ?_⟩
  · rintro lid _ ⟨t, asks⟩
    rcases t with _ | _ | t <;> cases asks
  rintro _ ⟨⟩
  refine ⟨?_, ?_⟩
  · rintro lid request ⟨⟩
  rintro _ ⟨⟩
  iterate 2
    refine ⟨trivial, ?_⟩
    rintro _ ⟨⟩
  iterate 3
    refine ⟨fun _ _ _ _ => rfl, ?_⟩
    rintro _ ⟨⟩
  exact ⟨fun _ _ _ _ => rfl, fun _ _ => trivial⟩

theorem clients_share_files_handedOver :
    ∃ cluster files,
      Run Cluster.CarefulStep (.initial ⟨fun _ => none, []⟩) handedOver cluster ∧
      cluster.log = [(.put 7 [nullByte], .ok), (.get 7, .buf [nullByte])] ∧
      Run Files.Called (fun _ => none) cluster.log files ∧
      (cluster.extents 1).files 7 = files 7 := by
  have run := guarded_of_exec rfl handedOver_careful
  obtain ⟨files, calls, seen⟩ := clients_share_files (by rintro id extent ⟨⟩) run
  exact ⟨_, files, run, rfl, calls, seen (1, 0) 7 rfl⟩

end Ctgfs.Fs
