import Ctgfs.Fs.CacheRefinement
import Ctgfs.Fs.FuseRefinement

/-!
# The FUSE server on the extent cache

The layers below `yfs_client` are the locks of one client, the extent cache with its `Client`, and
the extent server, and the cache writes extents back between the requests.  Each call on the cache
runs on its own.  A call that crashes, or waits for a lock that the client holds already, never
returns.
-/

namespace Ctgfs.Fs

open Foundation Abstraction

/-- A mount, the locks that are held, and how many calls were made on the cache. -/
structure CachedState where
  mount : Mount
  held : List Inum
  calls : Nat

namespace CachedState

def initial (server : ExtentServer) (client : Placement.Client) : CachedState :=
  ⟨.initial server client, [], 0⟩

def store (state : CachedState) : Store :=
  fun inum => state.mount.extents.files inum.toNat

/-- What is kept between the calls: the extents are coherent, and the `Client` has one slot. -/
def Sees (addr : Bytes) (state : CachedState) (view : LayerView) : Prop :=
  Coherent state.mount.extents ∧ Settled addr view.2.2 state.mount.client ∧
    view.1 = state.store ∧ view.2.1 = state.held

/-- The `Client` can count the users of two more connections. -/
def Connects (state : CachedState) : Prop :=
  ∀ ele ∈ state.mount.client.kvAddrList, ele.count + 2 ≤ Placement.intMax

instance (state : CachedState) : Decidable state.Connects :=
  inferInstanceAs (Decidable (∀ ele ∈ _, _))

end CachedState

def Task.reply : Task → Reply
  | .done reply => reply
  | _ => .failed .rpc

/-- What a caller that wants the content takes from a reply. -/
def Reply.content : Reply → Except Failure Bytes
  | .buf content => .ok content
  | .failed failure => .error failure
  | .ok | .attr _ => .error .rpc

def Reply.info : Reply → Except Failure Attr
  | .attr info => .ok info
  | .failed failure => .error failure
  | .ok | .buf _ => .error .rpc

/-- A call on the cache.  The call may depend on memory that was never set, and so on how many
calls there were before. -/
def call (outside : Nat → Outside) (op : Nat → Op) : StateT CachedState Option Reply :=
  fun state =>
    (state.mount.perform (outside state.calls) (op state.calls)).map fun performed =>
      (performed.1.reply, { state with mount := performed.2, calls := state.calls + 1 })

/-- The layers of a client.  No other client wants its locks.  `setattr` is called with times that
were never set. -/
def cachedLayers (outside : Nat → Outside) (unset : Nat → Attr) (issued : Inum) :
    Layers (StateT CachedState Option) where
  initExtentClient inum := fun state =>
    (connect state.mount.client (inum.toNat, (outside state.calls).answers 0)).map fun client =>
      ((), { state with mount.client := client, calls := state.calls + 1 })
  acquire inum := fun state =>
    if inum ∈ state.held then none else some (true, { state with held := inum :: state.held })
  release inum := fun state =>
    if inum ∈ state.held then some (true, { state with held := state.held.erase inum }) else none
  get inum := return (← call outside fun _ => .get inum.toNat).content
  put inum buf := return (← call outside fun _ => .put inum.toNat buf) == .ok
  getattr inum := return (← call outside fun _ => .getattr inum.toNat).info
  setattr inum size :=
    return (← call outside fun calls => .setattr inum.toNat { unset calls with size }) == .ok
  remove inum := return (← call outside fun _ => .remove inum.toNat) == .ok
  getInumByName _ _ _ _ := pure issued

/-- What happens at a client: a request is served, or an extent is written back. -/
inductive CachedEvent where
  | serve (request : FuseRequest) (reply : FuseReply)
  | flush (id : ExtentId)
  deriving DecidableEq, Repr

def CachedEvent.call : CachedEvent → Option (FuseRequest × FuseReply)
  | .serve request reply => some (request, reply)
  | .flush _ => none

namespace CachedState

/-- One event of a client; a reply that is not the one of the server is no event. -/
def step (outside : Nat → Outside) (unset : Nat → Attr) (format : DirentFormat)
    (state : CachedState) : CachedEvent → Option CachedState
  | .serve request reply => do
      let ran ← (Fs.serve format (cachedLayers outside unset request.issued) request).run.run state
      if ran.1 = some reply then some ran.2 else none
  | .flush id => ((Fs.call outside fun _ => .flush id).run state).map Prod.snd

def Careful (state : CachedState) : CachedEvent → Prop
  | .serve request _ => Permitted state.store request ∧ state.Connects
  | .flush _ => True

instance (state : CachedState) : (event : CachedEvent) → Decidable (Careful state event)
  | .serve _ _ => inferInstanceAs (Decidable (_ ∧ _))
  | .flush _ => .isTrue trivial

/-- Between two requests no lock is held, and the extents represent a file system. -/
def Holds (addr : Bytes) (fs : FileSystem) (state : CachedState) : Prop :=
  state.Sees addr (state.store, [], 0) ∧ Represents state.store fs

end CachedState

theorem CachedState.Sees.connects {addr : Bytes} {state : CachedState} {store : Store}
    {held : List Inum} {room : Nat} (seen : state.Sees addr (store, held, room))
    (connects : state.Connects) : state.Sees addr (store, held, 2) := by
  obtain ⟨coherent, ⟨⟨count, two, -, list⟩, used, indexed⟩, view⟩ := seen
  rw [CachedState.Connects, list, List.forall_mem_singleton] at connects
  exact ⟨coherent, ⟨⟨count, two, connects, list⟩, used, indexed⟩, view⟩

theorem files_update (files : Files) (op : Op) {inum : Inum} (here : op.id = inum.toNat) :
    (fun other : Inum => op.apply files other.toNat) =
      Function.update (fun other : Inum => files other.toNat) inum
        (op.change (files inum.toNat)) := by
  funext other
  by_cases same : other = inum
  · subst same
    rw [Function.update_self, Op.apply, here, Function.update_self]
  · have apart : other.toNat ≠ op.id := fun equal =>
      same (UInt64.toNat_inj.mp (equal.trans here))
    rw [Function.update_of_ne same, Op.apply, Function.update_of_ne apart]

section Layers

variable {addr : Bytes} {outside : Nat → Outside} (nonempty : addr ≠ [])
  (answers : ∀ calls step, (outside calls).answers step = addr)

include nonempty answers

theorem call_run (op : Nat → Op) {state : CachedState} {room : Nat}
    (coherent : Coherent state.mount.extents) (settled : Settled addr room state.mount.client)
    (short : (op state.calls).Short) :
    ∃ reply mount, (call outside op).run state =
        some (reply, { state with mount, calls := state.calls + 1 }) ∧
      Coherent mount.extents ∧ Settled addr room mount.client ∧
      (op state.calls).Answers (state.mount.extents.files (op state.calls).id) reply ∧
      mount.extents.files = (op state.calls).apply state.mount.extents.files := by
  obtain ⟨reply, after, entry, extent, performed⟩ :=
    returns (outside state.calls).clock state.mount.extents (op state.calls)
  have given : ∀ request ∈ state.mount.requests (outside state.calls) (op state.calls),
      request.2 = addr := by
    intro request member
    obtain ⟨step, -, rfl⟩ := List.mem_map.mp member
    exact answers _ step
  obtain ⟨client, ran, settled'⟩ := settled.exec nonempty given
  have returned : state.mount.perform (outside state.calls) (op state.calls) =
      some (.done reply, ⟨after, client⟩) := Mount.perform_eq_some.mpr ⟨performed.returns, ran⟩
  refine ⟨reply, ⟨after, client⟩, ?_, performed.coherent coherent short, settled',
    performed.outcome.answers (coherent.short _), performed.files_eq coherent⟩
  change (state.mount.perform _ _).map _ = _
  rw [returned]
  rfl

theorem realises_call {op : Nat → Op} {inum : Inum} (here : ∀ calls, (op calls).id = inum.toNat)
    (short : ∀ calls, (op calls).Short) (store : Store) (rest : List Inum × Nat) :
    Realises (CachedState.Sees addr) (call outside op) (store, rest) fun reply next =>
      ∃ calls, (op calls).Answers (store inum) reply ∧
        next = (Function.update store inum ((op calls).change (store inum)), rest) := by
  rintro state ⟨coherent, settled, rfl, locks⟩
  obtain ⟨reply, mount, ran, coherent', settled', right, files⟩ :=
    call_run nonempty answers op coherent settled (short state.calls)
  rw [here] at right
  refine ⟨reply, _, (Function.update state.store inum ((op state.calls).change (state.store inum)),
    rest), ran, ⟨coherent', settled', ?_, locks⟩, state.calls, right, rfl⟩
  change _ = fun other : Inum => mount.extents.files other.toNat
  rw [files]
  exact (files_update _ _ (here state.calls)).symm

theorem faithful_cachedLayers (unset : Nat → Attr) :
    Faithful (CachedState.Sees addr) Sized fun issued =>
      (cachedLayers outside unset issued).toLower where
  initExtentClient _ inum store held room := by
    rintro state ⟨coherent, settled, view⟩
    obtain ⟨client, connected, settled⟩ := settled.connect nonempty inum.toNat
    refine ⟨(), { state with mount.client := client, calls := state.calls + 1 },
      (store, held, room), ?_, ⟨coherent, settled, view⟩, rfl⟩
    change (connect state.mount.client (inum.toNat, (outside state.calls).answers 0)).map _ = _
    rw [answers, connected]
    rfl
  acquire _ inum store held room free := by
    rintro state ⟨coherent, settled, rfl, locks⟩
    dsimp only at locks
    subst locks
    exact ⟨true, _, (state.store, inum :: state.held, room), if_neg free,
      ⟨coherent, settled, rfl, rfl⟩, rfl, rfl⟩
  release _ inum store held room := by
    rintro state ⟨coherent, settled, rfl, locks⟩
    refine ⟨true, { state with held := held }, (state.store, held, room), ?_,
      ⟨coherent, settled, rfl, rfl⟩, rfl, rfl⟩
    change (if inum ∈ state.held then _ else none) = _
    rw [← locks, if_pos List.mem_cons_self, List.erase_cons_head]
    rfl
  get _ inum store rest := by
    refine .map (realises_call nonempty answers (fun _ => rfl) (fun _ => by trivial) store rest) ?_
    rintro reply next ⟨calls, right, rfl⟩
    refine ⟨?_, by rw [Op.change, Function.update_eq_self]⟩
    rw [show reply = _ from right]
    cases store inum <;> rfl
  put _ inum buf store rest fits := by
    have short : (Op.put inum.toNat buf).Short := fits
    refine .map (realises_call nonempty answers (fun _ => rfl) (fun _ => short) store rest) ?_
    rintro reply next ⟨calls, right, rfl⟩
    rw [show reply = _ from right]
    exact ⟨rfl, rfl⟩
  getattr _ inum store rest := by
    refine .map (realises_call nonempty answers (fun _ => rfl) (fun _ => by trivial) store rest) ?_
    rintro reply next ⟨calls, right, rfl⟩
    refine ⟨?_, by rw [Op.change, Function.update_eq_self]⟩
    cases stored : store inum with
    | none =>
        rw [stored] at right
        rw [show reply = _ from right]
        rfl
    | some content =>
        rw [stored] at right
        obtain ⟨info, rfl, size⟩ := right
        refine ⟨content, rfl, ?_⟩
        rw [Sized, ← size, UInt32.ofNat_toNat]
  remove _ inum store rest := by
    refine .map (realises_call nonempty answers (fun _ => rfl) (fun _ => by trivial) store rest) ?_
    rintro reply next ⟨calls, right, rfl⟩
    rw [show reply = _ from right]
    exact ⟨rfl, rfl⟩
  getInumByName _ _ _ _ _ _ _ := .pure ⟨rfl, rfl⟩

theorem resizes_cachedLayers (unset : Nat → Attr) :
    Resizes (CachedState.Sees addr) (cachedLayers outside unset) := by
  intro _ inum size store rest
  refine .map (realises_call nonempty answers (fun _ => rfl) (fun _ => by trivial) store rest) ?_
  rintro reply next ⟨calls, right, rfl⟩
  refine ⟨?_, rfl⟩
  rw [show reply = _ from right]
  cases store inum <;> rfl

variable {unset : Nat → Attr} {format : DirentFormat} {fs : FileSystem} {state next : CachedState}

theorem CachedState.Holds.serve (holds : state.Holds addr fs) (unset : Nat → Attr)
    (format : DirentFormat) {request : FuseRequest} (permitted : Permitted state.store request)
    (connects : state.Connects) :
    ∃ reply next after,
      (Fs.serve format (cachedLayers outside unset request.issued) request).run.run state =
        some (some reply, next) ∧
      FileSystem.Serves format fs (request, reply) after ∧ next.Holds addr after := by
  obtain ⟨reply, next, ⟨_, _, room⟩, ran, ⟨coherent, settled, rfl, locks⟩, rfl, after, serves,
    represents⟩ := handles (faithful_cachedLayers nonempty answers unset) holds.2
      (resizes_cachedLayers nonempty answers unset) format permitted _ (holds.1.connects connects)
  exact ⟨reply, next, after, ran, serves, ⟨coherent, settled.mono (Nat.zero_le room), rfl, locks⟩,
    represents⟩

theorem CachedState.Holds.flush (holds : state.Holds addr fs) (id : ExtentId) :
    ∃ next, state.step outside unset format (.flush id) = some next ∧ next.Holds addr fs := by
  obtain ⟨⟨coherent, settled, -, locks⟩, represents⟩ := holds
  obtain ⟨reply, mount, ran, coherent, settled, -, files⟩ :=
    call_run nonempty answers (fun _ => .flush id) coherent settled trivial
  have store : (⟨mount, state.held, state.calls + 1⟩ : CachedState).store = state.store := by
    change (fun inum : Inum => mount.extents.files inum.toNat) = _
    rw [files]
    exact congrArg (fun files (inum : Inum) => files inum.toNat) (Function.update_eq_self _ _)
  refine ⟨⟨mount, state.held, state.calls + 1⟩, ?_, ⟨coherent, settled, rfl, locks⟩,
    store ▸ represents⟩
  rw [CachedState.step, ran]
  rfl

theorem CachedState.Holds.step (holds : state.Holds addr fs) {event : CachedEvent}
    (careful : state.Careful event) (taken : state.step outside unset format event = some next) :
    ∃ after, Run (FileSystem.Serves format) fs event.call.toList after ∧ next.Holds addr after := by
  cases event with
  | serve request reply =>
      obtain ⟨answer, ended, after, ran, serves, holds⟩ :=
        holds.serve nonempty answers unset format careful.1 careful.2
      simp only [CachedState.step, ran, bind, Option.bind_some,
        Option.ite_none_right_eq_some, Option.some.injEq] at taken
      obtain ⟨rfl, rfl⟩ := taken
      exact ⟨after, Run.refl.tail serves, holds⟩
  | flush id =>
      obtain ⟨ended, ran, holds⟩ := holds.flush nonempty answers id
      cases ran.symm.trans taken
      exact ⟨fs, .refl, holds⟩

end Layers

/-- The requests and replies of a client whose extents represent a file system are those of the
file system, whenever extents are written back.  After each of them no lock is held, every request
that is permitted is answered as long as connections can be counted, and every extent can be
written back. -/
theorem cached_fuse_serves_file_system {addr : Bytes} {outside : Nat → Outside}
    {unset : Nat → Attr} {format : DirentFormat} {server : ExtentServer} {client : Placement.Client}
    {fs : FileSystem} {state : CachedState} {events : List CachedEvent} (nonempty : addr ≠ [])
    (answers : ∀ calls step, (outside calls).answers step = addr) (settled : Settled addr 0 client)
    (short : ∀ id, ∀ extent ∈ server.extentMap id, Short extent.content)
    (represents : Represents (CachedState.initial server client).store fs)
    (run : Run (Guarded (StepOf (CachedState.step outside unset format)) CachedState.Careful)
      (.initial server client) events state) :
    ∃ after, Run (FileSystem.Serves format) fs (events.filterMap CachedEvent.call) after ∧
      Represents state.store after ∧ state.held = [] ∧
      (∀ request, Permitted state.store request → state.Connects → ∃ reply next,
        state.step outside unset format (.serve request reply) = some next) ∧
      ∀ id, ∃ next, state.step outside unset format (.flush id) = some next := by
  have start : (CachedState.initial server client).Holds addr fs := by
    refine ⟨⟨⟨by rintro id value ⟨⟩, fun id content seen => ?_⟩, settled, rfl, rfl⟩, represents⟩
    obtain ⟨extent, found, rfl⟩ := Option.map_eq_some_iff.mp seen
    exact short id extent found
  obtain ⟨after, calls, holds⟩ : ∃ after,
      Run (FileSystem.Serves format) fs (events.filterMap CachedEvent.call) after ∧
        state.Holds addr after := by
    refine run.history (fun events state => ∃ after,
      Run (FileSystem.Serves format) fs (events.filterMap CachedEvent.call) after ∧
        state.Holds addr after) ⟨fs, .refl, start⟩ ?_
    rintro events state event next ⟨middle, calls, holds⟩ ⟨careful, taken⟩
    obtain ⟨after, more, holds⟩ := holds.step nonempty answers careful taken
    refine ⟨after, ?_, holds⟩
    rw [List.filterMap_append]
    exact calls.trans (by cases event <;> exact more)
  refine ⟨after, calls, holds.2, holds.1.2.2.2.symm, fun request permitted connects => ?_,
    fun id => ?_⟩
  · obtain ⟨reply, next, -, ran, -⟩ :=
      holds.serve nonempty answers unset format permitted connects
    refine ⟨reply, next, ?_⟩
    simp only [CachedState.step, ran, bind, Option.bind_some, if_true]
  · obtain ⟨next, ran, -⟩ := holds.flush nonempty answers id
    exact ⟨next, ran⟩

def blankServer : ExtentServer :=
  ⟨Function.update (fun _ => none) 1 (some ⟨0, 0, 0, []⟩), []⟩

/-- A `Client` that has linked two inodes to the address. -/
def twiceLinked (addr : Bytes) : Placement.Client where
  kvAddrIndexList := (OrderedMap.empty.insert 1 0).insert 2 0
  kvAddrConnectStatus := OrderedMap.empty.insert 0 0
  kvAddrList := [⟨addr, 2⟩]
  reusedQueue := []

theorem settled_twiceLinked (addr : Bytes) : Settled addr 0 (twiceLinked addr) :=
  ⟨⟨2, by decide, by decide, rfl⟩, ⟨1, 0, rfl⟩,
    Placement.Client.indexed_insert (Placement.Client.indexed_insert (by rintro _ _ ⟨⟩)
      Nat.one_pos) Nat.one_pos⟩

theorem represents_blank (client : Placement.Client) :
    Represents (CachedState.initial blankServer client).store .blank where
  stored := by
    intro inum
    change visible none (blankServer.extentMap inum.toNat) = _
    by_cases same : inum = root
    · subst same
      rfl
    · have apart : inum.toNat ≠ 1 := fun equal => same (UInt64.toNat_inj.mp equal)
      simp only [FileSystem.blank, Function.update_of_ne same, blankServer,
        Function.update_of_ne apart]
      rfl
  small := by
    intro inum node stored
    obtain ⟨rfl, rfl⟩ := FileSystem.of_blank stored
    decide
  short := fun _ _ links => absurd links FileSystem.not_links_blank
  plain := fun _ _ links => absurd links FileSystem.not_links_blank

theorem short_blankServer : ∀ id, ∀ extent ∈ blankServer.extentMap id, Short extent.content := by
  intro id extent found
  by_cases same : id = 1
  · subst same
    cases found
    exact (by decide : 0 < UInt32.size)
  · simp only [blankServer, Function.update_of_ne same] at found
    cases found

/-- A file is created and written, and is read after it was written back. -/
def writtenBack (name : Bytes) (first second : Byte) : List CachedEvent :=
  [.serve (.create 1 name 0 0x80000002) (.create ⟨0x80000002, regularMode, 1, 0, 0, 0, some 0⟩),
    .serve (.write 0x80000002 [first, second] 0) (.write 2), .flush 0x80000002, .flush 1,
    .serve (.read 0x80000002 10 1) (.buf [second])]

theorem cached_fuse_serves_file_system_written :
    exec (fun (client : Placement.Client) ino => (client.getKVAddrByInum ino [115]).map Prod.snd)
        .new [1, 2] = some (twiceLinked [115]) ∧
    ∃ state after, Run (FileSystem.Serves ⟨id, fun name _ _ => name, fun _ _ _ => rfl⟩) .blank
        ((writtenBack [97] 104 105).filterMap CachedEvent.call) after ∧
      Represents (CachedState.store state) after := by
  obtain ⟨state, executed⟩ : ∃ state, exec (CachedState.step (fun _ => .still 0 [115])
      (fun _ => ⟨0, 0, 0, 0⟩) ⟨id, fun name _ _ => name, fun _ _ _ => rfl⟩)
      (.initial blankServer (twiceLinked [115])) (writtenBack [97] 104 105) = some state :=
    Option.isSome_iff_exists.mp (by decide +kernel)
  obtain ⟨after, calls, represents, -⟩ := cached_fuse_serves_file_system (by decide)
    (fun _ _ => rfl) (settled_twiceLinked [115]) short_blankServer (represents_blank _)
    (guarded_of_exec executed (by decide +kernel))
  exact ⟨rfl, state, after, calls, represents⟩

end Ctgfs.Fs
