import Ctgfs.Lock.Turn

/-!
# The lock server, its clients and the messages between them

Every thread of every client has at most one RPC under way, and the wire of the
thread says how far that RPC has come.  The lock server handles a request in one
section under its mutex; a handler that calls a client back answers only after
the callback has been answered.  Messages on different wires are independent, so
the scheduler delivers them in any order.  No RPC fails.
-/

namespace Ctgfs.Lock

/-- The `id` of a client, of which only the port varies. -/
abbrev ClientId := Nat

/-- `lock_serv_state`, with `none` for the empty holder. -/
structure ServState where
  holder : Option ClientId := none
  holded : Bool := false
  pendingers : List ClientId := []
  deriving DecidableEq, Repr

inductive Request where
  | acquire (lid : LockId)
  | release (lid : LockId)
  deriving DecidableEq, Repr

def Request.lid : Request → LockId
  | .acquire lid | .release lid => lid

inductive Callback where
  | revoke
  | retry
  deriving DecidableEq, Repr

structure Served where
  state : ServState
  r : Answer
  callback : Option (Callback × ClientId)
  deriving DecidableEq, Repr

variable {serv : ServState}

namespace ServState

def acquire (serv : ServState) (id : ClientId) : Served :=
  if serv.holded then
    if serv.holder ≠ some id then
      { state := { serv with pendingers := serv.pendingers ++ [id] }
        r := .retry
        callback :=
          if serv.pendingers = [] then serv.holder.map fun holder => (.revoke, holder) else none }
    else
      { state := { serv with holded := true, holder := some id }
        r := if serv.pendingers ≠ [] then .retire else .ok
        callback := none }
  else if serv.pendingers ≠ [] then { state := serv, r := .ok, callback := none }
  else { state := { serv with holded := true, holder := some id }, r := .ok, callback := none }

def release (serv : ServState) (id : ClientId) : Served :=
  if serv.holded then
    if serv.holder = some id then
      match serv.pendingers with
      | next :: rest =>
          { state := { holder := some next, holded := true, pendingers := rest }
            r := .ok
            callback := some (.retry, next) }
      | [] =>
          { state := { serv with holded := false, holder := none }
            r := .ok
            callback := none }
    else { state := serv, r := .ok, callback := none }
  else { state := serv, r := .ok, callback := none }

structure Valid (serv : ServState) : Prop where
  idle : serv.holded = false → serv.holder = none ∧ serv.pendingers = []
  holder : serv.holded = true → serv.holder ≠ none

inductive Acquired (serv : ServState) (id : ClientId) : Served → Prop where
  | first {holder : ClientId} : serv.holded = true → serv.holder = some holder → holder ≠ id →
      serv.pendingers = [] →
      Acquired serv id ⟨⟨some holder, true, [id]⟩, .retry, some (.revoke, holder)⟩
  | later {holder : ClientId} : serv.holded = true → serv.holder = some holder → holder ≠ id →
      serv.pendingers ≠ [] →
      Acquired serv id ⟨⟨some holder, true, serv.pendingers ++ [id]⟩, .retry, none⟩
  | again : serv.holded = true → serv.holder = some id →
      Acquired serv id ⟨serv, if serv.pendingers ≠ [] then .retire else .ok, none⟩
  | fresh : serv.holded = false → serv.pendingers = [] →
      Acquired serv id ⟨⟨some id, true, []⟩, .ok, none⟩

theorem Valid.acquire (valid : serv.Valid) (id : ClientId) :
    serv.Acquired id (serv.acquire id) := by
  unfold ServState.acquire
  cases held : serv.holded with
  | false =>
      have empty := (valid.idle held).2
      simp only [Bool.false_eq_true, if_false, empty, ne_eq, not_true_eq_false]
      exact .fresh held empty
  | true =>
      obtain ⟨holder, owner⟩ := Option.ne_none_iff_exists'.mp (valid.holder held)
      simp only [if_true]
      split
      next other =>
        have different : holder ≠ id := fun same => other (by rw [owner, same])
        by_cases empty : serv.pendingers = []
        · simp only [empty, owner, if_true, Option.map_some, List.nil_append]
          exact .first held owner different empty
        · simp only [empty, owner, if_false]
          exact .later held owner different empty
      next mine =>
        have own : serv.holder = some id := not_not.mp mine
        have same : { serv with holded := true, holder := some id } = serv := by
          rw [← own, ← held]
        rw [same]
        exact .again held own

variable {id : ClientId}

theorem Acquired.keeps {c : ClientId} {served : Served} (acquired : serv.Acquired id served)
    (held : serv.holded = true) (owner : serv.holder = some c) :
    served.state.holded = true ∧ served.state.holder = some c := by
  cases acquired <;> simp_all

theorem Acquired.grants {served : Served} (acquired : serv.Acquired id served)
    (grants : served.r ≠ .retry) : served.state.holded = true ∧ served.state.holder = some id := by
  cases acquired <;> simp_all

inductive Released (serv : ServState) : Served → Prop where
  | handed {next : ClientId} {rest : List ClientId} : serv.pendingers = next :: rest →
      Released serv ⟨⟨some next, true, rest⟩, .ok, some (.retry, next)⟩
  | freed : serv.pendingers = [] → Released serv ⟨{}, .ok, none⟩

theorem release_released (held : serv.holded = true) (owner : serv.holder = some id) :
    serv.Released (serv.release id) := by
  simp only [ServState.release, held, owner, if_true]
  split
  next next rest queued => exact .handed queued
  next empty =>
    simp only [empty]
    exact .freed empty

theorem release_ignored (other : ¬ (serv.holded = true ∧ serv.holder = some id)) :
    serv.release id = ⟨serv, .ok, none⟩ := by
  unfold ServState.release
  split
  next held =>
    rw [if_neg fun owner => other ⟨held, owner⟩]
  next => rfl

end ServState

def Request.serve (request : Request) (serv : ServState) (id : ClientId) : Served :=
  match request with
  | .acquire _ => serv.acquire id
  | .release _ => serv.release id

theorem ServState.Valid.serve (valid : serv.Valid) (request : Request) (id : ClientId) :
    (request.serve serv id).state.Valid := by
  cases request with
  | acquire lid =>
      have spec := valid.acquire id
      rw [Request.serve]
      generalize serv.acquire id = served at spec
      cases spec <;> constructor <;> simp_all
  | release lid =>
      rw [Request.serve]
      by_cases mine : serv.holded = true ∧ serv.holder = some id
      · have spec := ServState.release_released mine.1 mine.2
        generalize serv.release id = served at spec
        cases spec <;> constructor <;> simp_all
      · rw [ServState.release_ignored mine]
        exact valid

def Pc.request : Pc → Option Request
  | .acquireCall lid | .reacquireCall lid | .retryCall lid => some (.acquire lid)
  | .releaseCall lid | .revokeCall lid => some (.release lid)
  | .outside | .acquireWait _ | .acquireWoken _ | .holding _ => none

/-- How far the RPC of a thread has come.  Once the server has handled it, its
answer `r` is known. -/
inductive Wire where
  | quiet
  | request (request : Request)
  /-- The server has sent a callback to `target`. -/
  | callback (request : Request) (r : Answer) (kind : Callback) (target : ClientId)
  /-- The callback is handled by a thread of `target`. -/
  | handling (request : Request) (r : Answer) (target : ClientId) (handler : ThreadId)
  | reply (request : Request) (r : Answer)
  deriving DecidableEq, Repr

namespace Wire

def subject : Wire → Option Request
  | .quiet => none
  | .request asked | .callback asked _ _ _ | .handling asked _ _ _ | .reply asked _ => some asked

def asks : Wire → Option Request
  | .request asked => some asked
  | _ => none

def answered : Wire → Option (Request × Answer)
  | .quiet | .request _ => none
  | .callback asked r _ _ | .handling asked r _ _ | .reply asked r => some (asked, r)

end Wire

variable (pc : Pc)

def Pc.wire : Wire :=
  match pc.request with
  | none => .quiet
  | some request => .request request

abbrev Caller := ClientId × ThreadId

structure World where
  server : LockId → ServState
  client : ClientId → LockClient
  wire : Caller → Wire

inductive Event where
  /-- A thread runs on its own: it calls `acquire` or `release`, or wakes up. -/
  | act (c : ClientId) (event : ClientEvent)
  /-- The server handles the request of a thread. -/
  | serve (caller : Caller)
  /-- The callback for the RPC of `caller` is taken up by a thread of its target. -/
  | handle (caller : Caller) (handler : ThreadId)
  /-- The callback has returned, and the server answers `caller`. -/
  | acknowledge (caller : Caller)
  /-- A thread gets its answer and runs on. -/
  | deliver (caller : Caller) (woken : Option ThreadId)
  deriving DecidableEq, Repr

def ClientEvent.spontaneous : ClientEvent → Bool
  | .acquire _ _ | .wake _ | .spurious _ | .release _ _ => true
  | _ => false

def Pc.returnEvent (t : ThreadId) (r : Answer) (woken : Option ThreadId) : Option ClientEvent :=
  match pc with
  | .acquireCall _ => some (.acquireReturn t r)
  | .releaseCall _ => some (.releaseReturn t)
  | .reacquireCall _ => some (.reacquireReturn t r woken)
  | .revokeCall _ => some (.revokeReturn t)
  | .retryCall _ => some (.retryReturn t r woken)
  | .outside | .acquireWait _ | .acquireWoken _ | .holding _ => none

variable (kind : Callback)

def Callback.event (t : ThreadId) (lid : LockId) : ClientEvent :=
  match kind with
  | .revoke => .revokeHandler t lid
  | .retry => .retryHandler t lid

def Callback.trigger : Callback → Trigger
  | .revoke => .revoke
  | .retry => .retry

@[simp]
theorem Callback.event_actor (t : ThreadId) (lid : LockId) : (kind.event t lid).actor = t := by
  cases kind <;> rfl

@[simp]
theorem Callback.event_trigger (t : ThreadId) (lid : LockId) :
    (kind.event t lid).trigger = some kind.trigger := by
  cases kind <;> rfl

@[simp]
theorem Callback.event_names (t : ThreadId) (lid : LockId) :
    (kind.event t lid).names = some lid := by
  cases kind <;> rfl

namespace World

def initial : World := ⟨fun _ => {}, fun _ => .initial, fun _ => .quiet⟩

def cell (world : World) (c : ClientId) (lid : LockId) : Cell :=
  ((world.client c).cache lid).cell

def thread (world : World) (caller : Caller) : Pc :=
  (world.client caller.1).thread caller.2

variable (world : World)

def setWire (caller : Caller) (wire : Wire) : World :=
  { world with wire := Function.update world.wire caller wire }

def run (c : ClientId) (event : ClientEvent) : Option World :=
  ((world.client c).step event).map fun next =>
    { world with
      client := Function.update world.client c next
      wire := Function.update world.wire (c, event.actor) (next.thread event.actor).wire }

def serve (world : World) (caller : Caller) (request : Request) : World :=
  let served := request.serve (world.server request.lid) caller.1
  { world with
    server := Function.update world.server request.lid served.state
    wire := Function.update world.wire caller
      (match served.callback with
      | none => .reply request served.r
      | some (kind, target) => .callback request served.r kind target) }

/-- One step of the system.  A client that dies in a handler never answers the
callback.  The name of a handler's thread is free again when it is back outside. -/
def step : Event → Option World
  | .act c event => if event.spontaneous then world.run c event else none
  | .serve caller =>
      match world.wire caller with
      | .request request => some (world.serve caller request)
      | _ => none
  | .handle caller handler =>
      match world.wire caller with
      | .callback request r kind target =>
          (world.run target (kind.event handler request.lid)).map fun next =>
            if (next.client target).aborted.isSome then next
            else next.setWire caller (.handling request r target handler)
      | _ => none
  | .acknowledge caller =>
      match world.wire caller with
      | .handling request r target handler =>
          if world.thread (target, handler) = .outside then
            some (world.setWire caller (.reply request r))
          else none
      | _ => none
  | .deliver caller woken =>
      match world.wire caller with
      | .reply _ r => ((world.thread caller).returnEvent caller.2 r woken).bind (world.run caller.1)
      | _ => none

/-- The parties are in order, and the wire of a thread is about the RPC that the
thread waits for. -/
structure Linked (world : World) : Prop where
  valid : ∀ lid, (world.server lid).Valid
  coherent : ∀ c, (world.client c).Coherent
  subject : ∀ caller, (world.wire caller).subject = (world.thread caller).request

def Source (event : Event) (caller : Caller) (lid : LockId) : Trigger → Prop
  | .call => True
  | .unlock => ∃ woken, event = .act caller.1 (.release caller.2 woken)
  | .answer r => ∃ woken request r', event = .deliver caller woken ∧
      world.wire caller = .reply request r' ∧ (request = .acquire lid → r' = r)
  | .revoke => ∃ parent request r, event = .handle parent caller.2 ∧ request.lid = lid ∧
      world.wire parent = .callback request r .revoke caller.1
  | .retry => ∃ parent request r, event = .handle parent caller.2 ∧ request.lid = lid ∧
      world.wire parent = .callback request r .retry caller.1

structure Moved (world : World) (event : Event) (caller : Caller) (lid : LockId)
    (trigger : Trigger) (next : World) : Prop where
  ran : Section (world.client caller.1) caller.2 lid trigger (next.client caller.1)
  source : world.Source event caller lid trigger
  clients : ∀ c, c ≠ caller.1 → next.client c = world.client c
  server : next.server = world.server
  own : next.wire caller = (next.thread caller).wire
  wires : ∀ other, other ≠ caller → next.wire other = world.wire other ∨
    ∃ request r kind, trigger = Callback.trigger kind ∧ request.lid = lid ∧
      world.wire other = .callback request r kind caller.1 ∧
      next.wire other = .handling request r caller.1 caller.2

inductive Effect (world : World) (event : Event) (next : World) : Prop where
  | moved (caller : Caller) (lid : LockId) (trigger : Trigger) :
      world.Moved event caller lid trigger next → Effect world event next
  /-- A waiting thread wakes up, or a client dies. -/
  | aside : next.server = world.server → next.wire = world.wire →
      (∀ c lid, next.cell c lid = world.cell c lid) →
      (∀ caller, next.thread caller = world.thread caller ∨
        ∃ lid, world.thread caller = .acquireWait lid ∧ next.thread caller = .acquireWoken lid) →
      Effect world event next
  | served (caller : Caller) (request : Request) :
      event = .serve caller → world.wire caller = .request request →
      next = world.serve caller request → Effect world event next
  | acknowledged (caller : Caller) (request : Request) (r : Answer) (target : ClientId)
      (handler : ThreadId) :
      world.wire caller = .handling request r target handler →
      next = world.setWire caller (.reply request r) → Effect world event next

theorem Linked.initial : World.initial.Linked :=
  ⟨fun _ => ⟨fun _ => ⟨rfl, rfl⟩, by simp [World.initial]⟩, fun _ => LockClient.Coherent.initial,
    fun _ => rfl⟩

end World

variable {request : Request}

namespace Turn

variable {lid : LockId} {trigger : Trigger} {pc after : Pc} {cell written : Cell}

theorem request_before (turn : Turn lid trigger pc cell after written)
    (inside : pc.request = some request) : request.lid = lid ∧ ∃ r, trigger = .answer r := by
  cases turn
  case callRequest _ position => rcases position with rfl | rfl <;> cases inside
  case callTake position => rcases position with rfl | rfl <;> cases inside
  case callWait _ position => rcases position with rfl | rfl <;> cases inside
  all_goals
    cases inside
    try exact ⟨rfl, _, rfl⟩

theorem position_lid {other : LockId} (turn : Turn lid trigger pc cell after written)
    (position : pc = .acquireCall other ∨ pc = .acquireWoken other) : other = lid := by
  cases turn
  case callRequest _ start => rcases start with rfl | rfl <;> simp_all
  case callTake start => rcases start with rfl | rfl <;> simp_all
  case callWait _ start => rcases start with rfl | rfl <;> simp_all
  all_goals simp_all

theorem request_after (turn : Turn lid trigger pc cell after written)
    (inside : after.request = some request) : request.lid = lid := by
  cases turn <;> cases inside <;> rfl

end Turn

@[simp]
theorem Pc.wire_asks : pc.wire.asks = pc.request := by
  cases pc <;> rfl

@[simp]
theorem Pc.wire_answered : pc.wire.answered = none := by
  cases pc <;> rfl

@[simp]
theorem Pc.wire_subject : pc.wire.subject = pc.request := by
  cases pc <;> rfl

theorem Pc.wire_of_idle {pc : Pc} (idle : pc.request = none) : pc.wire = .quiet := by
  simp [Pc.wire, idle]

theorem Wire.eq_quiet {wire : Wire} (idle : wire.subject = none) : wire = .quiet := by
  cases wire <;> simp_all [Wire.subject]

theorem Outcome.request_eq {client next : LockClient} {event : ClientEvent} {u : ThreadId}
    (outcome : Outcome client event next) (other : u ≠ event.actor) :
    (next.thread u).request = (client.thread u).request := by
  cases outcome with
  | ran lid trigger _ _ ran =>
      rcases ran.others u other with same | ⟨waited, woken⟩
      · rw [same]
      · rw [waited, woken]
        rfl
  | roused lid _ _ threads _ _ => rw [threads, Function.update_of_ne other]
  | died site shape _ _ => rw [shape]

namespace World

variable {world next : World} {event : Event} {caller : Caller} {c : ClientId} {lid : LockId}

/-- A client that runs one section changes its own threads and the wire of the
thread that ran. -/
structure Ran (world : World) (c : ClientId) (event : ClientEvent) (next : World) : Prop where
  linked : next.Linked
  outcome : Outcome (world.client c) event (next.client c)
  clients : ∀ d, d ≠ c → next.client d = world.client d
  server : next.server = world.server
  own : next.wire (c, event.actor) = (next.thread (c, event.actor)).wire
  wires : ∀ other, other ≠ (c, event.actor) → next.wire other = world.wire other

variable {action : ClientEvent}

section

variable (linked : world.Linked)

include linked

theorem Linked.ran (taken : world.run c action = some next) : world.Ran c action next := by
  obtain ⟨after, step, rfl⟩ := Option.map_eq_some_iff.mp taken
  obtain ⟨coherent, outcome⟩ := LockClient.step_outcome (linked.coherent c) step
  refine ⟨⟨linked.valid, fun d => ?_, fun other => ?_⟩, ?_, fun d distinct => ?_, rfl, ?_,
    fun other distinct => ?_⟩
  · by_cases here : d = c
    · subst here
      simpa using coherent
    · simpa [here] using linked.coherent d
  · by_cases own : other = (c, action.actor)
    · subst own
      simp [thread]
    · simp only [Function.update_of_ne own, linked.subject other, thread]
      by_cases here : other.1 = c
      · have distinct : other.2 ≠ action.actor := fun same => own (Prod.ext here same)
        rw [here, Function.update_self, outcome.request_eq distinct]
      · rw [Function.update_of_ne here]
  · simpa using outcome
  · exact Function.update_of_ne distinct _ _
  · simp [thread]
  · exact Function.update_of_ne distinct _ _

theorem Linked.busy (under : (world.wire caller).subject = some request) :
    (world.thread caller).request = some request := by
  rw [← linked.subject caller, under]

theorem Linked.quiet_of_idle (idle : (world.thread caller).request = none) :
    world.wire caller = .quiet :=
  Wire.eq_quiet ((linked.subject caller).trans idle)

theorem Linked.setWire {wire : Wire} (same : wire.subject = (world.wire caller).subject) :
    (world.setWire caller wire).Linked := by
  refine ⟨linked.valid, linked.coherent, fun other => ?_⟩
  by_cases here : other = caller
  · subst here
    simpa [World.setWire, thread, same] using linked.subject other
  · simpa [World.setWire, thread, here] using linked.subject other

theorem Ran.aside (ran : world.Ran c action next)
    (threads : ∀ u, (next.client c).thread u = (world.client c).thread u ∨
      ∃ lid, (world.client c).thread u = .acquireWait lid ∧
        (next.client c).thread u = .acquireWoken lid)
    (cells : ∀ lid, ((next.client c).cache lid).cell = ((world.client c).cache lid).cell)
    (idle : ((world.client c).thread action.actor).request = none) : Effect world event next := by
  have still : ((next.client c).thread action.actor).request = none := by
    rcases threads action.actor with same | ⟨lid, _, woken⟩
    · rw [same, idle]
    · rw [woken]
      rfl
  refine .aside ran.server (funext fun other => ?_) (fun d lid => ?_) fun other => ?_
  · by_cases here : other = (c, action.actor)
    · have before : world.wire (c, action.actor) = .quiet := linked.quiet_of_idle idle
      rw [here, ran.own, before]
      exact Pc.wire_of_idle still
    · exact ran.wires other here
  · by_cases here : d = c
    · subst here
      exact cells lid
    · rw [cell, cell, ran.clients d here]
  · by_cases here : other.1 = c
    · have mine := threads other.2
      rw [← here] at mine
      exact mine
    · exact .inl (by rw [thread, thread, ran.clients _ here])

theorem Ran.cases (ran : world.Ran c action next) :
    (∃ lid trigger, action.trigger = some trigger ∧ action.names.getD lid = lid ∧
        Section (world.client c) action.actor lid trigger (next.client c)) ∨
      ((next.client c).aborted ≠ none ∨ action.trigger = none) ∧
        ∀ event, Effect world event next := by
  cases ran.outcome with
  | ran lid trigger triggered names row => exact .inl ⟨lid, trigger, triggered, names, row⟩
  | roused lid silent waited threads cells _ =>
      refine .inr ⟨.inr silent, fun event => ran.aside linked (fun u => ?_) cells ?_⟩
      · rw [threads]
        by_cases here : u = action.actor
        · subst here
          exact .inr ⟨lid, waited, by simp⟩
        · exact .inl (Function.update_of_ne here _ _)
      · rw [waited]
        rfl
  | died site shape reached handler =>
      refine .inr ⟨.inl (by simp [shape]), fun event =>
        ran.aside linked (fun u => .inl (by rw [shape])) (fun lid => by rw [shape]; rfl) ?_⟩
      cases site with
      | release =>
          obtain ⟨lid, holds, _⟩ := reached rfl
          rw [holds]
          rfl
      | retryHandler =>
          rw [handler rfl]
          rfl

theorem Ran.effect (ran : world.Ran c action next)
    (source : ∀ lid trigger, action.trigger = some trigger →
      world.Source event (c, action.actor) lid trigger) : Effect world event next := by
  rcases ran.cases linked with ⟨lid, trigger, triggered, _, row⟩ | ⟨_, effect⟩
  · exact .moved (c, action.actor) lid trigger ⟨row, source lid trigger triggered,
      ran.clients, ran.server, ran.own, fun other distinct => .inl (ran.wires other distinct)⟩
  · exact effect event

end

theorem act_source {trigger : Trigger} (c : ClientId) (lid : LockId)
    (spontaneous : action.spontaneous = true) (triggered : action.trigger = some trigger) :
    world.Source (.act c action) (c, action.actor) lid trigger := by
  cases action <;> cases triggered <;> simp_all [ClientEvent.spontaneous, Source, ClientEvent.actor]

variable {r : Answer}

theorem deliver_source {trigger : Trigger} {woken : Option ThreadId} (linked : world.Linked)
    (lid : LockId) (answered : world.wire caller = .reply request r)
    (returns : (world.thread caller).returnEvent caller.2 r woken = some action)
    (triggered : action.trigger = some trigger) :
    action.actor = caller.2 ∧ world.Source (.deliver caller woken) caller lid trigger := by
  have asked : (world.thread caller).request = some request :=
    linked.busy (by rw [answered]; rfl)
  cases position : world.thread caller <;> rw [position] at asked returns <;> cases returns <;>
    cases triggered <;> refine ⟨rfl, woken, request, r, rfl, answered, ?_⟩ <;> cases asked <;> simp

theorem Linked.handle {kind : Callback} {handler : ThreadId} (linked : world.Linked)
    (called : world.wire caller = .callback request r kind c)
    (ran : world.Ran c (kind.event handler request.lid) next) :
    let after := if (next.client c).aborted.isSome then next
      else next.setWire caller (.handling request r c handler)
    after.Linked ∧ Effect world (.handle caller handler) after := by
  rcases ran.cases linked with ⟨lid, trigger, triggered, names, row⟩ | ⟨silent, effect⟩
  · rw [Callback.event_trigger, Option.some.injEq] at triggered
    rw [Callback.event_actor] at row
    have about : request.lid = lid := by rwa [Callback.event_names] at names
    -- the parent is inside an RPC and the handler is not, so they are different threads
    have asked : (world.thread caller).request = some request :=
      linked.busy (by rw [called]; rfl)
    have started : (world.client c).thread handler = .outside := by
      apply row.turn.outside_of_callback
      rw [← triggered]
      cases kind <;> simp [Callback.trigger]
    have distinct : caller ≠ (c, handler) := by
      rintro rfl
      rw [thread, started] at asked
      cases asked
    have own := ran.own
    have wires := ran.wires
    rw [Callback.event_actor] at own wires
    have waiting : next.wire caller = .callback request r kind c := by
      rw [wires caller distinct, called]
    simp only [row.running, Option.isSome_none, Bool.false_eq_true, if_false]
    refine ⟨ran.linked.setWire (by rw [waiting]; rfl), .moved (c, handler) lid trigger
      ⟨row, ?_, ran.clients, ran.server, ?_, fun other different => ?_⟩⟩
    · rw [← triggered]
      cases kind <;> exact ⟨caller, request, r, rfl, about, called⟩
    · exact (Function.update_of_ne distinct.symm _ _).trans own
    · by_cases parent : other = caller
      · subst parent
        exact .inr ⟨request, r, kind, triggered.symm, about, called, by simp [World.setWire]⟩
      · exact .inl (by simpa [World.setWire, parent] using wires other different)
  · have dead : (next.client c).aborted.isSome = true := by
      rcases silent with aborted | untriggered
      · exact Option.isSome_iff_ne_none.mpr aborted
      · rw [Callback.event_trigger] at untriggered
        cases untriggered
    simp only [dead, if_true]
    exact ⟨ran.linked, effect _⟩

variable {other : Caller}

theorem serve_wire_of_ne (different : other ≠ caller) (request : Request) :
    (world.serve caller request).wire other = world.wire other := by
  simp [serve, different]

theorem serve_server_self (request : Request) :
    (world.serve caller request).server request.lid =
      (request.serve (world.server request.lid) caller.1).state := by
  simp [serve]

theorem serve_server_of_ne {other : LockId} (different : other ≠ request.lid) :
    (world.serve caller request).server other = world.server other := by
  simp [serve, different]

theorem serve_asks_self (request : Request) :
    ((world.serve caller request).wire caller).asks = none := by
  simp only [serve, Function.update_self]
  split <;> rfl

theorem serve_answered_self (request : Request) :
    ((world.serve caller request).wire caller).answered =
      some (request, (request.serve (world.server request.lid) caller.1).r) := by
  simp only [serve, Function.update_self]
  split <;> rfl

theorem serve_wire_subject (request : Request) :
    ((world.serve caller request).wire caller).subject = some request := by
  simp only [serve, Function.update_self]
  split <;> rfl

theorem Linked.step (linked : world.Linked) (taken : world.step event = some next) :
    next.Linked ∧ Effect world event next := by
  cases event with
  | act c action =>
      simp only [World.step, Option.ite_none_right_eq_some] at taken
      have ran := linked.ran taken.2
      exact ⟨ran.linked, ran.effect linked fun lid trigger => act_source c lid taken.1⟩
  | serve caller =>
      simp only [World.step] at taken
      split at taken
      next request asked =>
        cases taken
        refine ⟨⟨fun lid => ?_, linked.coherent, fun other => ?_⟩,
          .served caller request rfl asked rfl⟩
        · by_cases here : lid = request.lid
          · subst here
            rw [serve_server_self]
            exact (linked.valid _).serve request caller.1
          · rw [serve_server_of_ne here]
            exact linked.valid lid
        · by_cases here : other = caller
          · subst here
            rw [serve_wire_subject]
            exact (linked.busy (by rw [asked]; rfl)).symm
          · rw [serve_wire_of_ne here]
            exact linked.subject other
      next => cases taken
  | handle caller handler =>
      simp only [World.step] at taken
      split at taken
      next request r kind target called =>
        obtain ⟨middle, run, rfl⟩ := Option.map_eq_some_iff.mp taken
        exact linked.handle called (linked.ran run)
      next => cases taken
  | acknowledge caller =>
      simp only [World.step] at taken
      split at taken
      next request r target handler handled =>
        simp only [Option.ite_none_right_eq_some, Option.some.injEq] at taken
        obtain ⟨_, rfl⟩ := taken
        exact ⟨linked.setWire (by rw [handled]; rfl),
          .acknowledged caller request r target handler handled rfl⟩
      next => cases taken
  | deliver caller woken =>
      simp only [World.step] at taken
      split at taken
      next request r answered =>
        obtain ⟨action, returns, run⟩ := Option.bind_eq_some_iff.mp taken
        have ran := linked.ran run
        refine ⟨ran.linked, ran.effect linked fun lid trigger triggered => ?_⟩
        have source := deliver_source linked lid answered returns triggered
        rw [source.1]
        exact source.2
      next => cases taken

theorem run_client (ran : world.run c action = some next) (d : ClientId) :
    next.client d = world.client d ∨
      ∃ action, (world.client d).step action = some (next.client d) := by
  obtain ⟨after, step, rfl⟩ := Option.map_eq_some_iff.mp ran
  by_cases here : d = c
  · subst here
    exact .inr ⟨action, by simpa using step⟩
  · exact .inl (Function.update_of_ne here _ _)

theorem step_client (taken : world.step event = some next) (d : ClientId) :
    next.client d = world.client d ∨
      ∃ action, (world.client d).step action = some (next.client d) := by
  cases event with
  | act c action =>
      simp only [World.step, Option.ite_none_right_eq_some] at taken
      exact run_client taken.2 d
  | serve caller =>
      simp only [World.step] at taken
      split at taken <;> cases taken
      exact .inl rfl
  | handle caller handler =>
      simp only [World.step] at taken
      split at taken
      next request r kind target called =>
        obtain ⟨middle, ran, rfl⟩ := Option.map_eq_some_iff.mp taken
        have same : ∀ wire, (middle.setWire caller wire).client d = middle.client d := fun _ => rfl
        split
        · exact run_client ran d
        · rw [same]
          exact run_client ran d
      next => cases taken
  | acknowledge caller =>
      simp only [World.step] at taken
      split at taken
      next => 
        simp only [Option.ite_none_right_eq_some, Option.some.injEq] at taken
        obtain ⟨_, rfl⟩ := taken
        exact .inl rfl
      next => cases taken
  | deliver caller woken =>
      simp only [World.step] at taken
      split at taken
      next =>
        obtain ⟨action, _, ran⟩ := Option.bind_eq_some_iff.mp taken
        exact run_client ran d
      next => cases taken

namespace Moved

variable {trigger : Trigger}

section

variable (moved : world.Moved event caller lid trigger next)

include moved

theorem turn :
    Turn lid trigger (world.thread caller) (world.cell caller.1 lid) (next.thread caller)
      (next.cell caller.1 lid) :=
  moved.ran.turn

theorem cell_of_ne {other : LockId} (different : c ≠ caller.1 ∨ other ≠ lid) :
    next.cell c other = world.cell c other := by
  by_cases here : c = caller.1
  · subst here
    have distinct : other ≠ lid := different.resolve_left (not_not.mpr rfl)
    rw [cell, cell, LockClient.cache, LockClient.cache, moved.ran.elsewhere other distinct]
  · rw [cell, cell, moved.clients c here]

theorem thread_of_ne (different : other ≠ caller) : next.thread other = world.thread other ∨
      (world.thread other = .acquireWait lid ∧ next.thread other = .acquireWoken lid) := by
  by_cases here : other.1 = caller.1
  · have distinct : other.2 ≠ caller.2 := fun same => different (Prod.ext here same)
    have kept := moved.ran.others other.2 distinct
    rw [← here] at kept
    exact kept
  · exact .inl (by rw [thread, thread, moved.clients _ here])

theorem traffic_of_ne (different : other ≠ caller) :
    (next.wire other).asks = (world.wire other).asks ∧
      (next.wire other).answered = (world.wire other).answered := by
  rcases moved.wires other different with same | ⟨request, r, kind, _, _, before, after⟩
  · rw [same]
    exact ⟨rfl, rfl⟩
  · rw [before, after]
    exact ⟨rfl, rfl⟩

theorem own_before (linked : world.Linked) :
    world.wire caller = .quiet ∨ ∃ woken request r r', trigger = .answer r ∧
      event = .deliver caller woken ∧ world.wire caller = .reply request r' ∧
      request.lid = lid ∧ (request = .acquire lid → r' = r) := by
  cases inside : (world.thread caller).request with
  | none => exact .inl (linked.quiet_of_idle inside)
  | some request =>
      obtain ⟨about, r, rfl⟩ := moved.turn.request_before inside
      obtain ⟨woken, asked, r', delivered, answered, agrees⟩ := moved.source
      have same := linked.busy (show (world.wire caller).subject = some asked by rw [answered]; rfl)
      obtain rfl : request = asked := Option.some.inj (inside.symm.trans same)
      exact .inr ⟨woken, request, r, r', rfl, delivered, answered, about, agrees⟩

end

theorem answer (linked : world.Linked) (moved : world.Moved event caller lid (.answer r) next)
    (inside : (world.thread caller).request = some (.acquire lid)) :
    ∃ woken, event = .deliver caller woken ∧ world.wire caller = .reply (.acquire lid) r := by
  obtain ⟨woken, request, r', delivered, answered, agrees⟩ := moved.source
  have same := linked.busy (show (world.wire caller).subject = some request by rw [answered]; rfl)
  obtain rfl : Request.acquire lid = request := Option.some.inj (inside.symm.trans same)
  exact ⟨woken, delivered, by rw [answered, agrees rfl]⟩

section

variable (moved : world.Moved event caller lid trigger next)

include moved

theorem own_asks : (next.wire caller).asks = (next.thread caller).request := by
  rw [moved.own, Pc.wire_asks]

theorem own_answered : (next.wire caller).answered = none := by
  rw [moved.own, Pc.wire_answered]

theorem asks_elsewhere (linked : world.Linked)
    (different : other.1 ≠ caller.1 ∨ request.lid ≠ lid) :
    (next.wire other).asks = some request ↔ (world.wire other).asks = some request := by
  by_cases here : other = caller
  · subst here
    have distinct : request.lid ≠ lid := different.resolve_left (not_not.mpr rfl)
    constructor
    · intro asks
      rw [moved.own_asks] at asks
      exact absurd (moved.turn.request_after asks) distinct
    · intro asks
      rcases moved.own_before linked with quiet | ⟨_, _, _, _, _, _, answered, _, _⟩
      · rw [quiet] at asks
        cases asks
      · rw [answered] at asks
        cases asks
  · rw [(moved.traffic_of_ne here).1]

theorem answered_elsewhere (linked : world.Linked)
    (different : other.1 ≠ caller.1 ∨ request.lid ≠ lid) :
    (next.wire other).answered = some (request, r) ↔
      (world.wire other).answered = some (request, r) := by
  by_cases here : other = caller
  · subst here
    have distinct : request.lid ≠ lid := different.resolve_left (not_not.mpr rfl)
    rw [moved.own_answered]
    refine ⟨fun impossible => (by cases impossible), fun answers => ?_⟩
    rcases moved.own_before linked with quiet | ⟨_, asked, _, _, _, _, answered, about, _⟩
    · rw [quiet] at answers
      cases answers
    · rw [answered] at answers
      cases answers
      exact absurd about distinct
  · rw [(moved.traffic_of_ne here).2]

end

end Moved

end World

end Ctgfs.Lock
