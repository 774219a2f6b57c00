import Ctgfs.Lock.MutualExclusion

/-!
# Nobody waits for a lock that is not handed on

The server asks for a lock back only once, when the first client is queued for it.
Everything else rests on what is under way for the recorded holder: a request, a
callback or an answer, or the revocation flag of its cached lock.  The invariant
lists these reasons to go on.  `Prompt` names the four places in which the code can
lose the last of them.
-/

namespace Ctgfs.Lock

open Foundation

/-- The sections of a client, by what they mean for the client's obligation to
hand a lock on. -/
inductive Stroke (lid : LockId) (trigger : Trigger) (pc : Pc) (cell : Cell) (after : Pc)
    (written : Cell) : Prop where
  | sends {request : Request} : ¬ written.Owned → after.request = some request →
      Stroke lid trigger pc cell after written
  | takes : cell.state = .free → written = ⟨.locked, cell.isRevoked⟩ → trigger ≠ .revoke →
      Stroke lid trigger pc cell after written
  | rests : cell.Owned → written = cell → trigger ≠ .revoke →
      (cell.state = .free → pc ≠ .acquireCall lid ∧ pc ≠ .acquireWoken lid) →
      Stroke lid trigger pc cell after written
  | noted : cell.state = .locked ∨ cell.state = .acquiring → written = ⟨cell.state, true⟩ →
      trigger = .revoke → Stroke lid trigger pc cell after written
  | keeps : cell = ⟨.locked, false⟩ → written = ⟨.free, false⟩ → trigger = .unlock →
      Stroke lid trigger pc cell after written
  | granted {r : Answer} : trigger = .answer r → r ≠ .retry → pc = .acquireCall lid →
      cell = ⟨.acquiring, false⟩ → written = ⟨.locked, decide (r ≠ .ok)⟩ →
      Stroke lid trigger pc cell after written
  | freed {r : Answer} : trigger = .answer r →
      pc = .retryCall lid ∨ pc = .reacquireCall lid ∧ r ≠ .retry → cell.state = .acquiring →
      written = ⟨.free, cell.isRevoked || decide (r ≠ .ok)⟩ → after = .outside →
      Stroke lid trigger pc cell after written
  | stays : ¬ cell.Owned → ¬ written.Owned → trigger ≠ .retry →
      (written.state = .acquiring → written = cell ∧ trigger ≠ .revoke) →
      (∀ r, trigger = .answer r → pc.request = some (.acquire lid) →
        r = .retry ∨ pc = .reacquireCall lid ∧ cell.state ≠ .acquiring) →
      Stroke lid trigger pc cell after written

variable {cell : Cell} {after pc : Pc}

theorem Stroke.of_unchanged {lid : LockId} {trigger : Trigger}
    (calls : trigger ≠ .retry ∧ trigger ≠ .revoke)
    (position : pc ≠ .acquireCall lid ∧ pc ≠ .acquireWoken lid)
    (loses : pc.request = some (.acquire lid) → pc = .reacquireCall lid ∧ cell.state ≠ .acquiring) :
    Stroke lid trigger pc cell after cell := by
  by_cases owned : cell.Owned
  · exact .rests owned rfl calls.2 fun _ => position
  · exact .stays owned owned calls.1 (fun _ => ⟨rfl, calls.2⟩) fun r _ inside => .inr (loses inside)

variable {r : Answer}

theorem Stroke.of_dropped {lid : LockId} {revoked : Bool} (away : ¬ cell.Owned)
    (loses : pc.request = some (.acquire lid) → r = .retry) :
    Stroke lid (.answer r) pc cell after ⟨.none, revoked⟩ := by
  refine .stays away (by simp [Cell.Owned]) (by simp) (by simp) fun r' same inside => .inl ?_
  cases same
  exact loses inside

theorem Turn.stroke {lid : LockId} {trigger : Trigger} {written : Cell}
    (turn : Turn lid trigger pc cell after written) : Stroke lid trigger pc cell after written := by
  cases turn with
  | callRequest => exact .sends (by simp [Cell.Owned]) rfl
  | callTake => exact .takes rfl rfl (by simp)
  | callWait position state =>
      rcases state with rfl | rfl
      · exact .rests (.inr rfl) rfl (by simp) (by simp)
      · exact .stays (by simp [Cell.Owned]) (by simp [Cell.Owned]) (by simp) (by simp) (by simp)
  | lateRequest => exact .sends (by simp [Cell.Owned]) rfl
  | lateTake => exact .takes rfl rfl (by simp)
  | lateWait => exact .rests (.inr rfl) rfl (by simp) (by simp)
  | refused => exact .of_dropped (by simp [Cell.Owned]) fun _ => rfl
  | askAgain => exact .sends (by simp [Cell.Owned]) rfl
  | @granted r answered => exact .granted rfl answered rfl rfl (by cases r <;> simp_all)
  | giveUp => exact .sends (by simp [Cell.Owned]) rfl
  | keep => exact .keeps rfl rfl rfl
  | released => exact .of_dropped (by simp [Cell.Owned]) (by simp [Pc.request])
  | reacquire => exact .sends (by simp [Cell.Owned]) rfl
  | overtaken => exact .of_unchanged (by simp) (by simp) (by simp [Pc.request])
  | reacquireRefused => exact .of_dropped (by simp [Cell.Owned]) fun _ => rfl
  | @reacquired r revoked answered =>
      exact .freed rfl (.inr ⟨rfl, answered⟩) rfl (by cases r <;> simp_all) rfl
  | reacquireIgnored other => exact .of_unchanged (by simp) (by simp) fun _ => ⟨rfl, other⟩
  | revokeIgnored state =>
      rcases state with rfl | rfl
      all_goals
        exact .stays (by simp [Cell.Owned]) (by simp [Cell.Owned]) (by simp) (by simp) (by simp)
  | revokeFree => exact .sends (by simp [Cell.Owned]) rfl
  | revokeNoted state => exact .noted state rfl rfl
  | revokeReleased => exact .of_dropped (by simp [Cell.Owned]) (by simp [Pc.request])
  | revokeOvertaken => exact .of_unchanged (by simp) (by simp) (by simp [Pc.request])
  | retryRequest => exact .sends (by simp [Cell.Owned]) rfl
  | retryIgnored state => exact .rests state rfl (by simp) (by simp)
  | retryAgain => exact .sends (by simp [Cell.Owned]) rfl
  | retryLate state => exact .rests state rfl (by simp) (by simp)
  | @retryFreed r revoked => exact .freed rfl (.inl rfl) rfl (by cases r <;> simp) rfl

namespace World

variable (world : World)

def Called (kind : Callback) (c : ClientId) (lid : LockId) : Prop :=
  ∃ parent request r, request.lid = lid ∧ world.wire parent = .callback request r kind c

def Moving (c : ClientId) (lid : LockId) : Prop :=
  world.Called .retry c lid ∨ ∃ t request, request.lid = lid ∧
    (world.wire (c, t)).asks = some request

/-- The answer `r` to an `acquire` of thread `t` is on its way. -/
def Answering (c : ClientId) (lid : LockId) (t : ThreadId) (r : Answer) : Prop :=
  (world.wire (c, t)).answered = some (.acquire lid, r)

/-- A thread inside `acquire` is able to run. -/
def Contended (c : ClientId) (lid : LockId) : Prop :=
  ∃ t, world.thread (c, t) = .acquireCall lid ∨ world.thread (c, t) = .acquireWoken lid

def Engaged (c : ClientId) (lid : LockId) : Prop :=
  (world.cell c lid).Owned ∨ world.Moving c lid ∨ ∃ t r, r ≠ .retry ∧ world.Answering c lid t r

def Warned (c : ClientId) (lid : LockId) : Prop :=
  (world.cell c lid).isRevoked = true ∨ world.Called .revoke c lid

structure Obliged (world : World) (c : ClientId) (lid : LockId) : Prop where
  locked : (world.cell c lid).state = .locked → world.Warned c lid
  free : (world.cell c lid).state = .free →
    world.Called .revoke c lid ∨ (world.cell c lid).isRevoked = true ∧ world.Contended c lid
  away : ¬ (world.cell c lid).Owned → world.Moving c lid ∨ ∃ t r, r ≠ .retry ∧
    world.Answering c lid t r ∧
    (r = .ok → (world.cell c lid).state = .acquiring → world.Warned c lid)

structure Attended (world : World) : Prop where
  engaged : ∀ lid c, (world.server lid).holder = some c → world.Engaged c lid
  obliged : ∀ lid c, (world.server lid).holder = some c → (world.server lid).pendingers ≠ [] →
    world.Obliged c lid

def Inside (c : ClientId) (lid : LockId) : Prop :=
  world.Contended c lid ∨ ∃ t, world.thread (c, t) = .acquireWait lid

/-- The holder `caller.1` does not lose its last reason to go on with the answer `r`:

* an `OK` is taken for a lock that others are queued for only by a client that is warned;
* a revoked lock that others are queued for is left `FREE` only if a thread of the
  client is inside `acquire`;
* the `acquire` of `need_send` ignores a grant only if something else is under way. -/
structure Heeds (world : World) (caller : Caller) (lid : LockId) (r : Answer) : Prop where
  warned : (world.server lid).pendingers ≠ [] → (world.cell caller.1 lid).state = .acquiring →
    r = .ok → world.Warned caller.1 lid
  inside : (world.server lid).pendingers ≠ [] → (world.cell caller.1 lid).state = .acquiring →
    world.thread caller = .retryCall lid ∨ world.thread caller = .reacquireCall lid ∧ r ≠ .retry →
    (world.cell caller.1 lid).isRevoked = true ∨ r ≠ .ok → world.Inside caller.1 lid
  ignored : world.thread caller = .reacquireCall lid → r ≠ .retry →
    (world.cell caller.1 lid).state = .none ∨ (world.cell caller.1 lid).state = .releasing →
    world.Moving caller.1 lid ∨
      ∃ t r', t ≠ caller.2 ∧ r' ≠ .retry ∧ world.Answering caller.1 lid t r'

/-- No step loses the last reason to hand a lock on: the holder heeds every answer,
and a lock that more than one client is queued for is not handed to a client that
has it in its cache. -/
def Prompt : Event → Prop
  | .serve caller => ∀ lid next rest, world.wire caller = .request (.release lid) →
      (world.server lid).holder = some caller.1 →
      (world.server lid).pendingers = next :: rest → rest ≠ [] → ¬ (world.cell next lid).Owned
  | .deliver caller _ => ∀ lid r, world.wire caller = .reply (.acquire lid) r →
      (world.server lid).holder = some caller.1 → world.Heeds caller lid r
  | .act _ _ | .handle _ _ | .acknowledge _ => True

variable {world next : World} {event : Event} {c : ClientId} {lid : LockId}

theorem Attended.initial : World.initial.Attended := by
  constructor
  · intro lid c holder
    cases holder
  · intro lid c holder
    cases holder

structure Grows (world next : World) (c : ClientId) (lid : LockId) : Prop where
  cell : next.cell c lid = world.cell c lid
  moving : world.Moving c lid → next.Moving c lid
  called : world.Called .revoke c lid → next.Called .revoke c lid
  answering : ∀ t r, r ≠ .retry → world.Answering c lid t r → next.Answering c lid t r
  contended : world.Contended c lid → next.Contended c lid

namespace Grows

theorem warned (grows : world.Grows next c lid) (warned : world.Warned c lid) :
    next.Warned c lid := by
  rw [Warned, grows.cell]
  exact warned.imp id grows.called

theorem engaged (grows : world.Grows next c lid) (engaged : world.Engaged c lid) :
    next.Engaged c lid := by
  rw [Engaged, grows.cell]
  refine engaged.imp id (Or.imp grows.moving ?_)
  rintro ⟨t, r, grants, answering⟩
  exact ⟨t, r, grants, grows.answering t r grants answering⟩

theorem obliged (grows : world.Grows next c lid) (obliged : world.Obliged c lid) :
    next.Obliged c lid := by
  constructor
  · intro locked
    rw [grows.cell] at locked
    exact grows.warned (obliged.locked locked)
  · intro free
    rw [grows.cell] at free ⊢
    exact (obliged.free free).imp grows.called (And.imp id grows.contended)
  · intro away
    rw [grows.cell] at away ⊢
    refine (obliged.away away).imp grows.moving ?_
    rintro ⟨t, r, grants, answering, warned⟩
    exact ⟨t, r, grants, grows.answering t r grants answering,
      fun ok acquiring => grows.warned (warned ok acquiring)⟩

end Grows

theorem Attended.transfer (attended : world.Attended) (server : next.server = world.server)
    (grows : ∀ c lid, world.Grows next c lid) : next.Attended := by
  constructor
  · intro lid c holder
    rw [server] at holder
    exact (grows c lid).engaged (attended.engaged lid c holder)
  · intro lid c holder queued
    rw [server] at holder queued
    exact (grows c lid).obliged (attended.obliged lid c holder queued)

variable {kind : Callback}

section Moved

variable {caller : Caller} {trigger : Trigger} {other : LockId}

section

variable (moved : world.Moved event caller lid trigger next)

include moved

theorem Moved.called (linked : world.Linked)
    (different : c ≠ caller.1 ∨ other ≠ lid ∨ trigger ≠ kind.trigger)
    (called : world.Called kind c other) : next.Called kind c other := by
  obtain ⟨parent, request, r, about, waiting⟩ := called
  have distinct : parent ≠ caller := by
    rintro rfl
    rcases moved.own_before linked with quiet | ⟨_, _, _, _, _, _, answered, _⟩
    · rw [quiet] at waiting
      cases waiting
    · rw [answered] at waiting
      cases waiting
  rcases moved.wires parent distinct with same | ⟨asked, r', taken, handles, here, before, _⟩
  · exact ⟨parent, request, r, about, same.trans waiting⟩
  · rw [waiting] at before
    cases before
    rcases different with client | lock | callback
    · exact absurd rfl client
    · exact absurd (about.symm.trans here) lock
    · exact absurd handles callback

theorem Moved.contended (idle : ∀ pc, world.thread caller = pc → c = caller.1 →
      pc ≠ .acquireCall other ∧ pc ≠ .acquireWoken other) (contended : world.Contended c other) :
    next.Contended c other := by
  obtain ⟨t, inside⟩ := contended
  have distinct : (c, t) ≠ caller := by
    intro same
    rw [same] at inside
    have position := idle _ rfl (congrArg Prod.fst same)
    exact inside.elim position.1 position.2
  refine ⟨t, ?_⟩
  rcases moved.thread_of_ne distinct with same | ⟨waited, _⟩
  · rwa [same]
  · rw [waited] at inside
    rcases inside with impossible | impossible <;> cases impossible

theorem Moved.moving (linked : world.Linked) (calls : trigger ≠ .retry)
    (moving : world.Moving caller.1 lid) : next.Moving caller.1 lid := by
  rcases moving with called | ⟨t, request, about, asks⟩
  · exact .inl (moved.called linked (.inr (.inr calls)) called)
  · refine .inr ⟨t, request, about, ?_⟩
    by_cases mine : (caller.1, t) = caller
    · rcases moved.own_before linked with quiet | ⟨_, _, _, _, _, _, answered, _⟩
      · rw [mine, quiet] at asks
        cases asks
      · rw [mine, answered] at asks
        cases asks
    · rwa [(moved.traffic_of_ne mine).1]

theorem Moved.answering {t : ThreadId} (other : t ≠ caller.2)
    (answering : world.Answering caller.1 lid t r) : next.Answering caller.1 lid t r := by
  rwa [Answering, (moved.traffic_of_ne fun same => other (congrArg Prod.snd same)).2]

theorem Moved.grows_elsewhere (linked : world.Linked) (different : c ≠ caller.1 ∨ other ≠ lid) :
    world.Grows next c other where
  cell := moved.cell_of_ne different
  moving := by
    rintro (called | ⟨t, request, rfl, asks⟩)
    · exact .inl (moved.called linked (different.imp_right .inl) called)
    · exact .inr ⟨t, request, rfl, (moved.asks_elsewhere linked different).mpr asks⟩
  called := moved.called linked (different.imp_right .inl)
  answering t r _ := (moved.answered_elsewhere linked different).mpr
  contended := by
    refine moved.contended fun pc position here => ?_
    have distinct : other ≠ lid := different.resolve_left (not_not.mpr here)
    have turn := moved.turn
    rw [position] at turn
    exact ⟨fun inside => distinct (turn.position_lid (.inl inside)),
      fun inside => distinct (turn.position_lid (.inr inside))⟩

theorem Moved.answered (linked : world.Linked)
    (answering : world.Answering caller.1 lid caller.2 r) :
    trigger = .answer r ∧ (world.thread caller).request = some (.acquire lid) ∧
      ∃ woken, event = .deliver caller woken ∧ world.wire caller = .reply (.acquire lid) r := by
  change (world.wire caller).answered = _ at answering
  rcases moved.own_before linked with
      quiet | ⟨woken, request, r', r'', triggered, delivered, answered, _, agrees⟩
  · rw [quiet] at answering
    cases answering
  · rw [answered] at answering
    cases answering
    have inside := linked.busy
      (show (world.wire caller).subject = some (.acquire lid) by rw [answered]; rfl)
    rw [agrees rfl]
    exact ⟨triggered, inside, woken, delivered, agrees rfl ▸ answered⟩

/-- The client of the section loses nothing that is under way but the answer that it
reads, and that only for a good reason. -/
theorem Moved.stays_engaged (linked : world.Linked) (prompt : world.Prompt event)
    (holder : (world.server lid).holder = some caller.1) (calls : trigger ≠ .retry)
    (away : ¬ (world.cell caller.1 lid).Owned)
    (loses : ∀ r, trigger = .answer r → (world.thread caller).request = some (.acquire lid) →
      r = .retry ∨ world.thread caller = .reacquireCall lid ∧
        (world.cell caller.1 lid).state ≠ .acquiring) (P : Answer → Prop)
    (good : (world.cell caller.1 lid).state ≠ .acquiring → ∀ r, P r)
    (before : world.Moving caller.1 lid ∨ ∃ t r, r ≠ .retry ∧ world.Answering caller.1 lid t r ∧
      P r) :
    next.Moving caller.1 lid ∨ ∃ t r, r ≠ .retry ∧ next.Answering caller.1 lid t r ∧ P r := by
  rcases before with moving | ⟨t, r, grants, answering, holds⟩
  · exact .inl (moved.moving linked calls moving)
  by_cases mine : t = caller.2
  · subst mine
    obtain ⟨triggered, inside, woken, rfl, answered⟩ := moved.answered linked answering
    rcases loses r triggered inside with refused | ⟨position, other⟩
    · exact absurd refused grants
    have state : (world.cell caller.1 lid).state = .none ∨
        (world.cell caller.1 lid).state = .releasing := by
      cases reads : (world.cell caller.1 lid).state <;> simp_all [Cell.Owned]
    rcases (prompt lid r answered holder).ignored position grants state with
        moving | ⟨u, r', different, grants', answering'⟩
    · exact .inl (moved.moving linked calls moving)
    · exact .inr ⟨u, r', grants', moved.answering different answering', good other r'⟩
  · exact .inr ⟨t, r, grants, moved.answering mine answering, holds⟩

theorem Moved.engaged (linked : world.Linked) (prompt : world.Prompt event)
    (holder : (world.server lid).holder = some caller.1) (engaged : world.Engaged caller.1 lid) :
    next.Engaged caller.1 lid := by
  cases moved.turn.stroke with
  | sends given sends =>
      refine .inr (.inl (.inr ⟨caller.2, _, moved.turn.request_after sends, ?_⟩))
      exact moved.own_asks.trans sends
  | takes _ written _ => exact .inl (by simp [written, Cell.Owned])
  | rests owned written _ _ => exact .inl (by rwa [written])
  | noted state written revoked =>
      rcases state with locked | acquiring
      · exact .inl (by simp [written, locked, Cell.Owned])
      · have away : ¬ (world.cell caller.1 lid).Owned := by simp [Cell.Owned, acquiring]
        have after := moved.stays_engaged linked prompt holder (by simp [revoked]) away
          (by simp [revoked]) (fun _ => True) (fun _ _ => trivial)
          (by simpa using engaged.resolve_left away)
        exact .inr (by simpa using after)
  | keeps _ written _ => exact .inl (by simp [written, Cell.Owned])
  | granted _ _ _ _ written => exact .inl (by simp [written, Cell.Owned])
  | freed _ _ _ written _ => exact .inl (by simp [written, Cell.Owned])
  | stays away given calls _ loses =>
      have before := engaged.resolve_left away
      have after := moved.stays_engaged linked prompt holder calls away loses (fun _ => True)
        (fun _ _ => trivial) (by simpa using before)
      exact .inr (by simpa using after)

theorem Moved.warned (linked : world.Linked) (calls : trigger ≠ .revoke)
    (flag : (next.cell caller.1 lid).isRevoked = (world.cell caller.1 lid).isRevoked)
    (warned : world.Warned caller.1 lid) : next.Warned caller.1 lid := by
  rw [Warned, flag]
  exact warned.imp id (moved.called linked (.inr (.inr calls)))

theorem Moved.contended_of_inside
    (position : world.thread caller ≠ .acquireCall lid ∧ world.thread caller ≠ .acquireWoken lid ∧
      world.thread caller ≠ .acquireWait lid) (taken : (world.cell caller.1 lid).state ≠ .free)
    (free : (next.cell caller.1 lid).state = .free) (inside : world.Inside caller.1 lid) :
    next.Contended caller.1 lid := by
  rcases inside with contended | ⟨t, waits⟩
  · refine moved.contended (fun pc here _ => ?_) contended
    rw [← here]
    exact ⟨position.1, position.2.1⟩
  · rcases moved.ran.signalled taken free with nobody | ⟨u, woken⟩
    · have other : t ≠ caller.2 := by
        rintro rfl
        exact position.2.2 waits
      exact absurd waits (nobody t other)
    · exact ⟨u, .inr woken⟩

theorem Moved.obliged (linked : world.Linked) (prompt : world.Prompt event)
    (holder : (world.server lid).holder = some caller.1)
    (queued : (world.server lid).pendingers ≠ []) (obliged : world.Obliged caller.1 lid) :
    next.Obliged caller.1 lid := by
  cases moved.turn.stroke with
  | sends given sends =>
      refine ⟨fun locked => absurd (.inr locked) given, fun free => absurd (.inl free) given,
        fun _ => .inl (.inr ⟨caller.2, _, moved.turn.request_after sends, ?_⟩)⟩
      exact moved.own_asks.trans sends
  | takes free written calls =>
      refine ⟨fun _ => ?_, by simp [written], by simp [written, Cell.Owned]⟩
      have warned : world.Warned caller.1 lid :=
        (obliged.free free).symm.imp_left And.left
      exact moved.warned linked calls (by rw [written]) warned
  | rests owned written calls idle =>
      refine ⟨fun locked => ?_, fun free => ?_, fun away => absurd (written ▸ owned) away⟩
      · rw [written] at locked
        exact moved.warned linked calls (by rw [written]) (obliged.locked locked)
      · rw [written] at free ⊢
        refine (obliged.free free).imp (moved.called linked (.inr (.inr calls))) ?_
        refine And.imp id (moved.contended fun pc here _ => ?_)
        rw [← here]
        exact idle free
  | noted state written revoked =>
      refine ⟨fun _ => .inl (by rw [written]), fun free => ?_, fun away => ?_⟩
      · rw [written] at free
        rcases state with state | state <;> rw [state] at free <;> cases free
      · have before : ¬ (world.cell caller.1 lid).Owned := by
          rw [written] at away
          exact away
        apply moved.stays_engaged linked prompt holder (by simp [revoked]) before
          (by simp [revoked])
        · exact fun _ r _ _ => .inl (by rw [written])
        · refine (obliged.away before).imp_right ?_
          rintro ⟨t, r, grants, answering, _⟩
          exact ⟨t, r, grants, answering, fun _ _ => .inl (by rw [written])⟩
  | keeps before written unlock =>
      refine ⟨by simp [written], fun _ => .inl ?_, by simp [written, Cell.Owned]⟩
      have warned := obliged.locked (by rw [before])
      refine moved.called linked (.inr (.inr (by simp [unlock, Callback.trigger]))) ?_
      exact warned.resolve_left (by simp [before])
  | @granted r answer grants position before written =>
      subst answer
      obtain ⟨woken, rfl, answered⟩ := moved.answer linked (by rw [position]; rfl)
      refine ⟨fun _ => ?_, by simp [written], by simp [written, Cell.Owned]⟩
      by_cases ok : r = .ok
      · have warned := (prompt lid r answered holder).warned queued (by rw [before]) ok
        exact moved.warned linked (by simp) (by simp [written, before, ok]) warned
      · exact .inl (by simp [written, ok])
  | @freed r answer position acquiring written _ =>
      subst answer
      obtain ⟨woken, rfl, answered⟩ := moved.answer linked
        (by rcases position with here | ⟨here, _⟩ <;> rw [here] <;> rfl)
      have heeds := prompt lid r answered holder
      refine ⟨by simp [written], fun free => ?_, by simp [written, Cell.Owned]⟩
      by_cases revoked : (world.cell caller.1 lid).isRevoked = true ∨ r ≠ .ok
      · have inside := heeds.inside queued acquiring position revoked
        refine .inr ⟨by simpa [written] using revoked, ?_⟩
        refine moved.contended_of_inside ?_ (by simp [acquiring]) free inside
        rcases position with here | ⟨here, _⟩ <;> simp [here]
      · rw [not_or, not_not] at revoked
        have warned := heeds.warned queued acquiring revoked.2
        exact .inl (moved.called linked (.inr (.inr (by simp [Callback.trigger])))
          (warned.resolve_left revoked.1))
  | stays away given calls same loses =>
      refine ⟨fun locked => absurd (.inr locked) given, fun free => absurd (.inl free) given,
        fun _ => ?_⟩
      -- a client that is still `ACQUIRING` has changed nothing and stays warned
      have kept : ∀ r : Answer, (r = .ok → (world.cell caller.1 lid).state = .acquiring →
          world.Warned caller.1 lid) →
          r = .ok → (next.cell caller.1 lid).state = .acquiring → next.Warned caller.1 lid := by
        intro r warned ok acquiring
        obtain ⟨written, quiet⟩ := same acquiring
        rw [written] at acquiring
        exact moved.warned linked quiet (by rw [written]) (warned ok acquiring)
      apply moved.stays_engaged linked prompt holder calls away loses
      · exact fun other r => kept r fun _ acquiring => absurd acquiring other
      · refine (obliged.away away).imp_right ?_
        rintro ⟨t, r, grants, answering, warned⟩
        exact ⟨t, r, grants, answering, kept r warned⟩

end

end Moved

section Served

variable {caller : Caller} {request : Request}

theorem serve_called (asked : world.wire caller = .request request)
    (called : world.Called kind c lid) : (world.serve caller request).Called kind c lid := by
  obtain ⟨parent, about, r, here, waiting⟩ := called
  have distinct : parent ≠ caller := by
    rintro rfl
    rw [asked] at waiting
    cases waiting
  exact ⟨parent, about, r, here, by rwa [serve_wire_of_ne distinct]⟩

theorem serve_calls (caller : Caller) (request : Request)
    (calls : (request.serve (world.server request.lid) caller.1).callback = some (kind, c)) :
    (world.serve caller request).Called kind c request.lid := by
  refine ⟨caller, request, (request.serve (world.server request.lid) caller.1).r, rfl, ?_⟩
  simp only [serve, Function.update_self, calls]

theorem serve_answering {t : ThreadId} (asked : world.wire caller = .request request)
    (answering : world.Answering c lid t r) : (world.serve caller request).Answering c lid t r := by
  have distinct : (c, t) ≠ caller := by
    intro same
    rw [Answering, same, asked] at answering
    cases answering
  rwa [Answering, serve_wire_of_ne distinct]

theorem serve_grows (asked : world.wire caller = .request request)
    (different : c ≠ caller.1 ∨ lid ≠ request.lid) :
    world.Grows (world.serve caller request) c lid where
  cell := rfl
  moving := by
    rintro (called | ⟨t, sent, about, asks⟩)
    · exact .inl (serve_called asked called)
    · refine .inr ⟨t, sent, about, serve_asks_iff.mpr ⟨fun same => ?_, asks⟩⟩
      rw [same, asked] at asks
      cases asks
      exact different.elim (fun client => client (congrArg Prod.fst same)) fun lock =>
        lock about.symm
  called := serve_called asked
  answering _ _ _ := serve_answering asked
  contended := id

theorem Engaged.obliged (engaged : world.Engaged c lid) (called : world.Called .revoke c lid) :
    world.Obliged c lid := by
  refine ⟨fun _ => .inr called, fun _ => .inl called, fun away => ?_⟩
  refine (engaged.resolve_left away).imp_right ?_
  rintro ⟨t, r, grants, answering⟩
  exact ⟨t, r, grants, answering, fun _ _ => .inr called⟩

theorem Attended.acquired (attended : world.Attended) (linked : world.Linked)
    (asked : world.wire caller = .request (.acquire lid)) :
    let after := world.serve caller (.acquire lid)
    ∀ c, (after.server lid).holder = some c → after.Engaged c lid ∧
      ((after.server lid).pendingers ≠ [] → after.Obliged c lid) := by
  intro after c holder
  have spec := (linked.valid lid).acquire caller.1
  have server : after.server lid = ((world.server lid).acquire caller.1).state :=
    serve_server_self _
  have own : (after.wire caller).answered =
      some (.acquire lid, ((world.server lid).acquire caller.1).r) := serve_answered_self _
  have calls : ∀ kind d, ((world.server lid).acquire caller.1).callback = some (kind, d) →
      after.Called kind d lid := fun _ _ => serve_calls caller (.acquire lid)
  rw [server] at holder ⊢
  generalize (world.server lid).acquire caller.1 = served at spec holder own calls ⊢
  cases spec with
  | first held owner other empty =>
      cases holder
      have engaged := (serve_grows asked (.inl other)).engaged (attended.engaged lid c owner)
      exact ⟨engaged, fun _ => engaged.obliged (calls .revoke c rfl)⟩
  | later held owner other queued =>
      cases holder
      have grows : world.Grows after c lid := serve_grows asked (.inl other)
      exact ⟨grows.engaged (attended.engaged lid c owner),
        fun _ => grows.obliged (attended.obliged lid c owner queued)⟩
  | again held owner =>
      obtain rfl : caller.1 = c := Option.some.inj (owner.symm.trans holder)
      have grants :
          (if (world.server lid).pendingers ≠ [] then Answer.retire else .ok) ≠ .retry := by
        split <;> simp
      refine ⟨.inr (.inr ⟨caller.2, _, grants, own⟩), fun queued => ?_⟩
      have obliged := attended.obliged lid caller.1 owner queued
      rw [if_pos queued] at own
      exact ⟨fun locked => (obliged.locked locked).imp_right (serve_called asked),
        fun free => (obliged.free free).imp_left (serve_called asked),
        fun _ => .inr ⟨caller.2, .retire, by simp, own, by simp⟩⟩
  | fresh held empty =>
      cases holder
      exact ⟨.inr (.inr ⟨caller.2, .ok, by simp, own⟩), fun queued => absurd rfl queued⟩

theorem Attended.released (attended : world.Attended) (linked : world.Linked)
    (prompt : world.Prompt (.serve caller))
    (asked : world.wire caller = .request (.release lid)) :
    let after := world.serve caller (.release lid)
    ∀ c, (after.server lid).holder = some c → after.Engaged c lid ∧
      ((after.server lid).pendingers ≠ [] → after.Obliged c lid) := by
  intro after c holder
  have server : after.server lid = ((world.server lid).release caller.1).state :=
    serve_server_self _
  have calls : ∀ kind d, ((world.server lid).release caller.1).callback = some (kind, d) →
      after.Called kind d lid := fun _ _ => serve_calls caller (.release lid)
  rw [server] at holder ⊢
  by_cases mine : (world.server lid).holded = true ∧ (world.server lid).holder = some caller.1
  · have spec := ServState.release_released mine.1 mine.2
    generalize (world.server lid).release caller.1 = served at spec holder calls ⊢
    cases spec with
    | @handed next rest queued =>
        cases holder
        have moving : after.Moving c lid := .inl (calls .retry c rfl)
        refine ⟨.inr (.inl moving), fun more => ?_⟩
        have away : ¬ (after.cell c lid).Owned := prompt lid c rest asked mine.2 queued more
        exact ⟨fun locked => absurd (.inr locked) away, fun free => absurd (.inl free) away,
          fun _ => .inl moving⟩
    | freed _ => cases holder
  · rw [ServState.release_ignored mine] at holder ⊢
    have other : c ≠ caller.1 := by
      rintro rfl
      refine mine ⟨?_, holder⟩
      by_contra idle
      rw [((linked.valid lid).idle (by simpa using idle)).1] at holder
      cases holder
    have grows : world.Grows after c lid := serve_grows asked (.inl other)
    exact ⟨grows.engaged (attended.engaged lid c holder),
      fun queued => grows.obliged (attended.obliged lid c holder queued)⟩

theorem Attended.served (attended : world.Attended) (linked : world.Linked)
    (prompt : world.Prompt (.serve caller)) (asked : world.wire caller = .request request) :
    (world.serve caller request).Attended := by
  have here : ∀ c, ((world.serve caller request).server request.lid).holder = some c →
      (world.serve caller request).Engaged c request.lid ∧
      (((world.serve caller request).server request.lid).pendingers ≠ [] →
        (world.serve caller request).Obliged c request.lid) := by
    cases request with
    | acquire lid => exact attended.acquired linked asked
    | release lid => exact attended.released linked prompt asked
  constructor
  · intro lid c holder
    by_cases same : lid = request.lid
    · subst same
      exact (here c holder).1
    · rw [serve_server_of_ne same] at holder
      exact (serve_grows asked (.inr same)).engaged (attended.engaged lid c holder)
  · intro lid c holder queued
    by_cases same : lid = request.lid
    · subst same
      exact (here c holder).2 queued
    · rw [serve_server_of_ne same] at holder queued
      exact (serve_grows asked (.inr same)).obliged (attended.obliged lid c holder queued)

end Served

theorem Attended.step (attended : world.Attended) (linked : world.Linked)
    (prompt : world.Prompt event) (taken : world.step event = some next) : next.Attended := by
  cases (linked.step taken).2 with
  | moved caller lid trigger moved =>
      constructor
      · intro other c holder
        rw [moved.server] at holder
        by_cases here : c = caller.1 ∧ other = lid
        · obtain ⟨rfl, rfl⟩ := here
          exact moved.engaged linked prompt holder (attended.engaged _ _ holder)
        · exact (moved.grows_elsewhere linked (not_and_or.mp here)).engaged
            (attended.engaged _ _ holder)
      · intro other c holder queued
        rw [moved.server] at holder queued
        by_cases here : c = caller.1 ∧ other = lid
        · obtain ⟨rfl, rfl⟩ := here
          exact moved.obliged linked prompt holder queued (attended.obliged _ _ holder queued)
        · exact (moved.grows_elsewhere linked (not_and_or.mp here)).obliged
            (attended.obliged _ _ holder queued)
  | aside server wire cells threads =>
      refine attended.transfer server fun c lid => ⟨cells c lid, ?_, ?_, ?_, ?_⟩
      · simp [Moving, Called, wire]
      · simp [Called, wire]
      · simp [Answering, wire]
      · rintro ⟨t, inside⟩
        refine ⟨t, ?_⟩
        rcases threads (c, t) with same | ⟨l, waited, _⟩
        · rwa [same]
        · simp [waited] at inside
  | served caller request shape asked result =>
      subst shape result
      exact attended.served linked prompt asked
  | acknowledged caller request r target handler handled result =>
      subst result
      have traffic : ∀ other, ((world.setWire caller (.reply request r)).wire other).asks =
          (world.wire other).asks ∧
          ((world.setWire caller (.reply request r)).wire other).answered =
            (world.wire other).answered := by
        intro other
        by_cases here : other = caller
        · subst here
          simp [setWire, handled, Wire.asks, Wire.answered]
        · simp [setWire, here]
      have called : ∀ kind c lid, world.Called kind c lid →
          (world.setWire caller (.reply request r)).Called kind c lid := by
        rintro kind c lid ⟨parent, asked, r', about, waiting⟩
        have distinct : parent ≠ caller := by
          rintro rfl
          rw [handled] at waiting
          cases waiting
        exact ⟨parent, asked, r', about, by simpa [setWire, distinct] using waiting⟩
      refine attended.transfer rfl fun c lid => ⟨rfl, ?_, called _ _ _, ?_, id⟩
      · simp only [Moving, traffic]
        exact Or.imp_left (called _ _ _)
      · simp only [Answering, traffic]
        exact fun _ _ _ => id

end World

def Pc.idle : Pc → Bool
  | .outside | .holding _ | .acquireWait _ => true
  | _ => false

namespace World

/-- Nothing is under way, and every thread is outside the code of the client or
blocked in `pthread_cond_wait`. -/
structure Quiescent (world : World) : Prop where
  wires : ∀ caller, world.wire caller = .quiet
  threads : ∀ caller, (world.thread caller).idle = true

/-- The holder of a lock that somebody is queued for hands it on with its next
`release`. -/
def HandsOver (world : World) : Prop :=
  ∀ lid, (world.server lid).pendingers ≠ [] →
    ∃ holder, (world.server lid).holder = some holder ∧ world.cell holder lid = ⟨.locked, true⟩

variable {world : World} {c : ClientId} {lid : LockId}

theorem Quiescent.not_called (quiescent : world.Quiescent) (kind : Callback) :
    ¬ world.Called kind c lid := by
  rintro ⟨parent, request, r, _, waiting⟩
  rw [quiescent.wires] at waiting
  cases waiting

theorem Quiescent.obliged (quiescent : world.Quiescent) (obliged : world.Obliged c lid) :
    world.cell c lid = ⟨.locked, true⟩ := by
  have owned : (world.cell c lid).Owned := by
    by_contra away
    rcases obliged.away away with (called | ⟨t, request, _, asks⟩) | ⟨t, r, _, answering, _⟩
    · exact quiescent.not_called .retry called
    · rw [quiescent.wires] at asks
      cases asks
    · rw [Answering, quiescent.wires] at answering
      cases answering
  rcases owned with free | locked
  · rcases obliged.free free with called | ⟨_, t, inside⟩
    · exact absurd called (quiescent.not_called .revoke)
    · have idle := quiescent.threads (c, t)
      rcases inside with inside | inside <;> rw [inside] at idle <;> cases idle
  · have revoked := (obliged.locked locked).resolve_right (quiescent.not_called .revoke)
    rw [← locked, ← revoked]

end World

/-- In every quiescent state of a run that loses no reason to go on, a queued client
gets the lock with the next `release` of its holder. -/
theorem no_stuck_waiter {events : List Event} {world : World}
    (run : Run (Guarded (StepOf World.step) World.Prompt) World.initial events world)
    (quiescent : world.Quiescent) : world.HandsOver := by
  obtain ⟨linked, attended⟩ : world.Linked ∧ world.Attended := by
    apply run.invariant (fun world => world.Linked ∧ world.Attended)
    · exact ⟨World.Linked.initial, World.Attended.initial⟩
    · rintro world event next ⟨linked, attended⟩ ⟨prompt, taken⟩
      exact ⟨(linked.step taken).1, attended.step linked prompt taken⟩
  intro lid queued
  have held : (world.server lid).holded = true := by
    by_contra idle
    exact queued ((linked.valid lid).idle (by simpa using idle)).2
  obtain ⟨holder, owner⟩ := Option.ne_none_iff_exists'.mp ((linked.valid lid).holder held)
  exact ⟨holder, owner, quiescent.obliged (attended.obliged lid holder owner queued)⟩

/-- Client 1 waits for a lock that client 0 has and is to give back. -/
theorem no_stuck_waiter_queued :
    ∃ world, Run (Guarded (StepOf World.step) World.Prompt) World.initial
        [.act 0 (.acquire 0 7), .serve (0, 0), .deliver (0, 0) none, .act 1 (.acquire 0 7),
          .serve (1, 0), .handle (1, 0) 1, .acknowledge (1, 0), .deliver (1, 0) none] world ∧
      world.Quiescent ∧ (world.server 7).pendingers = [1] ∧ world.HandsOver := by
  have prompt : Meets World.step World.Prompt World.initial
      [.act 0 (.acquire 0 7), .serve (0, 0), .deliver (0, 0) none, .act 1 (.acquire 0 7),
        .serve (1, 0), .handle (1, 0) 1, .acknowledge (1, 0), .deliver (1, 0) none] := by
    refine ⟨trivial, ?_⟩
    rintro _ ⟨⟩
    refine ⟨?_, ?_⟩
    · intro lid next rest asked
      cases asked
    rintro _ ⟨⟩
    refine ⟨?_, ?_⟩
    · intro lid r answered holder
      cases answered
      exact ⟨fun queued => absurd rfl queued, fun queued => absurd rfl queued,
        fun position => by cases position⟩
    rintro _ ⟨⟩
    refine ⟨trivial, ?_⟩
    rintro _ ⟨⟩
    refine ⟨?_, ?_⟩
    · intro lid next rest asked
      cases asked
    rintro _ ⟨⟩
    refine ⟨trivial, ?_⟩
    rintro _ ⟨⟩
    refine ⟨trivial, ?_⟩
    rintro _ ⟨⟩
    refine ⟨?_, fun _ _ => trivial⟩
    intro lid r answered holder
    cases answered
    cases holder
  have run := guarded_of_exec rfl prompt
  refine ⟨_, run, ?quiescent, rfl, no_stuck_waiter run ?quiescent⟩
  constructor
  · rintro ⟨c, t⟩
    rcases c with _ | _ | c <;> rcases t with _ | _ | t <;> rfl
  · rintro ⟨c, t⟩
    rcases c with _ | _ | c <;> rcases t with _ | _ | t <;> rfl

/-- A thread that waits for lock 8 makes client 0 ask for lock 7 after its release,
although no thread of it wants that lock.  When the lock comes back, it stays `FREE`
at client 0, and client 2 waits for it. -/
theorem stuck_waiter :
    ¬ ∀ events world, Run (StepOf World.step) World.initial events world →
      world.Quiescent → world.HandsOver := by
  intro handsOver
  have run := run_of_exec (rfl : exec World.step World.initial
    [.act 0 (.acquire 4 8), .serve (0, 4), .deliver (0, 4) none, .act 0 (.acquire 5 8),
      .act 0 (.acquire 0 7), .serve (0, 0), .deliver (0, 0) none,
      .act 1 (.acquire 0 7), .serve (1, 0), .handle (1, 0) 1, .acknowledge (1, 0),
      .deliver (1, 0) none,
      .act 0 (.release 0 none), .serve (0, 0), .handle (0, 0) 1, .serve (1, 1),
      .deliver (1, 1) (some 0), .acknowledge (0, 0), .act 1 (.wake 0),
      .deliver (0, 0) none, .serve (0, 0), .handle (0, 0) 2, .acknowledge (0, 0),
      .deliver (0, 0) none,
      .act 2 (.acquire 0 7), .serve (2, 0), .deliver (2, 0) none,
      .act 1 (.release 0 none), .serve (1, 0), .handle (1, 0) 1, .serve (0, 1),
      .deliver (0, 1) none, .acknowledge (1, 0), .deliver (1, 0) none] = some _)
  have quiescent := handsOver _ _ run ⟨?_, ?_⟩ 7 (by decide)
  · obtain ⟨holder, owner, locked⟩ := quiescent
    cases owner
    cases locked
  · rintro ⟨c, t⟩
    rcases c with _ | _ | _ | c <;> rcases t with _ | _ | _ | _ | _ | _ | t <;> rfl
  · rintro ⟨c, t⟩
    rcases c with _ | _ | _ | c <;> rcases t with _ | _ | _ | _ | _ | _ | t <;> rfl

end Ctgfs.Lock
