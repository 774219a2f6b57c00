import Ctgfs.Lock.LocalExclusion
import Ctgfs.Lock.System

/-!
# RPCs of the lock client that fail

Each of the five RPCs is made after the state of the lock was switched to `ACQUIRING` or
`RELEASING`.  When an RPC fails, its operation returns the error without taking the mutex again,
and the state stays as it is.  It is settled later only if another thread waits for the same
answer.
-/

namespace Ctgfs.Lock

open Foundation

inductive RpcEvent where
  | runs (event : ClientEvent)
  | fail (t : ThreadId)
  deriving DecidableEq, Repr

/-- The operation returns `ret` and leaves the table alone. -/
def LockClient.fail (client : LockClient) (t : ThreadId) : Option LockClient :=
  if client.aborted.isSome then none
  else
    match (client.thread t).request with
    | some _ => some { client with thread := Function.update client.thread t .outside }
    | none => none

def LockClient.stepOrFail (client : LockClient) : RpcEvent → Option LockClient
  | .runs event => client.step event
  | .fail t => client.fail t

def LockState.awaits (lid : LockId) : LockState → Option Request
  | .acquiring => some (.acquire lid)
  | .releasing => some (.release lid)
  | .none | .free | .locked => Option.none

def LockState.Settled (state : LockState) : Prop :=
  state = .none ∨ state = .free ∨ state = .locked

def Pc.operation : Pc → Option LockId
  | .acquireCall lid | .acquireWait lid | .acquireWoken lid | .releaseCall lid
  | .reacquireCall lid | .revokeCall lid | .retryCall lid => some lid
  | .outside | .holding _ => none

namespace LockClient

def Quiet (client : LockClient) (lid : LockId) : Prop :=
  ∀ t, (client.thread t).operation ≠ some lid

/-- An `acquire` waits for a lock that nobody holds and nobody asks for. -/
structure Stranded (client : LockClient) (t : ThreadId) (lid : LockId) : Prop where
  waits : client.thread t = .acquireWait lid
  noHolder : ∀ u, client.thread u ≠ .holding lid
  alone : ∀ u, u ≠ t → (client.thread u).operation ≠ some lid

def Survives (client : LockClient) : RpcEvent → Prop
  | .runs _ => True
  | .fail t => ∀ request, (client.thread t).request = some request →
      (client.cache request.lid).state.awaits request.lid = some request →
        ∃ u, u ≠ t ∧ (client.thread u).request = some request

structure Asking (client : LockClient) : Prop where
  exclusive : client.Exclusive
  asked : ∀ lid request, (client.cache lid).state.awaits lid = some request →
    ∃ t, (client.thread t).request = some request

end LockClient

variable {state : LockState}

theorem LockState.settled_iff {lid : LockId} : state.Settled ↔ state.awaits lid = Option.none := by
  cases state <;> simp [Settled, awaits]

theorem LockState.awaits_acquire_iff {lid : LockId} :
    state.awaits lid = some (.acquire lid) ↔ state = .acquiring := by
  cases state <;> simp [awaits]

theorem LockState.awaits_release_iff {lid : LockId} :
    state.awaits lid = some (.release lid) ↔ state = .releasing := by
  cases state <;> simp [awaits]

variable {request : Request}

theorem LockState.lid_of_awaits {lid : LockId} (waits : state.awaits lid = some request) :
    request.lid = lid := by
  cases state with
  | acquiring | releasing =>
      rw [← Option.some.inj waits]
      rfl
  | none | free | locked => cases waits

theorem Pc.operation_of_request {pc : Pc} (asks : pc.request = some request) :
    pc.operation = some request.lid := by
  cases pc with
  | acquireCall | releaseCall | reacquireCall | revokeCall | retryCall =>
      rw [← Option.some.inj asks]
      rfl
  | outside | acquireWait | acquireWoken | holding => cases asks

/-- A state that waits after a section waits for the RPC that the section has made, or it is as
before and the section did not come back from such an RPC. -/
theorem Turn.awaits {lid : LockId} {trigger : Trigger} {pc after : Pc} {cell written : Cell}
    (turn : Turn lid trigger pc cell after written)
    (waits : written.state.awaits lid = some request) :
    after.request = some request ∨
      (cell.state.awaits lid = some request ∧ pc.request ≠ some request) := by
  cases turn with
  | callRequest | lateRequest | askAgain | giveUp | reacquire | revokeFree | retryRequest
  | retryAgain => exact Or.inl waits
  | callTake | lateTake | lateWait | refused | granted | keep | released | reacquireRefused
  | reacquired | revokeReleased | retryFreed => cases waits
  | callWait position =>
      refine Or.inr ⟨waits, ?_⟩
      rcases position with rfl | rfl <;> exact (Option.some_ne_none _).symm
  | revokeIgnored | revokeNoted | retryIgnored =>
      exact Or.inr ⟨waits, (Option.some_ne_none _).symm⟩
  | overtaken different | revokeOvertaken different =>
      refine Or.inr ⟨waits, fun same => different ?_⟩
      exact LockState.awaits_release_iff.mp (waits.trans same.symm)
  | reacquireIgnored different =>
      refine Or.inr ⟨waits, fun same => different ?_⟩
      exact LockState.awaits_acquire_iff.mp (waits.trans same.symm)
  | retryLate settled => rcases settled with rfl | rfl <;> cases waits

namespace LockClient

variable {client next : LockClient} {t u : ThreadId} {lid : LockId}

theorem fail_some (failed : client.fail t = some next) :
    (∃ request, (client.thread t).request = some request) ∧
      next = { client with thread := Function.update client.thread t .outside } := by
  unfold fail at failed
  split at failed
  · cases failed
  · split at failed
    next request inside =>
      cases failed
      exact ⟨⟨request, inside⟩, rfl⟩
    next idle => cases failed

theorem Coherent.fail (coherent : client.Coherent) (failed : client.fail t = some next) :
    next.Coherent := by
  obtain ⟨⟨request, inside⟩, rfl⟩ := fail_some failed
  intro lid
  refine ⟨(coherent lid).1, fun u => ((coherent lid).2 u).trans ?_⟩
  by_cases mine : u = t
  · subst mine
    refine iff_of_false (fun waits => ?_) (by simp)
    rw [waits] at inside
    cases inside
  · simp [mine]

theorem Exclusive.fail (exclusive : client.Exclusive) (failed : client.fail t = some next) :
    next.Exclusive := by
  have coherent := exclusive.coherent.fail failed
  obtain ⟨⟨request, inside⟩, rfl⟩ := fail_some failed
  have holds : ∀ u lid, Function.update client.thread t .outside u = .holding lid ↔
      client.thread u = .holding lid := by
    intro u lid
    by_cases mine : u = t
    · subst mine
      refine iff_of_false (by simp) fun holding => ?_
      rw [holding] at inside
      cases inside
    · rw [Function.update_of_ne mine]
  refine ⟨coherent, fun lid => ?_, ?_, exclusive.asserted⟩
  · exact (exclusive.held lid).trans (exists_congr fun u => (holds u lid).symm)
  · simpa only [holds] using exclusive.unique

theorem exclusive_of_failing_run {events : List RpcEvent}
    (run : Run (StepOf stepOrFail) initial events client) : client.Exclusive := by
  apply run.invariant Exclusive Exclusive.initial
  intro client event next exclusive taken
  cases event with
  | runs event => exact exclusive.step taken
  | fail t => exact exclusive.fail taken

theorem Asking.initial : LockClient.initial.Asking :=
  ⟨.initial, fun _ _ waits => by cases waits⟩

theorem Asking.step {event : ClientEvent} (asking : client.Asking)
    (taken : client.step event = some next) : next.Asking := by
  refine ⟨asking.exclusive.step taken, fun lid request waits => ?_⟩
  have outcome := (step_outcome asking.exclusive.coherent taken).2
  -- it is enough that a thread other than the running one has made the request
  have others : (∃ u, u ≠ event.actor ∧ (client.thread u).request = some request) →
      ∃ u, (next.thread u).request = some request := by
    rintro ⟨u, other, asks⟩
    exact ⟨u, (outcome.request_eq other).trans asks⟩
  cases outcome with
  | ran here trigger _ _ ran =>
      by_cases same : lid = here
      · subst same
        rcases ran.turn.awaits waits with mine | ⟨before, notMine⟩
        · exact ⟨event.actor, mine⟩
        · obtain ⟨u, asks⟩ := asking.asked lid request before
          exact others ⟨u, fun mine => notMine (mine ▸ asks), asks⟩
      · rw [ran.cache_other same] at waits
        obtain ⟨u, asks⟩ := asking.asked lid request waits
        refine others ⟨u, ?_, asks⟩
        rintro rfl
        exact same ((LockState.lid_of_awaits waits).symm.trans (ran.turn.request_before asks).1)
  | roused here _ waited threads cells =>
      have before : (next.cache lid).state = (client.cache lid).state :=
        congrArg Cell.state (cells lid)
      obtain ⟨u, asks⟩ := asking.asked lid request (before ▸ waits)
      refine others ⟨u, ?_, asks⟩
      rintro rfl
      rw [waited] at asks
      cases asks
  | died site shape =>
      subst shape
      exact asking.asked lid request waits

theorem Asking.fail (asking : client.Asking) (survives : client.Survives (.fail t))
    (failed : client.fail t = some next) : next.Asking := by
  refine ⟨asking.exclusive.fail failed, fun lid request waits => ?_⟩
  obtain ⟨-, rfl⟩ := fail_some failed
  have unchanged : (client.cache lid).state.awaits lid = some request := waits
  obtain ⟨u, other, asks⟩ : ∃ u, u ≠ t ∧ (client.thread u).request = some request := by
    obtain ⟨u, asks⟩ := asking.asked lid request unchanged
    by_cases mine : u = t
    · subst mine
      obtain rfl := LockState.lid_of_awaits unchanged
      exact survives request asks unchanged
    · exact ⟨u, mine, asks⟩
  exact ⟨u, (congrArg Pc.request (Function.update_of_ne other _ _)).trans asks⟩

theorem asking_of_run {events : List RpcEvent}
    (run : Run (Guarded (StepOf stepOrFail) Survives) initial events client) : client.Asking := by
  apply run.invariant Asking Asking.initial
  rintro client event next asking ⟨survives, taken⟩
  cases event with
  | runs event => exact asking.step taken
  | fail t => exact asking.fail survives taken

theorem Asking.settled (asking : client.Asking) (quiet : client.Quiet lid) :
    (client.cache lid).state.Settled := by
  cases waits : (client.cache lid).state.awaits lid with
  | none => exact LockState.settled_iff.mpr waits
  | some request =>
      obtain ⟨t, asks⟩ := asking.asked lid request waits
      have inside := Pc.operation_of_request asks
      rw [LockState.lid_of_awaits waits] at inside
      exact absurd inside (quiet t)

theorem acquire_of_step (taken : client.step (.acquire u lid) = some next) :
    client.aborted = none ∧ client.thread u = .outside ∧ next = client.acquireLoop u lid := by
  unfold LockClient.step at taken
  split at taken
  · cases taken
  next alive =>
    refine ⟨by simpa using alive, ?_⟩
    cases position : client.thread u <;> simp [ClientEvent.actor, position] at taken
    exact ⟨rfl, taken.symm⟩

theorem acquireLoop_waits_iff :
    (client.acquireLoop u lid).thread u = .acquireWait lid ↔
      (client.cache lid).state = .locked ∨ (client.cache lid).state = .acquiring := by
  cases reads : (client.cache lid).state <;> simp [acquireLoop, wait, reads, put]

/-- An `acquire` that is called when no operation on the lock is in progress is stranded exactly
when the state is `ACQUIRING`. -/
theorem stranded_iff (exclusive : client.Exclusive) (quiet : client.Quiet lid)
    (taken : client.step (.acquire u lid) = some next) :
    next.Stranded u lid ↔ (client.cache lid).state = .acquiring := by
  obtain ⟨running, outside, rfl⟩ := acquire_of_step taken
  have ran : Section client u lid .call (client.acquireLoop u lid) :=
    acquireLoop_section running outside (Or.inl rfl)
  constructor
  · rintro ⟨waits, noHolder, -⟩
    refine (acquireLoop_waits_iff.mp waits).resolve_left fun locked => ?_
    obtain ⟨v, holding⟩ := (exclusive.held lid).mp locked
    have other : v ≠ u := by
      rintro rfl
      exact absurd (outside.symm.trans holding) (by simp)
    exact noHolder v ((ran.holding_other other lid).mpr holding)
  · intro acquiring
    have waits : (client.acquireLoop u lid).thread u = .acquireWait lid :=
      acquireLoop_waits_iff.mpr (Or.inr acquiring)
    refine ⟨waits, fun v holding => ?_, fun v other => ?_⟩
    · have other : v ≠ u := by
        rintro rfl
        exact absurd (waits.symm.trans holding) (by simp)
      have locked := (exclusive.held lid).mpr ⟨v, (ran.holding_other other lid).mp holding⟩
      exact absurd (acquiring.symm.trans locked) (by simp)
    · rcases ran.others v other with same | ⟨waited, -⟩
      · rw [same]
        exact quiet v
      · exact absurd (by rw [waited]; rfl) (quiet v)

/-- When the last operation on a lock has failed, its state is settled exactly if the lock does
without the RPC. -/
theorem Asking.settled_iff (asking : client.Asking) (failed : client.fail t = some next)
    (asks : (client.thread t).request = some request) (quiet : next.Quiet request.lid) :
    (next.cache request.lid).state.Settled ↔ client.Survives (.fail t) := by
  constructor
  · intro settled other again waits
    obtain rfl := Option.some.inj (asks.symm.trans again)
    obtain ⟨-, rfl⟩ := fail_some failed
    have nothing : (client.cache request.lid).state.awaits request.lid = none :=
      LockState.settled_iff.mp settled
    exact absurd (nothing.symm.trans waits) (by simp)
  · intro survives
    exact (asking.fail survives failed).settled quiet

end LockClient

/-- In every run in which the locks do without the RPCs that fail, a lock is `NONE`, `FREE` or
`LOCKED` whenever no operation on it is in progress, and an `acquire` that is called then does
not wait for an answer that cannot come.  When one more RPC fails and no operation on its lock is
left, the state is one of these if and only if the lock does without this RPC, too. -/
theorem failed_rpcs_usable_iff {events : List RpcEvent} {client : LockClient}
    (run : Run (Guarded (StepOf LockClient.stepOrFail) LockClient.Survives) .initial events
      client) :
    (∀ lid, client.Quiet lid → (client.cache lid).state.Settled ∧
        ∀ u next, client.step (.acquire u lid) = some next → ¬ next.Stranded u lid) ∧
      ∀ t next request, client.fail t = some next →
        (client.thread t).request = some request → next.Quiet request.lid →
          ((next.cache request.lid).state.Settled ↔ client.Survives (.fail t)) := by
  have asking := LockClient.asking_of_run run
  constructor
  · intro lid quiet
    have settled := asking.settled quiet
    refine ⟨settled, fun u next taken stranded => ?_⟩
    have acquiring := (LockClient.stranded_iff asking.exclusive quiet taken).mp stranded
    rw [acquiring] at settled
    exact absurd settled (by simp [LockState.Settled])
  · intro t next request failed asks quiet
    exact asking.settled_iff failed asks quiet

/-- A retry from the server overtakes the request of an `acquire`, which then fails. -/
theorem failed_rpcs_usable_overtaken :
    ∃ client : LockClient,
      Run (Guarded (StepOf LockClient.stepOrFail) LockClient.Survives) .initial
        [.runs (.acquire 0 5), .runs (.retryHandler 1 5), .runs (.retryReturn 1 .ok none), .fail 0]
        client ∧
      client.Quiet 5 ∧ (client.cache 5).state.Settled := by
  have survives : Meets LockClient.stepOrFail LockClient.Survives .initial
      [.runs (.acquire 0 5), .runs (.retryHandler 1 5), .runs (.retryReturn 1 .ok none),
        .fail 0] := by
    refine ⟨trivial, ?_⟩
    rintro _ ⟨⟩
    refine ⟨trivial, ?_⟩
    rintro _ ⟨⟩
    refine ⟨trivial, ?_⟩
    rintro _ ⟨⟩
    refine ⟨?_, fun _ _ => trivial⟩
    rintro request ⟨⟩ waits
    cases waits
  have run := guarded_of_exec rfl survives
  refine ⟨_, run, ?_, ((failed_rpcs_usable_iff run).1 5 ?_).1⟩
  all_goals
    rintro (_ | _ | u) <;> exact (Option.some_ne_none _).symm

/-- The acquire RPC of an `acquire` fails, and the next `acquire` waits for nobody.  The release
RPC of a `release` fails, and the lock stays `RELEASING`. -/
theorem failed_rpcs_unsettled :
    (∃ client next : LockClient, Run (StepOf LockClient.stepOrFail) .initial
        [.runs (.acquire 0 5), .fail 0] client ∧
      client.Quiet 5 ∧ (client.cache 5).state = .acquiring ∧
      client.step (.acquire 1 5) = some next ∧ next.Stranded 1 5) ∧
    ∃ client, Run (StepOf LockClient.stepOrFail) .initial
        [.runs (.acquire 0 5), .runs (.acquireReturn 0 .retire), .runs (.release 0 none), .fail 0]
        client ∧
      client.Quiet 5 ∧ (client.cache 5).state = .releasing := by
  have first := run_of_exec (rfl : exec LockClient.stepOrFail .initial
    [.runs (.acquire 0 5), .fail 0] = some _)
  have second := run_of_exec (rfl : exec LockClient.stepOrFail .initial
    [.runs (.acquire 0 5), .runs (.acquireReturn 0 .retire), .runs (.release 0 none), .fail 0] =
      some _)
  have exclusive := LockClient.exclusive_of_failing_run first
  refine ⟨⟨_, _, first, ?_, rfl, rfl, (LockClient.stranded_iff exclusive ?_ rfl).mpr rfl⟩,
    _, second, ?_, rfl⟩
  all_goals
    rintro (_ | u) <;> exact (Option.some_ne_none _).symm

end Ctgfs.Lock
