import Ctgfs.Foundation.Runs
import Ctgfs.Lock.Turn

/-!
# Exclusion among the threads of one client

The answers of the lock server are arbitrary here.  Whatever they are, a lock
becomes `LOCKED` only in the section that makes its thread the owner, and only
the owner's `release` takes it out of that state.  The other sections that write
a state leave `LOCKED` alone because they look at the state again after every RPC.
-/

namespace Ctgfs.Lock

open Foundation

theorem Turn.ownership {lid : LockId} {trigger : Trigger} {pc after : Pc} {cell written : Cell}
    (turn : Turn lid trigger pc cell after written) :
    (after = .holding lid ∧ (∀ other, pc ≠ .holding other) ∧
        cell.state ≠ .locked ∧ written.state = .locked) ∨
      (pc = .holding lid ∧ (∀ other, after ≠ .holding other) ∧ written.state ≠ .locked) ∨
      ((∀ other, pc ≠ .holding other) ∧ (∀ other, after ≠ .holding other) ∧
        (written.state = .locked ↔ cell.state = .locked)) := by
  cases turn <;> simp_all
  case callRequest state position =>
    rcases position with rfl | rfl <;> rcases state with rfl | rfl <;> simp
  case callTake position => rcases position with rfl | rfl <;> simp
  case callWait _ position => rcases position with rfl | rfl <;> simp
  case lateRequest state => rcases state with rfl | rfl <;> simp
  case retryRequest state => rcases state with rfl | rfl | rfl <;> simp
  case retryAgain state => rcases state with rfl | rfl <;> simp

/-- At most one thread owns a lock, and the lock is `LOCKED` exactly while one
does. -/
structure LockClient.Exclusive (client : LockClient) : Prop where
  coherent : client.Coherent
  held : ∀ lid, (client.cache lid).state = .locked ↔ ∃ t, client.thread t = .holding lid
  unique : ∀ lid t u, client.thread t = .holding lid → client.thread u = .holding lid → t = u
  asserted : client.aborted ≠ some .release

namespace Section

variable {client next : LockClient} {t : ThreadId} {lid : LockId} {trigger : Trigger}

section

variable (ran : Section client t lid trigger next)

include ran

theorem holding_other {u : ThreadId} (other : u ≠ t) (l : LockId) :
    next.thread u = .holding l ↔ client.thread u = .holding l := by
  rcases ran.others u other with same | ⟨waited, woken⟩
  · rw [same]
  · simp [waited, woken]

theorem cache_other {other : LockId} (distinct : other ≠ lid) :
    next.cache other = client.cache other := by
  simp [LockClient.cache, ran.elsewhere other distinct]

theorem holding_elsewhere {other : LockId} (distinct : other ≠ lid) (u : ThreadId) :
    next.thread u = .holding other ↔ client.thread u = .holding other := by
  by_cases mine : u = t
  · subst mine
    rcases ran.turn.ownership with ⟨after, before, _⟩ | ⟨before, after, _⟩ | ⟨before, after, _⟩
    · simp [after, before, distinct.symm]
    · simp [after, before, distinct.symm]
    · simp [after, before]
  · exact ran.holding_other mine other

theorem exclusive (exclusive : client.Exclusive) (coherent : next.Coherent) : next.Exclusive := by
  refine ⟨coherent, ?_, ?_, by simp [ran.running]⟩
  · intro l
    by_cases here : l = lid
    · subst here
      have before := exclusive.held l
      change (next.cache l).cell.state = .locked ↔ _
      rcases ran.turn.ownership with ⟨holds, _, _, locked⟩ | ⟨held, free, unlocked⟩ |
          ⟨idle, free, same⟩
      · exact ⟨fun _ => ⟨t, holds⟩, fun _ => locked⟩
      · refine ⟨fun locked => absurd locked unlocked, fun ⟨u, holds⟩ => ?_⟩
        by_cases mine : u = t
        · exact absurd (mine ▸ holds) (free l)
        · exact absurd (exclusive.unique l u t ((ran.holding_other mine l).mp holds) held) mine
      · rw [same]
        refine before.trans (exists_congr fun u => ?_)
        by_cases mine : u = t
        · subst mine
          simp [idle, free]
        · exact (ran.holding_other mine l).symm
    · rw [ran.cache_other here, exclusive.held l]
      exact exists_congr fun u => (ran.holding_elsewhere here u).symm
  · intro l u v uHolds vHolds
    by_cases here : l = lid
    · subst here
      rcases ran.turn.ownership with ⟨_, _, unlocked, _⟩ | ⟨held, free, _⟩ | ⟨idle, free, _⟩
      · -- the lock was not `LOCKED`, so only the running thread can hold it now
        have nobody : ∀ w, w ≠ t → next.thread w ≠ .holding l := fun w other holds =>
          unlocked ((exclusive.held l).mpr ⟨w, (ran.holding_other other l).mp holds⟩)
        have uIs : u = t := by_contra fun other => nobody u other uHolds
        have vIs : v = t := by_contra fun other => nobody v other vHolds
        rw [uIs, vIs]
      all_goals
        have uOther : u ≠ t := by rintro rfl; exact free l uHolds
        have vOther : v ≠ t := by rintro rfl; exact free l vHolds
        exact exclusive.unique l u v ((ran.holding_other uOther l).mp uHolds)
          ((ran.holding_other vOther l).mp vHolds)
    · exact exclusive.unique l u v ((ran.holding_elsewhere here u).mp uHolds)
        ((ran.holding_elsewhere here v).mp vHolds)

end

end Section

namespace LockClient

theorem Exclusive.initial : LockClient.initial.Exclusive :=
  ⟨Coherent.initial, by simp [LockClient.initial, cache], by simp [LockClient.initial],
    by simp [LockClient.initial]⟩

theorem Exclusive.step {client next : LockClient} {event : ClientEvent}
    (exclusive : client.Exclusive) (taken : client.step event = some next) : next.Exclusive := by
  rcases step_outcome exclusive.coherent taken with ⟨coherent, outcome⟩
  cases outcome with
  | ran lid trigger _ _ ran => exact ran.exclusive exclusive coherent
  | roused lid _ waited threads cells running =>
      have holds : ∀ u l, next.thread u = .holding l ↔ client.thread u = .holding l := by
        intro u l
        rw [threads]
        by_cases mine : u = event.actor
        · subst mine
          simp [waited]
        · rw [Function.update_of_ne mine]
      refine ⟨coherent, ?_, ?_, by simp [running]⟩
      · intro l
        have same : (next.cache l).state = (client.cache l).state := congrArg Cell.state (cells l)
        simpa only [holds, same] using exclusive.held l
      · simpa only [holds] using exclusive.unique
  | died site shape reached _ =>
      subst shape
      refine ⟨coherent, exclusive.held, exclusive.unique, ?_⟩
      intro failed
      rcases reached (Option.some.inj failed) with ⟨lid, holds, unlocked⟩
      exact unlocked ((exclusive.held lid).mpr ⟨_, holds⟩)

theorem exclusive_of_run {events : List ClientEvent} {client : LockClient}
    (run : Run (StepOf LockClient.step) initial events client) : client.Exclusive :=
  run.invariant Exclusive Exclusive.initial fun _ _ _ exclusive taken => exclusive.step taken

end LockClient

/-- In every interleaving of the threads and handlers of one client, with any
answers of the lock server, at most one thread is between its `acquire` and its
`release`, the lock is `LOCKED` exactly while there is one, and no `release` runs
into an `assert(0)`. -/
theorem local_exclusion {events : List ClientEvent} {client : LockClient}
    (run : Run (StepOf LockClient.step) LockClient.initial events client) (lid : LockId) :
    (∀ t u, client.thread t = .holding lid → client.thread u = .holding lid → t = u) ∧
      ((client.cache lid).state = .locked ↔ ∃ t, client.thread t = .holding lid) ∧
      client.aborted ≠ some .release := by
  have exclusive := LockClient.exclusive_of_run run
  exact ⟨exclusive.unique lid, exclusive.held lid, exclusive.asserted⟩

/-- Two threads take turns while a revocation is noted for the lock. -/
theorem local_exclusion_two_threads :
    ∃ client, Run (StepOf LockClient.step) LockClient.initial
        [.acquire 0 5, .acquire 1 5, .acquireReturn 0 .ok, .release 0 (some 1), .wake 1,
          .revokeHandler 2 5] client ∧
      client.thread 1 = .holding 5 ∧ (client.cache 5).state = .locked := by
  have run := run_of_exec (rfl : exec LockClient.step LockClient.initial
    [.acquire 0 5, .acquire 1 5, .acquireReturn 0 .ok, .release 0 (some 1), .wake 1,
      .revokeHandler 2 5] = some _)
  exact ⟨_, run, rfl, (local_exclusion run 5).2.1.mpr ⟨1, rfl⟩⟩

end Ctgfs.Lock
