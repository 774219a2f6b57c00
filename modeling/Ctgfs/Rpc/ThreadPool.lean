import Ctgfs.Rpc.Fifo

/-!
# The thread pool of an RPC server

`ThrPool` has `nthreads_` workers that take jobs from a `fifo`.  Its destructor puts an empty job
for each of them, which makes a worker exit, and joins them.
-/

namespace Ctgfs.Rpc

open Foundation

/-- The destructor has not been called, or has put `i` empty jobs; it may wait for space. -/
inductive Destructor where
  | pending
  | putting (i : Nat) (waits : Bool)
  deriving DecidableEq, Repr

def Destructor.put : Destructor → Nat
  | .pending => 0
  | .putting i _ => i

/-- `ThrPool`.  An empty job is one whose function is null.  The workers all run `do_worker`;
`ready` of them are about to call `takeJob`, and those that wait in it are in the queue. -/
structure ThrPool (nthreads : Nat) (Job : Type) where
  jobq : Fifo (100 * nthreads) (Option Job) := {}
  ready : Nat := nthreads
  running : List Job := []
  finished : List Job := []
  exited : Nat := 0
  destructor : Destructor := .pending

/-- `again` is set when a thread goes on after it has waited in the queue. -/
inductive PoolEvent (Job : Type) where
  | addJob (again : Bool) (job : Job) (chosen : Option Unit)
  | takeJob (again : Bool) (chosen : Option (Option Job))
  /-- A job returns. -/
  | finish (job : Job)
  | destroy
  /-- The destructor puts an empty job. -/
  | put (again : Bool) (chosen : Option Unit)
  /-- A thread that waits in the queue is woken for no reason. -/
  | rouseTaker
  | rouseAdder (job : Option Job)
  deriving DecidableEq, Repr

def PoolEvent.rouses {Job : Type} : PoolEvent Job → Bool
  | .rouseTaker | .rouseAdder _ => true
  | _ => false

namespace ThrPool

variable {nthreads : Nat} {Job : Type}

/-- `do_worker` after `takeJob`, unless it waits in it. -/
def took (pool : ThrPool nthreads Job) :
    Option (Option Job) × Fifo (100 * nthreads) (Option Job) → ThrPool nthreads Job
  | (none, jobq) => { pool with jobq }
  | (some none, jobq) => { pool with jobq, exited := pool.exited + 1 }
  | (some (some job), jobq) => { pool with jobq, running := job :: pool.running }

/-- The destructor after `enq`. -/
def placed (pool : ThrPool nthreads Job) (i : Nat) :
    Option Bool × Fifo (100 * nthreads) (Option Job) → ThrPool nthreads Job
  | (none, jobq) => { pool with jobq, destructor := .putting i true }
  | (some _, jobq) => { pool with jobq, destructor := .putting (i + 1) false }

variable [DecidableEq Job]

/-- One step.  The destructor is called when no thread from outside is in `addJob` or will
call it again; `pthread_join` returns when a worker has exited. -/
def step (blockadd : Bool) (pool : ThrPool nthreads Job) :
    PoolEvent Job → Option (ThrPool nthreads Job)
  | .addJob again job chosen =>
      if pool.destructor = .pending then
        (pool.jobq.enq again (some job) blockadd chosen).map fun ran => { pool with jobq := ran.2 }
      else none
  | .takeJob again chosen =>
      if again ∨ pool.ready ≠ 0 then
        (pool.jobq.deq again chosen).map
          { pool with ready := if again then pool.ready else pool.ready - 1 }.took
      else none
  | .finish job =>
      if job ∈ pool.running then
        some { pool with
          ready := pool.ready + 1
          running := pool.running.erase job
          finished := pool.finished ++ [job] }
      else none
  | .destroy =>
      if pool.destructor = .pending ∧ pool.jobq.hasSpaceC.waiters = [] then
        some { pool with destructor := .putting 0 false }
      else none
  | .put again chosen =>
      match pool.destructor with
      | .putting i waits =>
          if i < nthreads ∧ waits = again then
            (pool.jobq.enq again none true chosen).map (pool.placed i)
          else none
      | .pending => none
  | .rouseTaker => pool.jobq.rouseDeq.map fun jobq => { pool with jobq }
  | .rouseAdder job => (pool.jobq.rouseEnq job).map fun jobq => { pool with jobq }

structure Counts (pool : ThrPool nthreads Job) : Prop where
  sound : pool.jobq.Sound
  workers : pool.ready + pool.jobq.nonEmptyC.waiters.length + pool.running.length + pool.exited =
    nthreads
  started : (pool.jobq.taken.filterMap id).Perm (pool.finished ++ pool.running)
  exits : pool.jobq.taken.count none = pool.exited
  added : ∃ jobs : List Job,
    pool.jobq.added = jobs.map some ++ .replicate pool.destructor.put none
  waiting : ∀ i waits, pool.destructor = .putting i waits →
    i ≤ nthreads ∧ (waits = true → i < nthreads) ∧
      pool.jobq.hasSpaceC.waiters.Perm (if waits then [none] else [])

variable {pool next : ThrPool nthreads Job} {again : Bool} {blockadd : Bool}

theorem Counts.addJob {job : Job} {chosen : Option Unit}
    {ran : Option Bool × Fifo (100 * nthreads) (Option Job)} (counts : pool.Counts)
    (phase : pool.destructor = .pending)
    (put : pool.jobq.enq again (some job) blockadd chosen = some ran) :
    { pool with jobq := ran.2 }.Counts := by
  obtain ⟨sound, workers, started, exits, ⟨jobs, added⟩, waiting⟩ := counts
  obtain ⟨result, jobq⟩ := ran
  have sound := sound.enq put
  obtain ⟨hasSpaceC, entered, outcome⟩ := Fifo.enq_cases put
  have waiting : ∀ {P : Nat → Bool → Prop} i waits, pool.destructor = .putting i waits →
      P i waits := by
    intro P i waits begun
    cases phase.symm.trans begun
  rcases outcome with ⟨-, -, nonEmptyC, signalled, rfl⟩ | ⟨-, ⟨-, rfl⟩ | ⟨-, -, rfl⟩⟩
  · refine ⟨sound, ?_, started, exits, ⟨jobs ++ [job], ?_⟩, waiting⟩
    · simpa only [(Condition.signal_waiters signalled).length_eq] using workers
    · rw [phase] at added ⊢
      simp [added, Destructor.put]
  · exact ⟨sound, workers, started, exits, ⟨jobs, added⟩, waiting⟩
  · exact ⟨sound, workers, started, exits, ⟨jobs, added⟩, waiting⟩

theorem Counts.takeJob {chosen : Option (Option Job)}
    {ran : Option (Option Job) × Fifo (100 * nthreads) (Option Job)} (counts : pool.Counts)
    (ready : again ∨ pool.ready ≠ 0) (deq : pool.jobq.deq again chosen = some ran) :
    ({ pool with ready := if again then pool.ready else pool.ready - 1 }.took ran).Counts := by
  obtain ⟨sound, workers, started, exits, added, waiting⟩ := counts
  obtain ⟨result, jobq⟩ := ran
  have sound := sound.deq deq
  obtain ⟨nonEmptyC, entered, outcome⟩ := Fifo.deq_cases deq
  -- the worker comes from those that are ready or from those that wait
  have inHand : (if again then pool.ready else pool.ready - 1) + nonEmptyC.waiters.length +
      pool.running.length + pool.exited + 1 = nthreads := by
    cases again with
    | false =>
        cases entered
        simp only [Bool.false_eq_true, false_or, if_false] at ready ⊢
        omega
    | true =>
        have fewer := (Condition.enter_waiters entered).length_eq
        simp only [List.length_cons, if_true] at fewer ⊢
        omega
  rcases outcome with ⟨-, rfl, rfl⟩ | ⟨job, q, hasSpaceC, shape, rfl, rfl, room⟩
  · refine ⟨sound, ?_, started, exits, added, waiting⟩
    simp only [ThrPool.took, Condition.waiters, Condition.wait, List.cons_append,
      List.length_cons] at inHand ⊢
    omega
  · have moved : hasSpaceC.waiters.Perm pool.jobq.hasSpaceC.waiters := by
      rcases room with ⟨-, signalled⟩ | ⟨-, rfl⟩
      · exact Condition.signal_waiters signalled
      · exact .refl _
    have waiting : ∀ i waits, pool.destructor = .putting i waits →
        i ≤ nthreads ∧ (waits = true → i < nthreads) ∧ hasSpaceC.waiters.Perm _ :=
      fun i waits phase => ⟨(waiting i waits phase).1, (waiting i waits phase).2.1,
        moved.trans (waiting i waits phase).2.2⟩
    cases job with
    | none =>
        refine ⟨sound, ?_, ?_, ?_, added, waiting⟩
        · simp only [ThrPool.took]
          omega
        · simpa [ThrPool.took] using started
        · simpa [ThrPool.took] using exits
    | some job =>
        refine ⟨sound, ?_, ?_, ?_, added, waiting⟩
        · simp only [ThrPool.took, List.length_cons]
          omega
        · simp only [ThrPool.took, List.filterMap_append]
          refine (started.append_right [job]).trans ?_
          rw [List.append_assoc]
          exact (List.perm_append_singleton job _).append_left _
        · simpa [ThrPool.took] using exits

theorem Counts.put {i : Nat} {chosen : Option Unit}
    {ran : Option Bool × Fifo (100 * nthreads) (Option Job)} (counts : pool.Counts)
    (phase : pool.destructor = .putting i again) (less : i < nthreads)
    (put : pool.jobq.enq again none true chosen = some ran) : (pool.placed i ran).Counts := by
  obtain ⟨sound, workers, started, exits, ⟨jobs, added⟩, waiting⟩ := counts
  obtain ⟨result, jobq⟩ := ran
  have sound := sound.enq put
  obtain ⟨hasSpaceC, entered, outcome⟩ := Fifo.enq_cases put
  have alone : hasSpaceC.waiters.Perm [] := by
    have waiting := (waiting i again phase).2.2
    cases again with
    | false =>
        cases entered
        exact waiting
    | true => exact ((Condition.enter_waiters entered).symm.trans waiting).cons_inv
  rw [phase] at added
  rcases outcome with ⟨-, rfl, nonEmptyC, signalled, rfl⟩ | ⟨-, ⟨rfl, rfl⟩ | ⟨-, ⟨⟩, -⟩⟩
  · refine ⟨sound, ?_, started, exits, ⟨jobs, ?_⟩, ?_⟩
    · simpa only [ThrPool.placed, (Condition.signal_waiters signalled).length_eq] using workers
    · simp only [ThrPool.placed, added, Destructor.put, List.replicate_succ', List.append_assoc]
    · rintro _ _ ⟨⟩
      exact ⟨less, by simp, alone⟩
  · refine ⟨sound, workers, started, exits, ⟨jobs, added⟩, ?_⟩
    rintro _ _ ⟨⟩
    exact ⟨Nat.le_of_lt less, fun _ => less, alone.cons none⟩

theorem Counts.step {event : PoolEvent Job} (counts : pool.Counts)
    (taken : pool.step blockadd event = some next) : next.Counts := by
  cases event with
  | addJob again job chosen =>
      simp only [ThrPool.step, Option.ite_none_right_eq_some, Option.map_eq_some_iff] at taken
      obtain ⟨phase, ran, put, rfl⟩ := taken
      exact counts.addJob phase put
  | takeJob again chosen =>
      simp only [ThrPool.step, Option.ite_none_right_eq_some, Option.map_eq_some_iff] at taken
      obtain ⟨ready, ran, deq, rfl⟩ := taken
      exact counts.takeJob ready deq
  | put again chosen =>
      simp only [ThrPool.step] at taken
      split at taken
      next i waits phase =>
        simp only [Option.ite_none_right_eq_some, Option.map_eq_some_iff] at taken
        obtain ⟨⟨less, rfl⟩, ran, put, rfl⟩ := taken
        exact counts.put phase less put
      next => cases taken
  | finish job =>
      simp only [ThrPool.step, Option.ite_none_right_eq_some, Option.some.injEq] at taken
      obtain ⟨member, rfl⟩ := taken
      refine { counts with workers := ?_, started := counts.started.trans ?_ }
      · have workers := counts.workers
        have fewer := List.length_erase_of_mem member
        have positive := List.length_pos_of_mem member
        simp only
        omega
      · rw [List.append_assoc]
        exact (List.perm_cons_erase member).append_left _
  | destroy =>
      simp only [ThrPool.step, Option.ite_none_right_eq_some, Option.some.injEq] at taken
      obtain ⟨⟨phase, nobody⟩, rfl⟩ := taken
      obtain ⟨jobs, added⟩ := counts.added
      rw [phase] at added
      refine { counts with added := ⟨jobs, added⟩, waiting := ?_ }
      rintro _ _ ⟨⟩
      exact ⟨Nat.zero_le _, by simp, by simp [nobody]⟩
  | rouseTaker =>
      obtain ⟨jobq, roused, rfl⟩ := Option.map_eq_some_iff.mp taken
      have sound : jobq.Sound := counts.sound.step (show pool.jobq.step .rouseDeq = _ from roused)
      obtain ⟨nonEmptyC, woken, rfl⟩ := Option.map_eq_some_iff.mp roused
      refine { counts with sound, workers := ?_ }
      simpa only [(Condition.wake_waiters woken).length_eq] using counts.workers
  | rouseAdder job =>
      obtain ⟨jobq, roused, rfl⟩ := Option.map_eq_some_iff.mp taken
      have sound : jobq.Sound :=
        counts.sound.step (show pool.jobq.step (.rouseEnq job) = _ from roused)
      obtain ⟨hasSpaceC, woken, rfl⟩ := Option.map_eq_some_iff.mp roused
      refine { counts with sound, waiting := fun i waits phase => ?_ }
      obtain ⟨few, less, waiting⟩ := counts.waiting i waits phase
      exact ⟨few, less, (Condition.wake_waiters woken).trans waiting⟩

/-- Where no thread can go on, the destructor has put its jobs and all workers have exited. -/
theorem Counts.drained (counts : pool.Counts) (begun : pool.destructor ≠ .pending)
    (stuck : ∀ event, event.rouses = false → pool.step blockadd event = none) :
    pool.destructor = .putting nthreads false ∧ pool.exited = nthreads ∧ pool.running = [] ∧
      (0 < nthreads → pool.jobq.q = []) := by
  obtain ⟨sound, workers, started, exits, ⟨jobs, added⟩, waiting⟩ := counts
  have ready : pool.ready = 0 := by
    by_contra some
    obtain ⟨chosen, ran, deq⟩ := Fifo.exists_deq
      (show pool.jobq.nonEmptyC.enter () false = _ from rfl)
    have blocked := stuck (.takeJob false chosen) rfl
    simp [ThrPool.step, some, deq] at blocked
  have running : pool.running = [] := by
    refine List.eq_nil_iff_forall_not_mem.mpr fun job member => ?_
    have blocked := stuck (.finish job) rfl
    simp [ThrPool.step, member] at blocked
  have woken : pool.jobq.nonEmptyC.woken = [] := by
    refine List.eq_nil_iff_forall_not_mem.mpr fun worker member => ?_
    obtain ⟨chosen, ran, deq⟩ := Fifo.exists_deq
      (show pool.jobq.nonEmptyC.enter () true = _ from if_pos member)
    have blocked := stuck (.takeJob true chosen) rfl
    simp [ThrPool.step, deq] at blocked
  have asleep : pool.jobq.nonEmptyC.asleep.length + pool.exited = nthreads := by
    simp only [Condition.waiters, woken, ready, running, List.append_nil, List.length_nil]
      at workers
    omega
  -- as long as a worker sleeps, all that was put has been taken
  have drained : pool.exited < nthreads → pool.jobq.q = [] := fun fewer =>
    sound.empty_of_asleep (List.ne_nil_of_length_pos (by omega)) woken
  have order := congrArg (List.count none) sound.order
  have fresh : (jobs.map some).count none = 0 := by simp [List.count_eq_zero]
  rw [added, List.count_append, List.count_append, fresh, List.count_replicate_self, exits]
    at order
  obtain ⟨i, waits, phase⟩ : ∃ i waits, pool.destructor = .putting i waits := by
    cases phase : pool.destructor with
    | pending => exact absurd phase begun
    | putting i waits => exact ⟨i, waits, rfl⟩
  obtain ⟨few, less, waiters⟩ := waiting i waits phase
  rw [phase] at added order
  simp only [Destructor.put] at added order
  cases waits with
  | true =>
      -- the destructor sleeps on a full queue, and the workers on an empty one
      have less := less rfl
      have nobody : pool.jobq.hasSpaceC.woken = [] := by
        refine List.eq_nil_iff_forall_not_mem.mpr fun job member => ?_
        obtain rfl := List.mem_singleton.mp (waiters.subset (List.mem_append_right _ member))
        obtain ⟨chosen, ran, put⟩ := Fifo.exists_enq
          (show pool.jobq.hasSpaceC.enter none true = _ from if_pos member) true
        have blocked := stuck (.put true chosen) rfl
        simp [ThrPool.step, phase, less, put] at blocked
      have sleeps : pool.jobq.hasSpaceC.asleep ≠ [] := by
        intro empty
        have length := waiters.length_eq
        simp [Condition.waiters, empty, nobody] at length
      have full := (sound.full_of_asleep sleeps nobody).2
      rw [drained (by omega), List.length_nil] at full
      omega
  | false =>
      have all : i = nthreads := by
        by_contra more
        obtain ⟨chosen, ran, put⟩ := Fifo.exists_enq
          (show pool.jobq.hasSpaceC.enter none false = _ from rfl) true
        have blocked := stuck (.put false chosen) rfl
        simp [ThrPool.step, phase, Nat.lt_of_le_of_ne few more, put] at blocked
      subst all
      have exited : pool.exited = i := by
        by_contra fewer
        have empty := drained (by omega)
        rw [empty, List.count_nil] at order
        omega
      refine ⟨phase, exited, running, fun positive => ?_⟩
      -- behind the last empty job there is nothing
      by_contra rest
      have last : pool.jobq.added.getLast? = some none := by
        rw [added, List.getLast?_append, List.getLast?_replicate]
        simp [Nat.ne_of_gt positive]
      rw [sound.order, List.getLast?_append_of_ne_nil _ rest] at last
      have counted := List.count_pos_iff.mpr (List.mem_of_getLast? last)
      omega

end ThrPool

/-- However the threads are scheduled, the jobs that `addJob` has accepted are taken once and in
their order, and each job that was taken is running or has returned.  Once the destructor has
been called and no thread can go on, all workers have exited, so that the destructor returns,
and all jobs have returned. -/
theorem pool_runs_every_job {nthreads : Nat} {Job : Type} [DecidableEq Job] {blockadd : Bool}
    {events : List (PoolEvent Job)} {pool : ThrPool nthreads Job}
    (run : Run (StepOf (ThrPool.step blockadd)) {} events pool) :
    pool.jobq.added = pool.jobq.taken ++ pool.jobq.q ∧
      (pool.jobq.taken.filterMap id).Perm (pool.finished ++ pool.running) ∧
      (pool.destructor ≠ .pending →
        (∀ event, event.rouses = false → pool.step blockadd event = none) →
        pool.destructor = .putting nthreads false ∧ pool.exited = nthreads ∧
          (0 < nthreads → (pool.jobq.added.filterMap id).Perm pool.finished)) := by
  have counts : pool.Counts := by
    refine run.invariant ThrPool.Counts ?_ fun _ _ _ counts taken => counts.step taken
    exact ⟨Fifo.sound_empty, by simp [Condition.waiters], .nil, rfl, ⟨[], rfl⟩,
      by rintro _ _ ⟨⟩⟩
  refine ⟨counts.sound.order, counts.started, fun begun stuck => ?_⟩
  obtain ⟨phase, all, idle, empty⟩ := counts.drained begun stuck
  refine ⟨phase, all, fun positive => ?_⟩
  have started := counts.started
  rwa [idle, List.append_nil, ← List.append_nil pool.jobq.taken, ← empty positive,
    ← counts.sound.order] at started

/-- One worker runs a job and is told to exit. -/
theorem pool_runs_every_job_destroyed :
    ∃ pool : ThrPool 1 Nat, Run (StepOf (ThrPool.step true)) {}
        [.takeJob false none, .addJob false 5 (some ()), .takeJob true none, .destroy,
          .put false none, .finish 5, .takeJob false none] pool ∧
      (∀ event, event.rouses = false → pool.step true event = none) ∧ pool.exited = 1 ∧
      (pool.jobq.added.filterMap id).Perm pool.finished := by
  let last : ThrPool 1 Nat :=
    { jobq := { added := [some 5, none], taken := [some 5, none] }
      ready := 0, finished := [5], exited := 1, destructor := .putting 1 false }
  have run : Run (StepOf (ThrPool.step true)) {}
      [.takeJob false none, .addJob false 5 (some ()), .takeJob true none, .destroy,
        .put false none, .finish 5, .takeJob false none] last :=
    run_of_exec rfl
  have stuck : ∀ event, event.rouses = false → last.step true event = none := by
    rintro (⟨_ | _⟩ | ⟨_ | _⟩ | _ | _ | ⟨_ | _⟩ | _ | _) _ <;> rfl
  obtain ⟨-, -, drained⟩ := pool_runs_every_job run
  obtain ⟨-, all, finished⟩ := drained (by decide) stuck
  exact ⟨last, run, stuck, all, finished (by decide)⟩

end Ctgfs.Rpc
