import Ctgfs.Lock.Client

/-!
# What one section can do

Every section of the lock client concerns one lock and one thread.  `Turn` lists
all of them as a table: what made the thread run, where it was, the state and the
revocation flag of the lock, and the same after the section.  The invariants of
the protocol are read off this table and never off the code again.
-/

namespace Ctgfs.Lock

inductive Trigger where
  | call
  | answer (r : Answer)
  | unlock
  | revoke
  | retry
  deriving DecidableEq, Repr

structure Cell where
  state : LockState
  isRevoked : Bool
  deriving DecidableEq, Repr

def LockCache.cell (cache : LockCache) : Cell := ⟨cache.state, cache.isRevoked⟩

inductive Turn (lid : LockId) : Trigger → Pc → Cell → Pc → Cell → Prop where
  -- `acquire` is called, or comes back from its wait
  | callRequest {pc state revoked} :
      pc = .outside ∨ pc = .acquireWoken lid → state = .none ∨ state = .releasing →
      Turn lid .call pc ⟨state, revoked⟩ (.acquireCall lid) ⟨.acquiring, revoked⟩
  | callTake {pc revoked} :
      pc = .outside ∨ pc = .acquireWoken lid →
      Turn lid .call pc ⟨.free, revoked⟩ (.holding lid) ⟨.locked, revoked⟩
  | callWait {pc state revoked} :
      pc = .outside ∨ pc = .acquireWoken lid → state = .locked ∨ state = .acquiring →
      Turn lid .call pc ⟨state, revoked⟩ (.acquireWait lid) ⟨state, revoked⟩
  -- `acquire` comes back from its RPC
  | lateRequest {r state revoked} :
      state = .none ∨ state = .releasing →
      Turn lid (.answer r) (.acquireCall lid) ⟨state, revoked⟩
        (.acquireCall lid) ⟨.acquiring, revoked⟩
  | lateTake {r revoked} :
      Turn lid (.answer r) (.acquireCall lid) ⟨.free, revoked⟩ (.holding lid) ⟨.locked, revoked⟩
  | lateWait {r revoked} :
      Turn lid (.answer r) (.acquireCall lid) ⟨.locked, revoked⟩
        (.acquireWait lid) ⟨.locked, revoked⟩
  | refused {revoked} :
      Turn lid (.answer .retry) (.acquireCall lid) ⟨.acquiring, revoked⟩
        (.acquireWait lid) ⟨.none, revoked⟩
  | askAgain {r} :
      r ≠ .retry →
      Turn lid (.answer r) (.acquireCall lid) ⟨.acquiring, true⟩
        (.acquireCall lid) ⟨.acquiring, false⟩
  | granted {r} :
      r ≠ .retry →
      Turn lid (.answer r) (.acquireCall lid) ⟨.acquiring, false⟩
        (.holding lid) ⟨.locked, decide (r = .retire)⟩
  -- `release`
  | giveUp :
      Turn lid .unlock (.holding lid) ⟨.locked, true⟩ (.releaseCall lid) ⟨.releasing, false⟩
  | keep :
      Turn lid .unlock (.holding lid) ⟨.locked, false⟩ .outside ⟨.free, false⟩
  | released {r revoked} :
      Turn lid (.answer r) (.releaseCall lid) ⟨.releasing, revoked⟩ .outside ⟨.none, revoked⟩
  | reacquire {r revoked} :
      Turn lid (.answer r) (.releaseCall lid) ⟨.releasing, revoked⟩
        (.reacquireCall lid) ⟨.acquiring, revoked⟩
  | overtaken {r state revoked} :
      state ≠ .releasing →
      Turn lid (.answer r) (.releaseCall lid) ⟨state, revoked⟩ .outside ⟨state, revoked⟩
  -- `release` comes back from the acquire RPC of `need_send`
  | reacquireRefused {revoked} :
      Turn lid (.answer .retry) (.reacquireCall lid) ⟨.acquiring, revoked⟩
        .outside ⟨.none, revoked⟩
  | reacquired {r revoked} :
      r ≠ .retry →
      Turn lid (.answer r) (.reacquireCall lid) ⟨.acquiring, revoked⟩
        .outside ⟨.free, revoked || decide (r = .retire)⟩
  | reacquireIgnored {r state revoked} :
      state ≠ .acquiring →
      Turn lid (.answer r) (.reacquireCall lid) ⟨state, revoked⟩ .outside ⟨state, revoked⟩
  -- `revoke_handler`
  | revokeIgnored {state revoked} :
      state = .none ∨ state = .releasing →
      Turn lid .revoke .outside ⟨state, revoked⟩ .outside ⟨state, revoked⟩
  | revokeFree {revoked} :
      Turn lid .revoke .outside ⟨.free, revoked⟩ (.revokeCall lid) ⟨.releasing, revoked⟩
  | revokeNoted {state revoked} :
      state = .locked ∨ state = .acquiring →
      Turn lid .revoke .outside ⟨state, revoked⟩ .outside ⟨state, true⟩
  | revokeReleased {r revoked} :
      Turn lid (.answer r) (.revokeCall lid) ⟨.releasing, revoked⟩ .outside ⟨.none, revoked⟩
  | revokeOvertaken {r state revoked} :
      state ≠ .releasing →
      Turn lid (.answer r) (.revokeCall lid) ⟨state, revoked⟩ .outside ⟨state, revoked⟩
  -- `retry_handler`
  | retryRequest {state revoked} :
      state = .none ∨ state = .acquiring ∨ state = .releasing →
      Turn lid .retry .outside ⟨state, revoked⟩ (.retryCall lid) ⟨.acquiring, revoked⟩
  | retryIgnored {state revoked} :
      state = .free ∨ state = .locked →
      Turn lid .retry .outside ⟨state, revoked⟩ .outside ⟨state, revoked⟩
  | retryAgain {r state revoked} :
      state = .none ∨ state = .releasing →
      Turn lid (.answer r) (.retryCall lid) ⟨state, revoked⟩ (.retryCall lid) ⟨.acquiring, revoked⟩
  | retryLate {r state revoked} :
      state = .free ∨ state = .locked →
      Turn lid (.answer r) (.retryCall lid) ⟨state, revoked⟩ .outside ⟨state, revoked⟩
  | retryFreed {r revoked} :
      Turn lid (.answer r) (.retryCall lid) ⟨.acquiring, revoked⟩
        .outside ⟨.free, revoked || decide (r = .retire ∨ r = .retry)⟩

variable {pc : Pc}

theorem Turn.outside_of_callback {lid : LockId} {trigger : Trigger} {after : Pc}
    {cell written : Cell} (turn : Turn lid trigger pc cell after written)
    (callback : trigger = .revoke ∨ trigger = .retry) : pc = .outside := by
  cases turn <;> simp_all

/-- A section of thread `t` for lock `lid`: a row of the table for the thread and
the lock, and nothing for the others but that one waiting thread may be woken.  A
section that makes the lock `FREE` wakes one if there is any. -/
structure Section (client : LockClient) (t : ThreadId) (lid : LockId) (trigger : Trigger)
    (next : LockClient) : Prop where
  turn : Turn lid trigger (client.thread t) (client.cache lid).cell
    (next.thread t) (next.cache lid).cell
  others : ∀ u, u ≠ t → next.thread u = client.thread u ∨
    (client.thread u = .acquireWait lid ∧ next.thread u = .acquireWoken lid)
  elsewhere : ∀ other, other ≠ lid → next.lsm other = client.lsm other
  running : next.aborted = none
  signalled : (client.cache lid).state ≠ .free → (next.cache lid).state = .free →
    (∀ u, u ≠ t → client.thread u ≠ .acquireWait lid) ∨ ∃ u, next.thread u = .acquireWoken lid

variable {woken : Option ThreadId} {cache : LockCache} {count : Int}

namespace LockClient

variable {client next : LockClient} {t u : ThreadId} {lid : LockId}

@[simp]
theorem put_thread_self (cache : LockCache) (pc : Pc) :
    (client.put t lid cache pc).thread t = pc := by
  simp [put]

theorem put_thread_of_ne (other : u ≠ t) (cache : LockCache) (pc : Pc) :
    (client.put t lid cache pc).thread u = client.thread u := by
  simp [put, other]

@[simp]
theorem put_cache_self (cache : LockCache) (pc : Pc) :
    (client.put t lid cache pc).cache lid = cache := by
  simp [put, LockClient.cache]

theorem put_lsm_of_ne {other : LockId} (distinct : other ≠ lid) (cache : LockCache) (pc : Pc) :
    (client.put t lid cache pc).lsm other = client.lsm other := by
  simp [put, distinct]

@[simp]
theorem put_put (first second : LockCache) (before after : Pc) :
    (client.put t lid first before).put t lid second after = client.put t lid second after := by
  simp [put]

@[simp]
theorem put_waiting_cache (cache : LockCache) (pc : Pc) (count : Int) (other : LockId) :
    { client.put t lid cache pc with waitingThreads := count }.cache other =
      (client.put t lid cache pc).cache other := rfl

theorem put_cache_of_ne {other : LockId} (distinct : other ≠ lid) (cache : LockCache) (pc : Pc) :
    (client.put t lid cache pc).cache other = client.cache other := by
  simp [LockClient.cache, put_lsm_of_ne distinct]

def Coherent (client : LockClient) : Prop :=
  ∀ lid, (client.cache lid).cond.Nodup ∧
    ∀ t, t ∈ (client.cache lid).cond ↔ client.thread t = .acquireWait lid

theorem Coherent.initial : LockClient.initial.Coherent := by
  intro lid
  simp [LockClient.initial, LockClient.cache]

theorem Coherent.put (coherent : client.Coherent) (cache : LockCache) (pc : Pc)
    (before : ∀ other, client.thread t ≠ .acquireWait other)
    (after : ∀ other, pc ≠ .acquireWait other)
    (same : cache.cond = (client.cache lid).cond) :
    (client.put t lid cache pc).Coherent := by
  intro other
  have list : ((client.put t lid cache pc).cache other).cond = (client.cache other).cond := by
    by_cases here : other = lid
    · subst here
      rw [put_cache_self, same]
    · rw [put_cache_of_ne here]
  rw [list]
  refine ⟨(coherent other).1, fun u => ?_⟩
  rw [(coherent other).2 u]
  by_cases here : u = t
  · subst here
    simp [before, after]
  · rw [put_thread_of_ne here]

theorem Coherent.wait (coherent : client.Coherent)
    (before : ∀ other, client.thread t ≠ .acquireWait other)
    (same : cache.cond = (client.cache lid).cond) : (client.wait t lid cache).Coherent := by
  have absent : t ∉ (client.cache lid).cond := fun member =>
    before lid (((coherent lid).2 t).mp member)
  intro other
  by_cases here : other = lid
  · subst here
    simp only [LockClient.wait, put_waiting_cache, put_cache_self, same, List.nodup_cons]
    refine ⟨⟨absent, (coherent other).1⟩, fun u => ?_⟩
    by_cases mine : u = t
    · subst mine
      simp
    · rw [put_thread_of_ne mine, List.mem_cons, (coherent other).2 u]
      simp [mine]
  · simp only [LockClient.wait, put_waiting_cache, put_cache_of_ne here]
    refine ⟨(coherent other).1, fun u => ?_⟩
    rw [(coherent other).2 u]
    by_cases mine : u = t
    · subst mine
      simp [before, Ne.symm here]
    · rw [put_thread_of_ne mine]

theorem signal_some_iff {woken : ThreadId} :
    client.signal lid (some woken) = some next ↔
      woken ∈ (client.cache lid).cond ∧
        next = client.put woken lid
          { client.cache lid with cond := (client.cache lid).cond.erase woken }
          (.acquireWoken lid) := by
  simp only [signal, Option.ite_none_right_eq_some, Option.some.injEq]
  exact and_congr_right fun _ => eq_comm

theorem signal_none_iff :
    client.signal lid none = some next ↔ (client.cache lid).cond = [] ∧ next = client := by
  simp only [signal, Option.ite_none_right_eq_some, Option.some.injEq]
  exact and_congr_right fun _ => eq_comm

theorem Coherent.signal (coherent : client.Coherent)
    (signalled : client.signal lid woken = some next) : next.Coherent := by
  cases woken with
  | none =>
      rw [(signal_none_iff.mp signalled).2]
      exact coherent
  | some t =>
      rcases signal_some_iff.mp signalled with ⟨member, rfl⟩
      have blocked := ((coherent lid).2 t).mp member
      intro other
      by_cases here : other = lid
      · subst here
        simp only [put_cache_self]
        refine ⟨(coherent other).1.erase t, fun u => ?_⟩
        rw [(coherent other).1.mem_erase_iff, (coherent other).2 u]
        by_cases mine : u = t
        · subst mine
          simp
        · rw [put_thread_of_ne mine]
          simp [mine]
      · rw [put_cache_of_ne here]
        refine ⟨(coherent other).1, fun u => ?_⟩
        rw [(coherent other).2 u]
        by_cases mine : u = t
        · subst mine
          simp [blocked, Ne.symm here]
        · rw [put_thread_of_ne mine]

theorem section_of_write {trigger : Trigger} (running : client.aborted = none)
    (silent : (client.cache lid).state ≠ .free → cache.state = .free →
      ∀ u, u ≠ t → client.thread u ≠ .acquireWait lid)
    (turn : Turn lid trigger (client.thread t) (client.cache lid).cell pc cache.cell) :
    Section client t lid trigger
      { client.put t lid cache pc with waitingThreads := count } := by
  constructor
  · show Turn lid trigger _ _ ((client.put t lid cache pc).thread t)
      ((client.put t lid cache pc).cache lid).cell
    simpa using turn
  · intro u other
    exact .inl (by simp [put, other])
  · intro other distinct
    simp [put, distinct]
  · exact running
  · intro taken free
    simp only [put_waiting_cache, put_cache_self] at free
    exact .inl (silent taken free)

theorem section_of_put {trigger : Trigger} (running : client.aborted = none)
    (silent : cache.state = .free → (client.cache lid).state = .free)
    (turn : Turn lid trigger (client.thread t) (client.cache lid).cell pc cache.cell) :
    Section client t lid trigger
      { client.put t lid cache pc with waitingThreads := count } :=
  section_of_write running (fun taken free => absurd (silent free) taken) turn

theorem section_of_signal {trigger : Trigger} (running : client.aborted = none)
    (turn : Turn lid trigger (client.thread t) (client.cache lid).cell pc cache.cell)
    (coherent : (client.put t lid cache pc).Coherent) (awake : pc ≠ .acquireWait lid)
    (signalled : (client.put t lid cache pc).signal lid woken = some next) :
    Section client t lid trigger next := by
  cases woken with
  | none =>
      obtain ⟨empty, rfl⟩ := signal_none_iff.mp signalled
      refine section_of_write running (fun _ _ u other blocked => ?_) turn
      have member := ((coherent lid).2 u).mpr (by rwa [put_thread_of_ne other])
      rw [empty] at member
      cases member
  | some u =>
      rcases signal_some_iff.mp signalled with ⟨member, rfl⟩
      have blocked := ((coherent lid).2 u).mp member
      have distinct : u ≠ t := by
        rintro rfl
        exact awake (by simpa using blocked)
      constructor
      · rw [put_thread_of_ne distinct.symm]
        simpa [LockCache.cell] using turn
      · intro v other
        by_cases same : v = u
        · subst same
          rw [put_thread_of_ne other] at blocked
          exact .inr ⟨blocked, by simp⟩
        · left
          rw [put_thread_of_ne same, put_thread_of_ne other]
      · intro other different
        rw [put_lsm_of_ne different, put_lsm_of_ne different]
      · exact running
      · exact fun _ _ => .inr ⟨u, by simp⟩

end LockClient

def ClientEvent.trigger : ClientEvent → Option Trigger
  | .acquire _ _ | .wake _ => some .call
  | .acquireReturn _ r | .reacquireReturn _ r _ | .retryReturn _ r _ => some (.answer r)
  | .releaseReturn _ | .revokeReturn _ => some (.answer .ok)
  | .release _ _ => some .unlock
  | .revokeHandler _ _ => some .revoke
  | .retryHandler _ _ => some .retry
  | .spurious _ => none

def ClientEvent.names : ClientEvent → Option LockId
  | .acquire _ lid | .revokeHandler _ lid | .retryHandler _ lid => some lid
  | _ => none

inductive Outcome (client : LockClient) (event : ClientEvent) (next : LockClient) : Prop where
  | ran (lid : LockId) (trigger : Trigger) :
      event.trigger = some trigger → event.names.getD lid = lid →
      Section client event.actor lid trigger next → Outcome client event next
  | roused (lid : LockId) :
      event.trigger = none → client.thread event.actor = .acquireWait lid →
      next.thread = Function.update client.thread event.actor (.acquireWoken lid) →
      (∀ other, (next.cache other).cell = (client.cache other).cell) →
      next.aborted = none → Outcome client event next
  | died (site : AssertSite) :
      next = { client with aborted := some site } →
      (site = .release → ∃ lid, client.thread event.actor = .holding lid ∧
        (client.cache lid).state ≠ .locked) →
      (site = .retryHandler → client.thread event.actor = .outside) →
      Outcome client event next

namespace LockClient

variable {client next : LockClient} {t : ThreadId} {lid : LockId}

theorem cell_eq {state : LockState} (reads : (client.cache lid).state = state) :
    (client.cache lid).cell = ⟨state, (client.cache lid).isRevoked⟩ := by
  rw [← reads]
  rfl

theorem section_of_row {after : Pc} {trigger : Trigger} {state : LockState} {written : Cell}
    (running : client.aborted = none) (position : client.thread t = pc)
    (reads : (client.cache lid).state = state)
    (row : Turn lid trigger pc ⟨state, (client.cache lid).isRevoked⟩ after written)
    (writes : cache.cell = written) (silent : written.state = .free → state = .free) :
    Section client t lid trigger
      { client.put t lid cache after with waitingThreads := count } := by
  rw [← writes] at silent
  apply section_of_put running fun free => reads.trans (silent free)
  rw [position, cell_eq reads, writes]
  exact row

theorem acquireLoop_section (running : client.aborted = none) (position : client.thread t = pc)
    (calls : pc = .outside ∨ pc = .acquireWoken lid) :
    Section client t lid .call (client.acquireLoop t lid) := by
  cases reads : (client.cache lid).state with
  | none =>
      simp only [acquireLoop, reads]
      exact section_of_row running position reads (.callRequest calls (.inl rfl)) rfl (by simp)
  | releasing =>
      simp only [acquireLoop, reads]
      exact section_of_row running position reads (.callRequest calls (.inr rfl)) rfl (by simp)
  | free =>
      simp only [acquireLoop, reads]
      exact section_of_row running position reads (.callTake calls) rfl (by simp)
  | locked =>
      simp only [acquireLoop, reads]
      exact section_of_row running position reads (.callWait calls (.inl rfl)) (cell_eq reads)
        (by simp)
  | acquiring =>
      simp only [acquireLoop, reads]
      exact section_of_row running position reads (.callWait calls (.inr rfl)) (cell_eq reads)
        (by simp)

variable {r : Answer}

theorem acquireReturn_section (running : client.aborted = none)
    (position : client.thread t = .acquireCall lid) :
    Section client t lid (.answer r) (client.acquireReturn t lid r) := by
  cases reads : (client.cache lid).state with
  | none =>
      simp only [acquireReturn, acquireLoop, reads, ne_eq, reduceCtorEq, not_false_eq_true, if_true]
      exact section_of_row running position reads (.lateRequest (.inl rfl)) rfl (by simp)
  | releasing =>
      simp only [acquireReturn, acquireLoop, reads, ne_eq, reduceCtorEq, not_false_eq_true, if_true]
      exact section_of_row running position reads (.lateRequest (.inr rfl)) rfl (by simp)
  | free =>
      simp only [acquireReturn, acquireLoop, reads, ne_eq, reduceCtorEq, not_false_eq_true, if_true]
      exact section_of_row running position reads .lateTake rfl (by simp)
  | locked =>
      simp only [acquireReturn, acquireLoop, reads, ne_eq, reduceCtorEq, not_false_eq_true, if_true]
      exact section_of_row running position reads .lateWait (cell_eq reads)
        (by simp)
  | acquiring =>
      simp only [acquireReturn, reads, ne_eq, not_true_eq_false, if_false]
      split
      next refused =>
        apply section_of_put running (by simp)
        rw [position, cell_eq reads, refused]
        exact .refused
      next answered =>
        split
        next revoked =>
          simp only [acquireLoop, put_cache_self, put_put]
          apply section_of_put running (by simp)
          rw [position, cell_eq reads, revoked]
          exact .askAgain answered
        next valid =>
          apply section_of_put running (by simp)
          rw [position, cell_eq reads, Bool.not_eq_true _ |>.mp valid]
          exact .granted answered

theorem acquireLoop_coherent (coherent : client.Coherent)
    (awake : ∀ other, client.thread t ≠ .acquireWait other) :
    (client.acquireLoop t lid).Coherent := by
  cases reads : (client.cache lid).state <;> simp only [acquireLoop, reads]
  case locked => exact coherent.wait awake rfl
  case acquiring => exact coherent.wait awake rfl
  all_goals exact coherent.put _ _ awake (by simp) rfl

theorem acquireReturn_coherent (coherent : client.Coherent)
    (awake : ∀ other, client.thread t ≠ .acquireWait other) :
    (client.acquireReturn t lid r).Coherent := by
  unfold acquireReturn
  dsimp only
  split
  · exact acquireLoop_coherent coherent awake
  split
  · exact coherent.wait awake rfl
  split
  · apply acquireLoop_coherent
    · exact coherent.put _ _ awake (by simp) rfl
    · simp
  · exact coherent.put _ _ awake (by simp) rfl

section

variable (running : client.aborted = none)

include running

theorem release_outcome (coherent : client.Coherent) (position : client.thread t = .holding lid)
    (step : client.release t lid woken = some next) :
    next.Coherent ∧ Outcome client (.release t woken) next := by
  have awake : ∀ other, client.thread t ≠ .acquireWait other := by simp [position]
  unfold release at step
  dsimp only at step
  split at step
  next unlocked =>
    cases step
    exact ⟨coherent, .died .release rfl (fun _ => ⟨lid, position, unlocked⟩) (by simp)⟩
  next locked =>
    have reads : (client.cache lid).state = .locked := not_not.mp locked
    split at step
    next revoked =>
      cases step
      refine ⟨coherent.put _ _ awake (by simp) rfl,
        .ran lid .unlock rfl rfl (section_of_put running (by simp) ?_)⟩
      rw [ClientEvent.actor, position, cell_eq reads, revoked]
      exact .giveUp
    next valid =>
      have kept := coherent.put { client.cache lid with state := .free } .outside awake
        (by simp) rfl
      refine ⟨kept.signal step, .ran lid .unlock rfl rfl
        (section_of_signal running ?_ kept (by simp) step)⟩
      rw [ClientEvent.actor, position, cell_eq reads, LockCache.cell,
        Bool.not_eq_true _ |>.mp valid]
      exact .keep

theorem releaseReturn_section (position : client.thread t = .releaseCall lid) :
    Section client t lid (.answer .ok) (client.releaseReturn t lid) := by
  unfold releaseReturn
  dsimp only
  split
  next reads =>
    split
    next waiting =>
      exact section_of_row running position reads .reacquire rfl (by simp)
    next idle =>
      exact section_of_row running position reads .released rfl (by simp)
  next overtaken =>
    apply section_of_put running id
    rw [position]
    exact .overtaken overtaken

theorem reacquireReturn_outcome (coherent : client.Coherent)
    (position : client.thread t = .reacquireCall lid)
    (step : client.reacquireReturn t lid r woken = some next) :
    next.Coherent ∧ Section client t lid (.answer r) next := by
  have awake : ∀ other, client.thread t ≠ .acquireWait other := by simp [position]
  unfold reacquireReturn at step
  dsimp only at step
  split at step
  next reads =>
    split at step
    next refused =>
      cases step
      refine ⟨coherent.put _ _ awake (by simp) rfl, section_of_put running (by simp) ?_⟩
      rw [position, cell_eq reads, refused]
      exact .reacquireRefused
    next answered =>
      have kept := coherent.put
        { client.cache lid with
          state := .free
          isRevoked := (client.cache lid).isRevoked || decide (r = .retire) } .outside awake
        (by simp) rfl
      refine ⟨kept.signal step, section_of_signal running ?_ kept (by simp) step⟩
      rw [position, cell_eq reads]
      exact .reacquired answered
  next ignored =>
    cases step
    refine ⟨coherent.put _ _ awake (by simp) rfl, section_of_put running (by simp) ?_⟩
    rw [position]
    exact .reacquireIgnored ignored

theorem revokeHandler_section (position : client.thread t = .outside) :
    Section client t lid .revoke (client.revokeHandler t lid) := by
  cases reads : (client.cache lid).state with
  | none =>
      simp only [revokeHandler, reads]
      exact section_of_row running position reads (.revokeIgnored (.inl rfl)) (cell_eq reads)
        (by simp)
  | releasing =>
      simp only [revokeHandler, reads]
      exact section_of_row running position reads (.revokeIgnored (.inr rfl)) (cell_eq reads)
        (by simp)
  | free =>
      simp only [revokeHandler, reads]
      exact section_of_row running position reads .revokeFree rfl (by simp)
  | locked =>
      simp only [revokeHandler, reads]
      exact section_of_row running position reads (.revokeNoted (.inl rfl)) rfl (by simp)
  | acquiring =>
      simp only [revokeHandler, reads]
      exact section_of_row running position reads (.revokeNoted (.inr rfl)) rfl (by simp)

theorem revokeReturn_section (position : client.thread t = .revokeCall lid) :
    Section client t lid (.answer .ok) (client.revokeReturn t lid) := by
  unfold revokeReturn
  dsimp only
  split
  next reads =>
    exact section_of_row running position reads .revokeReleased rfl (by simp)
  next overtaken =>
    apply section_of_put running id
    rw [position]
    exact .revokeOvertaken overtaken

theorem retryLoop_section (position : client.thread t = .outside) :
    Section client t lid .retry (client.retryLoop t lid) := by
  cases reads : (client.cache lid).state with
  | none =>
      simp only [retryLoop, reads]
      exact section_of_row running position reads (.retryRequest (.inl rfl)) rfl (by simp)
  | acquiring =>
      simp only [retryLoop, reads]
      exact section_of_row running position reads (.retryRequest (.inr (.inl rfl))) rfl (by simp)
  | releasing =>
      simp only [retryLoop, reads]
      exact section_of_row running position reads (.retryRequest (.inr (.inr rfl))) rfl (by simp)
  | free =>
      simp only [retryLoop, reads]
      exact section_of_row running position reads (.retryIgnored (.inl rfl)) (cell_eq reads)
        (by simp)
  | locked =>
      simp only [retryLoop, reads]
      exact section_of_row running position reads (.retryIgnored (.inr rfl)) (cell_eq reads)
        (by simp)

theorem retryReturn_outcome (coherent : client.Coherent)
    (position : client.thread t = .retryCall lid)
    (step : client.retryReturn t lid r woken = some next) :
    next.Coherent ∧ Section client t lid (.answer r) next := by
  have awake : ∀ other, client.thread t ≠ .acquireWait other := by simp [position]
  cases reads : (client.cache lid).state with
  | acquiring =>
      simp only [retryReturn, reads, ne_eq, not_true_eq_false, if_false] at step
      have kept := coherent.put
        { client.cache lid with
          state := .free
          isRevoked := (client.cache lid).isRevoked || decide (r = .retire ∨ r = .retry) }
        .outside awake (by simp) rfl
      refine ⟨kept.signal step, section_of_signal running ?_ kept (by simp) step⟩
      rw [position, cell_eq reads]
      exact .retryFreed
  | none =>
      simp only [retryReturn, retryLoop, reads, ne_eq, reduceCtorEq, not_false_eq_true, if_true,
        Option.some.injEq] at step
      subst step
      exact ⟨coherent.put _ _ awake (by simp) rfl,
        section_of_row running position reads (.retryAgain (.inl rfl)) rfl (by simp)⟩
  | releasing =>
      simp only [retryReturn, retryLoop, reads, ne_eq, reduceCtorEq, not_false_eq_true, if_true,
        Option.some.injEq] at step
      subst step
      exact ⟨coherent.put _ _ awake (by simp) rfl,
        section_of_row running position reads (.retryAgain (.inr rfl)) rfl (by simp)⟩
  | free =>
      simp only [retryReturn, retryLoop, reads, ne_eq, reduceCtorEq, not_false_eq_true, if_true,
        Option.some.injEq] at step
      subst step
      exact ⟨coherent.put _ _ awake (by simp) rfl,
        section_of_row running position reads (.retryLate (.inl rfl)) (cell_eq reads)
        (by simp)⟩
  | locked =>
      simp only [retryReturn, retryLoop, reads, ne_eq, reduceCtorEq, not_false_eq_true, if_true,
        Option.some.injEq] at step
      subst step
      exact ⟨coherent.put _ _ awake (by simp) rfl,
        section_of_row running position reads (.retryLate (.inr rfl)) (cell_eq reads)
        (by simp)⟩

end

theorem step_outcome {event : ClientEvent} (coherent : client.Coherent)
    (taken : client.step event = some next) :
    next.Coherent ∧ Outcome client event next := by
  unfold step at taken
  split at taken
  · cases taken
  next alive =>
  have running : client.aborted = none := by simpa using alive
  split at taken
  next t lid position =>
    change client.thread t = _ at position
    cases taken
    exact ⟨acquireLoop_coherent coherent (by simp [position]),
      .ran lid .call rfl rfl (acquireLoop_section running position (.inl rfl))⟩
  next t r lid position =>
    change client.thread t = _ at position
    cases taken
    exact ⟨acquireReturn_coherent coherent (by simp [position]),
      .ran lid (.answer r) rfl rfl (acquireReturn_section running position)⟩
  next t lid position =>
    change client.thread t = _ at position
    cases taken
    have counted : { client with waitingThreads := client.waitingThreads - 1 }.Coherent := coherent
    have woken : Section { client with waitingThreads := client.waitingThreads - 1 } t lid
        .call _ := acquireLoop_section running position (.inr rfl)
    exact ⟨acquireLoop_coherent counted (by simp [position]),
      .ran lid .call rfl rfl
        ⟨woken.turn, woken.others, woken.elsewhere, woken.running, woken.signalled⟩⟩
  next t lid position =>
    change client.thread t = _ at position
    refine ⟨coherent.signal taken, ?_⟩
    rcases signal_some_iff.mp taken with ⟨_, rfl⟩
    refine .roused lid rfl position rfl (fun other => ?_) running
    by_cases here : other = lid
    · subst here
      simp [LockCache.cell]
    · rw [put_cache_of_ne here]
  next t woken lid position =>
    change client.thread t = _ at position
    exact release_outcome running coherent position taken
  next t lid position =>
    change client.thread t = _ at position
    cases taken
    refine ⟨?_, .ran lid (.answer .ok) rfl rfl (releaseReturn_section running position)⟩
    unfold releaseReturn
    dsimp only
    split_ifs <;> exact coherent.put _ _ (by simp [position]) (by simp) rfl
  next t r woken lid position =>
    change client.thread t = _ at position
    have outcome := reacquireReturn_outcome running coherent position taken
    exact ⟨outcome.1, .ran lid (.answer r) rfl rfl outcome.2⟩
  next t lid position =>
    change client.thread t = _ at position
    cases taken
    refine ⟨?_, .ran lid .revoke rfl rfl (revokeHandler_section running position)⟩
    unfold revokeHandler
    dsimp only
    split <;> exact coherent.put _ _ (by simp [position]) (by simp) rfl
  next t lid position =>
    change client.thread t = _ at position
    cases taken
    refine ⟨?_, .ran lid (.answer .ok) rfl rfl (revokeReturn_section running position)⟩
    unfold revokeReturn
    dsimp only
    split_ifs <;> exact coherent.put _ _ (by simp [position]) (by simp) rfl
  next t lid position =>
    change client.thread t = _ at position
    cases taken
    unfold retryHandler
    split
    · exact ⟨coherent, .died .retryHandler rfl (by simp) fun _ => position⟩
    · refine ⟨?_, .ran lid .retry rfl rfl (retryLoop_section running position)⟩
      unfold retryLoop
      dsimp only
      split <;> exact coherent.put _ _ (by simp [position]) (by simp) rfl
  next t r woken lid position =>
    change client.thread t = _ at position
    have outcome := retryReturn_outcome running coherent position taken
    exact ⟨outcome.1, .ran lid (.answer r) rfl rfl outcome.2⟩
  next => cases taken

end LockClient

end Ctgfs.Lock
