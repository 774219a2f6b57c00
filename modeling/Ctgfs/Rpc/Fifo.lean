import Ctgfs.Foundation.Monitor
import Ctgfs.Foundation.Runs

/-!
# The blocking queue

The threads of an RPC server hand each other work through a `fifo`.  Each definition below is
what a thread does from one moment at which the mutex is free to the next: it calls, or it goes
on after `pthread_cond_wait` and tests its condition again.
-/

namespace Ctgfs.Rpc

open Foundation

/-- `fifo` with the capacity `max_`, where 0 is no limit.  A thread that waits in `enq` waits
with its element.  `added` and `taken` record what came in and what went out. -/
structure Fifo (max : Nat) (T : Type) where
  q : List T := []
  nonEmptyC : Condition Unit := {}
  hasSpaceC : Condition T := {}
  added : List T := []
  taken : List T := []

/-- `chosen` is the thread that the scheduler wakes at a signal.  A thread may also be woken
for no reason. -/
inductive FifoEvent (T : Type) where
  | enq (again : Bool) (e : T) (blocking : Bool) (chosen : Option Unit)
  | deq (again : Bool) (chosen : Option T)
  | rouseEnq (e : T)
  | rouseDeq
  deriving DecidableEq, Repr

namespace Fifo

variable {max : Nat} {T : Type} [DecidableEq T] (fifo : Fifo max T)

/-- `enq`, with what it returns unless it waits.  A thread that has waited is a blocking one. -/
def enq (again : Bool) (e : T) (blocking : Bool) (chosen : Option Unit) :
    Option (Option Bool × Fifo max T) :=
  (fifo.hasSpaceC.enter e again).bind fun hasSpaceC =>
    if max = 0 ∨ fifo.q.length < max then
      (fifo.nonEmptyC.signal chosen).map fun nonEmptyC => (some true, { fifo with
        q := fifo.q ++ [e], added := fifo.added ++ [e], nonEmptyC, hasSpaceC })
    else if blocking || again then some (none, { fifo with hasSpaceC := hasSpaceC.wait e })
    else some (some false, { fifo with hasSpaceC })

/-- `deq`, with the element unless it waits. -/
def deq (again : Bool) (chosen : Option T) : Option (Option T × Fifo max T) :=
  (fifo.nonEmptyC.enter () again).bind fun nonEmptyC =>
    match fifo.q with
    | [] => some (none, { fifo with nonEmptyC := nonEmptyC.wait () })
    | e :: q =>
        if max ≠ 0 ∧ q.length < max then
          (fifo.hasSpaceC.signal chosen).map fun hasSpaceC =>
            (some e, { fifo with q, taken := fifo.taken ++ [e], nonEmptyC, hasSpaceC })
        else some (some e, { fifo with q, taken := fifo.taken ++ [e], nonEmptyC })

def rouseEnq (e : T) : Option (Fifo max T) :=
  (fifo.hasSpaceC.wake e).map fun hasSpaceC => { fifo with hasSpaceC }

def rouseDeq : Option (Fifo max T) :=
  (fifo.nonEmptyC.wake ()).map fun nonEmptyC => { fifo with nonEmptyC }

def step : FifoEvent T → Option (Fifo max T)
  | .enq again e blocking chosen => (fifo.enq again e blocking chosen).map Prod.snd
  | .deq again chosen => (fifo.deq again chosen).map Prod.snd
  | .rouseEnq e => fifo.rouseEnq e
  | .rouseDeq => fifo.rouseDeq

/-- What holds whenever the mutex is free: the elements are in their order, and for the elements
and the free places there are threads on their way as long as others sleep. -/
structure Sound (fifo : Fifo max T) : Prop where
  order : fifo.added = fifo.taken ++ fifo.q
  bounded : max ≠ 0 → fifo.q.length ≤ max
  unlimited : max = 0 → fifo.hasSpaceC.asleep = []
  items : fifo.nonEmptyC.Alert fifo.q.length
  space : fifo.hasSpaceC.Alert (max - fifo.q.length)

variable {fifo next : Fifo max T} {again : Bool}

/-- What `enq` does, by what it returns. -/
theorem enq_cases {e : T} {blocking : Bool} {chosen : Option Unit} {result : Option Bool}
    (ran : fifo.enq again e blocking chosen = some (result, next)) :
    ∃ hasSpaceC, fifo.hasSpaceC.enter e again = some hasSpaceC ∧
      ((max = 0 ∨ fifo.q.length < max) ∧ result = some true ∧
          (∃ nonEmptyC, fifo.nonEmptyC.signal chosen = some nonEmptyC ∧ next = { fifo with
            q := fifo.q ++ [e], added := fifo.added ++ [e], nonEmptyC, hasSpaceC }) ∨
        (max ≠ 0 ∧ max ≤ fifo.q.length) ∧
          (result = none ∧ next = { fifo with hasSpaceC := hasSpaceC.wait e } ∨
            result = some false ∧ (blocking || again) = false ∧
              next = { fifo with hasSpaceC })) := by
  obtain ⟨hasSpaceC, entered, ran⟩ := Option.bind_eq_some_iff.mp ran
  refine ⟨hasSpaceC, entered, ?_⟩
  split at ran
  next room =>
    obtain ⟨nonEmptyC, signalled, same⟩ := Option.map_eq_some_iff.mp ran
    cases same
    exact .inl ⟨room, rfl, nonEmptyC, signalled, rfl⟩
  next full =>
    refine .inr ⟨by omega, ?_⟩
    split at ran
    next => exact .inl (by cases ran; exact ⟨rfl, rfl⟩)
    next returns => exact .inr (by cases ran; exact ⟨rfl, by simpa using returns, rfl⟩)

theorem deq_cases {chosen : Option T} {result : Option T}
    (ran : fifo.deq again chosen = some (result, next)) :
    ∃ nonEmptyC, fifo.nonEmptyC.enter () again = some nonEmptyC ∧
      (fifo.q = [] ∧ result = none ∧ next = { fifo with nonEmptyC := nonEmptyC.wait () } ∨
        ∃ e q hasSpaceC, fifo.q = e :: q ∧ result = some e ∧
          next = { fifo with q, taken := fifo.taken ++ [e], nonEmptyC, hasSpaceC } ∧
          (q.length < max ∧ fifo.hasSpaceC.signal chosen = some hasSpaceC ∨
            (max = 0 ∨ max ≤ q.length) ∧ hasSpaceC = fifo.hasSpaceC)) := by
  obtain ⟨nonEmptyC, entered, ran⟩ := Option.bind_eq_some_iff.mp ran
  refine ⟨nonEmptyC, entered, ?_⟩
  split at ran
  next empty => exact .inl (by cases ran; exact ⟨empty, rfl, rfl⟩)
  next e q shape =>
    split at ran
    next limited =>
      obtain ⟨hasSpaceC, signalled, same⟩ := Option.map_eq_some_iff.mp ran
      cases same
      exact .inr ⟨e, q, hasSpaceC, shape, rfl, rfl, .inl ⟨limited.2, signalled⟩⟩
    next unlimited =>
      cases ran
      exact .inr ⟨e, q, _, shape, rfl, rfl, .inr ⟨by omega, rfl⟩⟩

theorem Sound.enq {e : T} {blocking : Bool} {chosen : Option Unit} {result : Option Bool}
    (sound : fifo.Sound) (ran : fifo.enq again e blocking chosen = some (result, next)) :
    next.Sound := by
  obtain ⟨order, bounded, unlimited, items, space⟩ := sound
  obtain ⟨hasSpaceC, entered, outcome⟩ := enq_cases ran
  obtain ⟨same, space⟩ := space.enter entered
  rw [← same] at unlimited
  rcases outcome with ⟨room, -, nonEmptyC, signalled, rfl⟩ |
    ⟨full, ⟨-, rfl⟩ | ⟨-, -, rfl⟩⟩
  · refine ⟨by simp [order], fun limited => ?_, unlimited, ?_, space.mono ?_⟩
    · simp only [List.length_append, List.length_singleton]
      omega
    · simpa using items.signal signalled
    · simp only [List.length_append, List.length_singleton]
      omega
  · refine ⟨order, bounded, fun none => absurd none full.1, items, fun _ => ?_⟩
    simp only [Nat.sub_eq_zero_of_le full.2, Nat.zero_le]
  · exact ⟨order, bounded, unlimited, items, space.mono (by simp only; omega)⟩

theorem Sound.deq {chosen : Option T} {result : Option T} (sound : fifo.Sound)
    (ran : fifo.deq again chosen = some (result, next)) : next.Sound := by
  obtain ⟨order, bounded, unlimited, items, space⟩ := sound
  obtain ⟨nonEmptyC, entered, outcome⟩ := deq_cases ran
  have items := (items.enter entered).2
  rcases outcome with ⟨empty, -, rfl⟩ | ⟨e, q, hasSpaceC, shape, -, rfl, room⟩
  · refine ⟨order, bounded, unlimited, fun _ => ?_, space⟩
    simp only [empty, List.length_nil, Nat.zero_le]
  · simp only [shape, List.length_cons, Nat.add_sub_cancel] at order bounded items space
    rw [List.append_cons] at order
    rcases room with ⟨less, signalled⟩ | ⟨none, rfl⟩
    · refine ⟨order, fun _ => Nat.le_of_lt less, fun none => ?_, items, ?_⟩
      · omega
      · exact (space.signal signalled).mono (by simp only; omega)
    · refine ⟨order, fun limited => ?_, unlimited, items, space.mono (by simp only; omega)⟩
      have := bounded limited
      simp only
      omega

theorem Sound.step {event : FifoEvent T} (sound : fifo.Sound)
    (taken : fifo.step event = some next) : next.Sound := by
  cases event with
  | enq again e blocking chosen =>
      obtain ⟨⟨result, _⟩, ran, rfl⟩ := Option.map_eq_some_iff.mp taken
      exact sound.enq ran
  | deq again chosen =>
      obtain ⟨⟨result, _⟩, ran, rfl⟩ := Option.map_eq_some_iff.mp taken
      exact sound.deq ran
  | rouseEnq e =>
      obtain ⟨hasSpaceC, woken, rfl⟩ := Option.map_eq_some_iff.mp taken
      refine ⟨sound.order, sound.bounded, fun unlimited => ?_, sound.items,
        (sound.space.wake woken).mono (Nat.le_succ _)⟩
      obtain ⟨asleep, -⟩ := Condition.wake_cases woken
      rw [sound.unlimited unlimited] at asleep
      cases asleep
  | rouseDeq =>
      obtain ⟨nonEmptyC, woken, rfl⟩ := Option.map_eq_some_iff.mp taken
      exact { sound with items := (sound.items.wake woken).mono (Nat.le_succ _) }

omit [DecidableEq T] in
theorem sound_empty : ({} : Fifo max T).Sound :=
  ⟨rfl, fun _ => Nat.zero_le _, fun _ => rfl, fun sleeps => absurd rfl sleeps,
    fun sleeps => absurd rfl sleeps⟩

omit [DecidableEq T] in
theorem Sound.empty_of_asleep (sound : fifo.Sound) (sleeps : fifo.nonEmptyC.asleep ≠ [])
    (nobody : fifo.nonEmptyC.woken = []) : fifo.q = [] :=
  List.eq_nil_of_length_eq_zero (sound.items.eq_zero sleeps nobody)

omit [DecidableEq T] in
theorem Sound.full_of_asleep (sound : fifo.Sound) (sleeps : fifo.hasSpaceC.asleep ≠ [])
    (nobody : fifo.hasSpaceC.woken = []) : max ≠ 0 ∧ fifo.q.length = max := by
  have limited : max ≠ 0 := fun unlimited => sleeps (sound.unlimited unlimited)
  have space := sound.space.eq_zero sleeps nobody
  have bounded := sound.bounded limited
  exact ⟨limited, by omega⟩

/-- A thread that calls, or that was woken, can go on. -/
theorem exists_enq {e : T} {hasSpaceC : Condition T}
    (entered : fifo.hasSpaceC.enter e again = some hasSpaceC) (blocking : Bool) :
    ∃ chosen ran, fifo.enq again e blocking chosen = some ran := by
  obtain ⟨chosen, nonEmptyC, signalled⟩ := fifo.nonEmptyC.exists_signal
  refine ⟨chosen, Option.isSome_iff_exists.mp ?_⟩
  rw [Fifo.enq, entered, Option.bind_some]
  split
  · simp [signalled]
  · split <;> rfl

theorem exists_deq {nonEmptyC : Condition Unit}
    (entered : fifo.nonEmptyC.enter () again = some nonEmptyC) :
    ∃ chosen ran, fifo.deq again chosen = some ran := by
  obtain ⟨chosen, hasSpaceC, signalled⟩ := fifo.hasSpaceC.exists_signal
  refine ⟨chosen, Option.isSome_iff_exists.mp ?_⟩
  rw [Fifo.deq, entered, Option.bind_some]
  split
  · rfl
  · split <;> simp [signalled]

end Fifo

/-- Whatever threads use a queue and however they are scheduled, the elements go out once and in
the order in which they came in, the capacity is kept, and no wake-up is lost: where no woken
thread has yet to go on, a thread sleeps in `deq` only on an empty queue and in `enq` only on a
full one. -/
theorem fifo_keeps_order {max : Nat} {T : Type} [DecidableEq T] {events : List (FifoEvent T)}
    {fifo : Fifo max T} (run : Run (StepOf Fifo.step) {} events fifo) :
    fifo.added = fifo.taken ++ fifo.q ∧ (max ≠ 0 → fifo.q.length ≤ max) ∧
      (fifo.nonEmptyC.woken = [] → fifo.nonEmptyC.asleep ≠ [] → fifo.q = []) ∧
      (fifo.hasSpaceC.woken = [] → fifo.hasSpaceC.asleep ≠ [] →
        max ≠ 0 ∧ fifo.q.length = max) := by
  have sound := run.invariant Fifo.Sound Fifo.sound_empty fun _ _ _ sound taken =>
    sound.step taken
  exact ⟨sound.order, sound.bounded, fun nobody sleeps => sound.empty_of_asleep sleeps nobody,
    fun nobody sleeps => sound.full_of_asleep sleeps nobody⟩

/-- Two producers and two consumers at a queue for one element. -/
theorem fifo_keeps_order_contended :
    ∃ fifo : Fifo 1 Nat, Run (StepOf Fifo.step) {}
        [.deq false none, .enq false 5 true (some ()), .enq false 6 true none,
          .deq false (some 6), .deq true none] fifo ∧
      fifo.added = [5] ∧ fifo.taken = [5] ∧ fifo.nonEmptyC.asleep = [()] ∧ fifo.q = [] := by
  have run : Run (StepOf Fifo.step) ({} : Fifo 1 Nat)
      [.deq false none, .enq false 5 true (some ()), .enq false 6 true none,
        .deq false (some 6), .deq true none] _ :=
    run_of_exec rfl
  obtain ⟨-, -, idle, -⟩ := fifo_keeps_order run
  exact ⟨_, run, rfl, rfl, rfl, idle rfl (by decide)⟩

end Ctgfs.Rpc
