import Ctgfs.Lock.LocalExclusion
import Ctgfs.Lock.System

/-!
# Exclusion among the clients of a lock server

A client is entitled to a lock while it caches the lock or while an answer that
grants the lock is on its way.  As long as the messages of one client about one
lock do not overtake each other in the three ways that `Orderly` excludes, only
the holder that the server has recorded is entitled, and it is not giving up the
lock at the same time.
-/

namespace Ctgfs.Lock

open Foundation

def Cell.Owned (cell : Cell) : Prop := cell.state = .free ∨ cell.state = .locked

variable {other : LockId}

namespace Turn

variable {lid : LockId} {trigger : Trigger} {pc after : Pc} {cell written : Cell}

theorem owned (turn : Turn lid trigger pc cell after written) (owned : written.Owned) :
    cell.Owned ∨ (∃ r, r ≠ .retry ∧ trigger = .answer r ∧ pc.request = some (.acquire lid)) ∨
      (trigger = .answer .retry ∧ pc = .retryCall lid ∧ cell.state = .acquiring) := by
  cases turn <;> simp_all [Cell.Owned, Pc.request]
  case retryFreed r revoked => cases r <;> simp

theorem releases (turn : Turn lid trigger pc cell after written)
    (sends : after.request = some (.release other)) :
    other = lid ∧ cell.Owned ∧ ¬ written.Owned ∧
      (trigger = .unlock ∧ pc = .holding lid ∧ cell.isRevoked = true ∨
        trigger = .revoke ∧ cell.state = .free) := by
  cases turn <;> simp_all [Cell.Owned, Pc.request]

end Turn

namespace World

variable (world : World)

def Releasing (c : ClientId) (lid : LockId) : Prop :=
  ∃ t, (world.wire (c, t)).asks = some (.release lid)

def Granting (c : ClientId) (lid : LockId) : Prop :=
  ∃ t r, r ≠ .retry ∧ (world.wire (c, t)).answered = some (.acquire lid, r)

def Holds (c : ClientId) (lid : LockId) : Prop :=
  (world.server lid).holded = true ∧ (world.server lid).holder = some c ∧ ¬ world.Releasing c lid

def Entitled (c : ClientId) (lid : LockId) : Prop :=
  (world.cell c lid).Owned ∨ world.Granting c lid

/-- The messages of one client about one lock do not overtake each other:

* an `acquire` is not handled while a release request of its client is on its way;
* a release request is not sent while an answer that grants the lock is on its way;
* `retry_handler` does not take `RETRY` for a grant, unless the client is the
  holder anyway. -/
def Orderly : Event → Prop
  | .act c (.release t _) => ∀ lid, world.thread (c, t) = .holding lid →
      (world.cell c lid).isRevoked = true → ¬ world.Granting c lid
  | .serve caller => ∀ lid, world.wire caller = .request (.acquire lid) →
      ¬ world.Releasing caller.1 lid
  | .handle caller _ => ∀ request r target, world.wire caller = .callback request r .revoke target →
      (world.cell target request.lid).state = .free → ¬ world.Granting target request.lid
  | .deliver caller _ => ∀ lid request, world.wire caller = .reply request .retry →
      world.thread caller = .retryCall lid → (world.cell caller.1 lid).state = .acquiring →
      world.Holds caller.1 lid
  | .act _ _ | .acknowledge _ => True

structure Exclusive (world : World) : Prop where
  entitled : ∀ c lid, world.Entitled c lid → world.Holds c lid
  giving : ∀ c lid t, (world.wire (c, t)).asks = some (.release lid) →
    (world.server lid).holded = true ∧ (world.server lid).holder = some c ∧
      ∀ u, (world.wire (c, u)).asks = some (.release lid) → u = t

variable {world next : World} {event : Event}

theorem Exclusive.initial : World.initial.Exclusive := by
  constructor
  · rintro c lid (owned | ⟨t, r, _, answered⟩)
    · rcases owned with free | locked
      · cases free
      · cases locked
    · cases answered
  · intro c lid t asks
    cases asks

theorem Exclusive.transfer (exclusive : world.Exclusive) (server : next.server = world.server)
    (cells : ∀ c lid, next.cell c lid = world.cell c lid)
    (traffic : ∀ caller, (next.wire caller).asks = (world.wire caller).asks ∧
      (next.wire caller).answered = (world.wire caller).answered) : next.Exclusive := by
  have releasing : ∀ c lid, next.Releasing c lid ↔ world.Releasing c lid := by
    simp [Releasing, traffic]
  have granting : ∀ c lid, next.Granting c lid ↔ world.Granting c lid := by
    simp [Granting, traffic]
  constructor
  · intro c lid entitled
    rw [Holds, server, releasing]
    apply exclusive.entitled
    rwa [Entitled, cells, granting] at entitled
  · intro c lid t asks
    simp only [server, traffic] at asks ⊢
    exact exclusive.giving c lid t asks

variable {c : ClientId}

section Moved

variable {caller : Caller} {lid : LockId} {trigger : Trigger}

section

variable (moved : world.Moved event caller lid trigger next)

include moved

theorem Moved.releasing_elsewhere (linked : world.Linked) (different : c ≠ caller.1 ∨ other ≠ lid) :
    next.Releasing c other ↔ world.Releasing c other :=
  exists_congr fun _ => moved.asks_elsewhere linked different

theorem Moved.granting_elsewhere (linked : world.Linked) (different : c ≠ caller.1 ∨ other ≠ lid) :
    next.Granting c other ↔ world.Granting c other :=
  exists_congr fun _ => exists_congr fun _ => and_congr_right fun _ =>
    moved.answered_elsewhere linked different

theorem Moved.granting_before (granting : next.Granting caller.1 lid) :
    world.Granting caller.1 lid := by
  obtain ⟨t, r, grants, answered⟩ := granting
  by_cases mine : (caller.1, t) = caller
  · rw [mine, moved.own_answered] at answered
    cases answered
  · rw [(moved.traffic_of_ne mine).2] at answered
    exact ⟨t, r, grants, answered⟩

theorem Moved.entitled_before (linked : world.Linked) (orderly : world.Orderly event)
    (entitled : next.Entitled caller.1 lid) :
    world.Entitled caller.1 lid ∨ world.Holds caller.1 lid := by
  rcases entitled with owned | granting
  · rcases moved.turn.owned owned with
      before | ⟨r, grants, rfl, inside⟩ | ⟨rfl, position, acquiring⟩
    · exact .inl (.inl before)
    · obtain ⟨_, _, answered⟩ := moved.answer linked inside
      refine .inl (.inr ⟨caller.2, r, grants, ?_⟩)
      show (world.wire caller).answered = _
      rw [answered]
      rfl
    · obtain ⟨_, rfl, answered⟩ := moved.answer linked (by rw [position]; rfl)
      exact .inr (orderly lid _ answered position acquiring)
  · exact .inl (.inr (moved.granting_before granting))

theorem Moved.releases (orderly : world.Orderly event)
    (sends : (next.thread caller).request = some (.release lid)) :
    world.Entitled caller.1 lid ∧ ¬ next.Entitled caller.1 lid := by
  obtain ⟨_, owned, given, how⟩ := moved.turn.releases sends
  refine ⟨.inl owned, ?_⟩
  have clear : ¬ world.Granting caller.1 lid := by
    rcases how with ⟨rfl, position, revoked⟩ | ⟨rfl, free⟩
    · obtain ⟨woken, rfl⟩ := moved.source
      exact orderly lid position revoked
    · obtain ⟨parent, request, r, rfl, rfl, called⟩ := moved.source
      exact orderly request r caller.1 called free
  rintro (still | granting)
  · exact given still
  · exact clear (moved.granting_before granting)

theorem Moved.asks_before {t : ThreadId}
    (silent : (next.thread caller).request ≠ some (.release lid))
    (asks : (next.wire (caller.1, t)).asks = some (.release lid)) :
    (world.wire (caller.1, t)).asks = some (.release lid) := by
  by_cases mine : (caller.1, t) = caller
  · rw [mine, moved.own_asks] at asks
    exact absurd asks silent
  · rwa [(moved.traffic_of_ne mine).1] at asks

end

theorem Exclusive.moved (exclusive : world.Exclusive) (linked : world.Linked)
    (orderly : world.Orderly event) (moved : world.Moved event caller lid trigger next) :
    next.Exclusive := by
  constructor
  · intro c other entitled
    rw [Holds, moved.server]
    by_cases here : c = caller.1 ∧ other = lid
    · obtain ⟨rfl, rfl⟩ := here
      have silent : (next.thread caller).request ≠ some (.release other) := fun sends =>
        (moved.releases orderly sends).2 entitled
      obtain ⟨held, owner, kept⟩ : world.Holds caller.1 other := by
        rcases moved.entitled_before linked orderly entitled with before | holds
        · exact exclusive.entitled _ _ before
        · exact holds
      exact ⟨held, owner, fun ⟨t, asks⟩ => kept ⟨t, moved.asks_before silent asks⟩⟩
    · have different := not_and_or.mp here
      rw [moved.releasing_elsewhere linked different]
      apply exclusive.entitled
      rwa [Entitled, moved.cell_of_ne different,
        moved.granting_elsewhere linked different] at entitled
  · intro c other t asks
    rw [moved.server]
    by_cases here : c = caller.1 ∧ other = lid
    · obtain ⟨rfl, rfl⟩ := here
      by_cases sends : (next.thread caller).request = some (.release other)
      · -- the only release request is the one that this section has sent
        obtain ⟨held, owner, kept⟩ := exclusive.entitled _ _ (moved.releases orderly sends).1
        have mine : ∀ u, (next.wire (caller.1, u)).asks = some (.release other) → u = caller.2 := by
          intro u asks
          by_contra different
          rw [(moved.traffic_of_ne fun same => different (congrArg Prod.snd same)).1] at asks
          exact kept ⟨u, asks⟩
        exact ⟨held, owner, fun u asked => (mine u asked).trans (mine t asks).symm⟩
      · obtain ⟨held, owner, single⟩ := exclusive.giving _ _ t (moved.asks_before sends asks)
        exact ⟨held, owner, fun u asked => single u (moved.asks_before sends asked)⟩
    · have same : ∀ u, (next.wire (c, u)).asks = some (.release other) ↔
          (world.wire (c, u)).asks = some (.release other) := fun u =>
        moved.asks_elsewhere linked (not_and_or.mp here)
      simp only [same] at asks ⊢
      exact exclusive.giving c other t asks

end Moved

section Served

variable {caller : Caller} {lid : LockId}

theorem serve_asks_iff {request asked : Request} {other : Caller} :
    ((world.serve caller request).wire other).asks = some asked ↔
      other ≠ caller ∧ (world.wire other).asks = some asked := by
  by_cases here : other = caller
  · subst here
    simp [serve_asks_self]
  · simp [serve_wire_of_ne here, here]

theorem serve_granting {request : Request}
    (granting : (world.serve caller request).Granting c other) :
    world.Granting c other ∨ (c = caller.1 ∧ request = .acquire other ∧
      (request.serve (world.server request.lid) caller.1).r ≠ .retry) := by
  obtain ⟨t, r, grants, answered⟩ := granting
  by_cases here : (c, t) = caller
  · subst here
    rw [serve_answered_self] at answered
    cases answered
    exact .inr ⟨rfl, rfl, grants⟩
  · rw [serve_wire_of_ne here] at answered
    exact .inl ⟨t, r, grants, answered⟩

theorem Exclusive.acquired (exclusive : world.Exclusive) (linked : world.Linked)
    (asked : world.wire caller = .request (.acquire lid))
    (clear : ¬ world.Releasing caller.1 lid) :
    (world.serve caller (.acquire lid)).Exclusive := by
  have spec := (linked.valid lid).acquire caller.1
  have server : (world.serve caller (.acquire lid)).server lid =
      ((world.server lid).acquire caller.1).state := serve_server_self _
  have asks : ∀ other l, ((world.serve caller (.acquire lid)).wire other).asks = some (.release l) ↔
      (world.wire other).asks = some (.release l) := by
    intro other l
    rw [serve_asks_iff, and_iff_right_iff_imp]
    rintro asks rfl
    rw [asked] at asks
    cases asks
  have releasing : ∀ c l, (world.serve caller (.acquire lid)).Releasing c l ↔
      world.Releasing c l := fun c l => exists_congr fun t => asks (c, t) l
  constructor
  · intro c other entitled
    rw [Holds, releasing]
    by_cases here : other = lid
    · subst here
      rw [server]
      have before : world.Entitled c other ∨
          c = caller.1 ∧ ((world.server other).acquire caller.1).r ≠ .retry := by
        rcases entitled with owned | granting
        · exact .inl (.inl owned)
        · exact (serve_granting granting).imp .inr fun new => ⟨new.1, new.2.2⟩
      rcases before with before | ⟨rfl, grants⟩
      · obtain ⟨held, owner, kept⟩ := exclusive.entitled c other before
        exact ⟨(spec.keeps held owner).1, (spec.keeps held owner).2, kept⟩
      · exact ⟨(spec.grants grants).1, (spec.grants grants).2, clear⟩
    · rw [serve_server_of_ne here]
      apply exclusive.entitled
      rcases entitled with owned | granting
      · exact .inl owned
      · rcases serve_granting granting with before | ⟨_, same, _⟩
        · exact .inr before
        · cases same
          exact absurd rfl here
  · intro c other t releases
    simp only [asks] at releases ⊢
    obtain ⟨held, owner, single⟩ := exclusive.giving c other t releases
    by_cases here : other = lid
    · subst here
      rw [server]
      exact ⟨(spec.keeps held owner).1, (spec.keeps held owner).2, single⟩
    · rw [serve_server_of_ne here]
      exact ⟨held, owner, single⟩

theorem Exclusive.released (exclusive : world.Exclusive)
    (asked : world.wire caller = .request (.release lid)) :
    (world.serve caller (.release lid)).Exclusive := by
  have asks : (world.wire caller).asks = some (.release lid) := by
    rw [asked]
    rfl
  obtain ⟨held, owner, single⟩ := exclusive.giving caller.1 lid caller.2 asks
  have before : ∀ c other, (world.serve caller (.release lid)).Entitled c other →
      world.Entitled c other := by
    rintro c other (owned | granting)
    · exact .inl owned
    · rcases serve_granting granting with before | ⟨_, impossible, _⟩
      · exact .inr before
      · cases impossible
  constructor
  · intro c other entitled
    obtain ⟨holds, own, kept⟩ := exclusive.entitled c other (before c other entitled)
    have different : other ≠ lid := by
      rintro rfl
      obtain rfl : caller.1 = c := Option.some.inj (owner.symm.trans own)
      exact kept ⟨caller.2, asks⟩
    rw [Holds, serve_server_of_ne (show other ≠ (Request.release lid).lid from different)]
    refine ⟨holds, own, fun ⟨t, releases⟩ => kept ⟨t, (serve_asks_iff.mp releases).2⟩⟩
  · intro c other t releases
    obtain ⟨elsewhere, asked⟩ := serve_asks_iff.mp releases
    obtain ⟨holds, own, alone⟩ := exclusive.giving c other t asked
    have different : other ≠ lid := by
      rintro rfl
      obtain rfl : caller.1 = c := Option.some.inj (owner.symm.trans own)
      exact elsewhere (Prod.ext rfl (single t asked))
    rw [serve_server_of_ne (show other ≠ (Request.release lid).lid from different)]
    exact ⟨holds, own, fun u asks => alone u (serve_asks_iff.mp asks).2⟩

end Served

theorem Exclusive.step (exclusive : world.Exclusive) (linked : world.Linked)
    (orderly : world.Orderly event) (taken : world.step event = some next) : next.Exclusive := by
  cases (linked.step taken).2 with
  | moved caller lid trigger moved => exact exclusive.moved linked orderly moved
  | aside server wire cells _ =>
      exact exclusive.transfer server cells fun caller => by simp [wire]
  | served caller request shape asked result =>
      subst shape result
      cases request with
      | acquire lid => exact exclusive.acquired linked asked (orderly lid asked)
      | release lid => exact exclusive.released asked
  | acknowledged caller request r target handler handled result =>
      subst result
      refine exclusive.transfer rfl (fun _ _ => rfl) fun other => ?_
      by_cases here : other = caller
      · subst here
        simp [setWire, handled, Wire.asks, Wire.answered]
      · simp [setWire, here]

end World

theorem client_exclusive {events : List Event} {world : World}
    (run : Run (StepOf World.step) World.initial events world) (c : ClientId) :
    (world.client c).Exclusive := by
  refine run.invariant (fun world => ∀ c, (world.client c).Exclusive)
    (fun _ => LockClient.Exclusive.initial) ?_ c
  intro world event next exclusive taken d
  rcases World.step_client taken d with same | ⟨action, step⟩
  · rw [same]
    exact exclusive d
  · exact (exclusive d).step step

theorem world_exclusive {events : List Event} {world : World}
    (run : Run (Guarded (StepOf World.step) World.Orderly) World.initial events world) :
    world.Linked ∧ world.Exclusive := by
  apply run.invariant (fun world => world.Linked ∧ world.Exclusive)
  · exact ⟨World.Linked.initial, World.Exclusive.initial⟩
  · rintro world event next ⟨linked, exclusive⟩ ⟨orderly, taken⟩
    exact ⟨(linked.step taken).1, exclusive.step linked orderly taken⟩

/-- A lock is `LOCKED` at one client at most and held by one thread at most, and
the client is the holder that the server has recorded. -/
def World.MutuallyExclusive (world : World) : Prop :=
  ∀ lid,
    (∀ c d, (world.cell c lid).state = .locked → (world.cell d lid).state = .locked → c = d) ∧
    (∀ first second, world.thread first = .holding lid → world.thread second = .holding lid →
      first = second) ∧
    ∀ c, (world.cell c lid).state = .locked → (world.server lid).holder = some c

/-- Mutual exclusion holds in every run whose messages stay in order. -/
theorem mutual_exclusion {events : List Event} {world : World}
    (run : Run (Guarded (StepOf World.step) World.Orderly) World.initial events world) :
    world.MutuallyExclusive := by
  intro lid
  have holder : ∀ c, (world.cell c lid).state = .locked → (world.server lid).holder = some c :=
    fun c locked => ((world_exclusive run).2.entitled c lid (.inl (.inr locked))).2.1
  have single : ∀ c d, (world.cell c lid).state = .locked → (world.cell d lid).state = .locked →
      c = d := fun c d cLocked dLocked =>
    Option.some.inj ((holder c cLocked).symm.trans (holder d dLocked))
  refine ⟨single, fun first second firstHolds secondHolds => ?_, holder⟩
  have exclusive := client_exclusive (run.mono fun _ _ _ taken => taken.2)
  have same : first.1 = second.1 := single _ _
    (((exclusive first.1).held lid).mpr ⟨first.2, firstHolds⟩)
    (((exclusive second.1).held lid).mpr ⟨second.2, secondHolds⟩)
  apply Prod.ext same
  rw [World.thread, ← same] at secondHolds
  exact (exclusive first.1).unique lid first.2 second.2 firstHolds secondHolds

/-- One client holds the lock and another is refused and has it revoked. -/
theorem mutual_exclusion_revoked :
    ∃ world, Run (Guarded (StepOf World.step) World.Orderly) World.initial
        [.act 0 (.acquire 0 7), .serve (0, 0), .deliver (0, 0) none, .act 1 (.acquire 0 7),
          .serve (1, 0), .handle (1, 0) 1] world ∧
      world.thread (0, 0) = .holding 7 ∧ (world.cell 0 7).isRevoked = true ∧
      world.MutuallyExclusive := by
  have orderly : Meets World.step World.Orderly World.initial
      [.act 0 (.acquire 0 7), .serve (0, 0), .deliver (0, 0) none, .act 1 (.acquire 0 7),
        .serve (1, 0), .handle (1, 0) 1] := by
    refine ⟨trivial, ?_⟩
    rintro _ ⟨⟩
    refine ⟨?_, ?_⟩
    · rintro lid _ ⟨t, asks⟩
      cases t <;> cases asks
    rintro _ ⟨⟩
    refine ⟨?_, ?_⟩
    · intro lid request answered
      cases answered
    rintro _ ⟨⟩
    refine ⟨trivial, ?_⟩
    rintro _ ⟨⟩
    refine ⟨?_, ?_⟩
    · rintro lid _ ⟨t, asks⟩
      cases t <;> cases asks
    rintro _ ⟨⟩
    refine ⟨?_, fun _ _ => trivial⟩
    intro request r target called free
    cases called
    cases free
  have run := guarded_of_exec rfl orderly
  exact ⟨_, run, rfl, rfl, mutual_exclusion run⟩

/-- A thread asks for a lock while the release of another thread of its client is
on its way.  The server answers it first and then gives the lock to the client
that is queued, and both clients have it. -/
theorem mutual_exclusion_overtaken :
    ¬ ∀ events world, Run (StepOf World.step) World.initial events world →
      world.MutuallyExclusive := by
  intro exclusive
  have run := run_of_exec (rfl : exec World.step World.initial
    [.act 0 (.acquire 0 7), .serve (0, 0), .deliver (0, 0) none,
      .act 1 (.acquire 0 7), .serve (1, 0), .handle (1, 0) 1,
      .act 0 (.release 0 none), .act 0 (.acquire 2 7), .serve (0, 2), .deliver (0, 2) none,
      .acknowledge (1, 0), .deliver (1, 0) none,
      .serve (0, 0), .handle (0, 0) 1, .serve (1, 1), .deliver (1, 1) (some 0),
      .act 1 (.wake 0)] = some _)
  have same : (0 : ClientId) = 1 := (exclusive _ _ run 7).1 0 1 rfl rfl
  cases same

end Ctgfs.Lock
