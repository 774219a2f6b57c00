import Ctgfs.Foundation.InverseMaps
import Ctgfs.Foundation.Runs
import Ctgfs.Foundation.Signed
import Ctgfs.Placement.Master
import Mathlib.Data.List.Nodup

/-!
# The registered KVs

The master keeps the address of every register id and the id of every address, a counter for
new ids and a queue of ids to use again.  `Regist` does not look whether the address has an
id already.  When it has one, the old id keeps the address while the address gets the new id,
and a later `doUnregister` of either one erases the wrong entry.  While no address is
registered twice, the two maps are inverse to each other.
-/

namespace Ctgfs.Placement

open Foundation

/-- The part of `Master` that holds the registrations. -/
structure Registry where
  registerIdToAddr : Int → Option Bytes
  addrToRegisterId : Bytes → Option Int
  curRegisterKvId : Int
  reusedQueue : List Int

namespace Registry

def initial : Registry where
  registerIdToAddr := fun _ => none
  addrToRegisterId := fun _ => none
  curRegisterKvId := 0
  reusedQueue := []

variable (registry : Registry)

/-- `getNewRegisterID`; `none` when the counter overflows. -/
def getNewRegisterID : Option (Int × Registry) :=
  match registry.reusedQueue with
  | id :: rest => some (id, { registry with reusedQueue := rest })
  | [] =>
      (checkedInt (registry.curRegisterKvId + 1)).map fun next =>
        (registry.curRegisterKvId, { registry with curRegisterKvId := next })

def doRegister (addr : Bytes) (registerId : Int) : Registry :=
  { registry with
    registerIdToAddr := Function.update registry.registerIdToAddr registerId (some addr)
    addrToRegisterId := Function.update registry.addrToRegisterId addr (some registerId) }

/-- `Regist`, without the tree: the new id and the registrations after it. -/
def regist (addr : Bytes) : Option (Int × Registry) :=
  registry.getNewRegisterID.map fun new => (new.1, new.2.doRegister addr new.1)

def erase (registerId : Int) (addr : Bytes) : Registry :=
  { registry with
    reusedQueue := registry.reusedQueue ++ [registerId]
    registerIdToAddr := Function.update registry.registerIdToAddr registerId none
    addrToRegisterId := Function.update registry.addrToRegisterId addr none }

/-- `doUnregister`; `none` when it erases the end of a map. -/
def doUnregister (registerId : Int) : Option Registry :=
  match registry.registerIdToAddr registerId with
  | none => some registry
  | some addr =>
      match registry.addrToRegisterId addr with
      | none => none
      | some _ => some (registry.erase registerId addr)

inductive Call where
  | regist (addr : Bytes)
  | unregister (registerId : Int)
  deriving DecidableEq, Repr

def step : Call → Option Registry
  | .regist addr => (registry.regist addr).map Prod.snd
  | .unregister registerId => registry.doUnregister registerId

structure Sound (registry : Registry) : Prop where
  inverse : InverseMaps registry.registerIdToAddr registry.addrToRegisterId
  /-- No id is live and in the queue. -/
  reused : ∀ id ∈ registry.reusedQueue, registry.registerIdToAddr id = none
  /-- A new id is not live. -/
  fresh : ∀ id next, registry.getNewRegisterID = some (id, next) →
    registry.registerIdToAddr id = none
  /-- The entry that `doUnregister` erases exists and is the one of its id. -/
  own : ∀ id addr, registry.registerIdToAddr id = some addr →
    registry.addrToRegisterId addr = some id

def Keeps : Call → Prop
  | .regist addr =>
      registry.addrToRegisterId addr = none ∧
        (registry.reusedQueue = [] → registry.curRegisterKvId < 2147483647)
  | .unregister _ => True

/-! ## The invariant -/

structure Numbered (registry : Registry) : Prop where
  inverse : InverseMaps registry.registerIdToAddr registry.addrToRegisterId
  nodup : registry.reusedQueue.Nodup
  reused : ∀ id ∈ registry.reusedQueue, registry.registerIdToAddr id = none
  nonneg : 0 ≤ registry.curRegisterKvId
  queued : ∀ id ∈ registry.reusedQueue, id < registry.curRegisterKvId
  live : ∀ id addr, registry.registerIdToAddr id = some addr → id < registry.curRegisterKvId

theorem numbered_initial : initial.Numbered where
  inverse := InverseMaps.empty
  nodup := List.nodup_nil
  reused := by
    intro id member
    cases member
  nonneg := Int.le_refl 0
  queued := by
    intro id member
    cases member
  live := by
    intro id addr entry
    cases entry

variable {registry next : Registry} {id : Int} {addr : Bytes}

theorem getNewRegisterID_cases (taken : registry.getNewRegisterID = some (id, next)) :
    (∃ rest, registry.reusedQueue = id :: rest ∧ next = { registry with reusedQueue := rest }) ∨
      registry.reusedQueue = [] ∧ id = registry.curRegisterKvId ∧
        next = { registry with curRegisterKvId := registry.curRegisterKvId + 1 } := by
  rw [getNewRegisterID] at taken
  split at taken
  next front rest queue =>
    cases taken
    exact Or.inl ⟨rest, queue, rfl⟩
  next queue =>
    obtain ⟨counter, sum, same⟩ := Option.map_eq_some_iff.mp taken
    obtain ⟨rfl, -, -⟩ := checked_eq_some_iff.mp sum
    cases same
    exact Or.inr ⟨queue, rfl, rfl⟩

section

variable (numbered : registry.Numbered)

include numbered

theorem Numbered.fresh (taken : registry.getNewRegisterID = some (id, next)) :
    registry.registerIdToAddr id = none := by
  rcases getNewRegisterID_cases taken with ⟨rest, queue, -⟩ | ⟨-, rfl, -⟩
  · apply numbered.reused
    rw [queue]
    exact List.mem_cons_self
  · rw [Option.eq_none_iff_forall_ne_some]
    intro addr entry
    exact Int.lt_irrefl _ (numbered.live _ addr entry)

theorem Numbered.sound : registry.Sound where
  inverse := numbered.inverse
  reused := numbered.reused
  fresh := fun _ _ => numbered.fresh
  own := fun id addr => (numbered.inverse id addr).mp

theorem Numbered.regist (taken : registry.getNewRegisterID = some (id, next))
    (free : registry.addrToRegisterId addr = none) : (next.doRegister addr id).Numbered := by
  have fresh := numbered.fresh taken
  have inverse := numbered.inverse.assign fresh free
  have nonneg := numbered.nonneg
  rcases getNewRegisterID_cases taken with ⟨rest, queue, rfl⟩ | ⟨queue, rfl, rfl⟩
  · have nodup := numbered.nodup
    have queued := numbered.queued
    have reused := numbered.reused
    rw [queue] at nodup queued reused
    obtain ⟨apart, nodup⟩ := List.nodup_cons.mp nodup
    refine ⟨inverse, nodup, ?_, nonneg, ?_, ?_⟩
    · intro other member
      have different : other ≠ id := fun same => apart (same ▸ member)
      exact (Function.update_of_ne different _ _).trans
        (reused other (List.mem_cons_of_mem _ member))
    · intro other member
      exact queued other (List.mem_cons_of_mem _ member)
    · intro other text entry
      by_cases same : other = id
      · rw [same]
        exact queued id List.mem_cons_self
      · exact numbered.live other text ((Function.update_of_ne same _ _).symm.trans entry)
  · refine ⟨inverse, numbered.nodup, ?_, ?_, ?_, ?_⟩
    · intro other member
      change other ∈ registry.reusedQueue at member
      rw [queue] at member
      cases member
    · exact Int.le_add_one nonneg
    · intro other member
      exact Int.lt_add_one_of_le (Int.le_of_lt (numbered.queued other member))
    · intro other text entry
      change other < registry.curRegisterKvId + 1
      by_cases same : other = registry.curRegisterKvId
      · omega
      · have below := numbered.live other text ((Function.update_of_ne same _ _).symm.trans entry)
        omega

theorem Numbered.erase (entry : registry.registerIdToAddr id = some addr) :
    (registry.erase id addr).Numbered := by
  have outside : id ∉ registry.reusedQueue := by
    intro member
    rw [numbered.reused id member] at entry
    cases entry
  refine ⟨numbered.inverse.erase entry, ?_, ?_, numbered.nonneg, ?_, ?_⟩
  · have concat := List.Nodup.concat outside numbered.nodup
    rwa [List.concat_eq_append] at concat
  · intro other member
    rcases List.mem_append.mp member with before | last
    · have different : other ≠ id := fun same => outside (same ▸ before)
      exact (Function.update_of_ne different _ _).trans (numbered.reused other before)
    · rw [List.mem_singleton.mp last]
      exact Function.update_self _ _ _
  · intro other member
    rcases List.mem_append.mp member with before | last
    · exact numbered.queued other before
    · rw [List.mem_singleton.mp last]
      exact numbered.live id addr entry
  · intro other text found
    by_cases same : other = id
    · rw [same]
      exact numbered.live id addr entry
    · exact numbered.live other text ((Function.update_of_ne same _ _).symm.trans found)

theorem Numbered.unregister (registerId : Int) :
    ∃ next, registry.doUnregister registerId = some next ∧ next.Numbered := by
  rw [doUnregister]
  cases entry : registry.registerIdToAddr registerId with
  | none => exact ⟨registry, rfl, numbered⟩
  | some addr =>
      have own := (numbered.inverse registerId addr).mp entry
      simp only [own]
      exact ⟨_, rfl, numbered.erase entry⟩

theorem Numbered.step {call : Call} (keeps : registry.Keeps call)
    (taken : registry.step call = some next) : next.Numbered := by
  cases call with
  | regist addr =>
      obtain ⟨⟨id, after⟩, result, rfl⟩ := Option.map_eq_some_iff.mp taken
      obtain ⟨⟨id, before⟩, new, same⟩ := Option.map_eq_some_iff.mp result
      cases same
      exact numbered.regist new keeps.1
  | unregister registerId =>
      obtain ⟨after, result, kept⟩ := numbered.unregister registerId
      cases Option.some.inj (result.symm.trans taken)
      exact kept

end

theorem numbered_run {calls : List Call}
    (run : Run (Guarded (StepOf step) Keeps) initial calls registry) : registry.Numbered :=
  run.invariant Numbered numbered_initial fun _ _ _ numbered taken =>
    numbered.step taken.1 taken.2

theorem getNewRegisterID_isSome_iff (nonneg : 0 ≤ registry.curRegisterKvId) :
    (∃ id next, registry.getNewRegisterID = some (id, next)) ↔
      (registry.reusedQueue = [] → registry.curRegisterKvId < 2147483647) := by
  rw [getNewRegisterID]
  cases queue : registry.reusedQueue with
  | cons id rest => exact ⟨fun _ empty => (List.cons_ne_nil _ _ empty).elim, fun _ => ⟨_, _, rfl⟩⟩
  | nil =>
      constructor
      · rintro ⟨id, next, taken⟩ -
        obtain ⟨counter, sum, -⟩ := Option.map_eq_some_iff.mp taken
        obtain ⟨-, -, small⟩ := checked_eq_some_iff.mp sum
        omega
      · intro small
        have sum : checkedInt (registry.curRegisterKvId + 1) =
            some (registry.curRegisterKvId + 1) :=
          checked_of_bounds (by omega) (by have := small rfl; omega)
        rw [sum]
        exact ⟨_, _, rfl⟩

/-- A registration is defined and keeps the registrations sound exactly when its address is
free and there is an id for it. -/
theorem Numbered.keeps_iff (numbered : registry.Numbered) (addr : Bytes) :
    (∃ next, registry.step (.regist addr) = some next ∧ next.Sound) ↔
      registry.Keeps (.regist addr) := by
  constructor
  · rintro ⟨next, taken, sound⟩
    obtain ⟨⟨id, after⟩, result, rfl⟩ := Option.map_eq_some_iff.mp taken
    obtain ⟨⟨id, before⟩, new, same⟩ := Option.map_eq_some_iff.mp result
    cases same
    refine ⟨?_, (getNewRegisterID_isSome_iff numbered.nonneg).mp ⟨id, before, new⟩⟩
    rw [Option.eq_none_iff_forall_ne_some]
    intro other held
    have maps : before.registerIdToAddr = registry.registerIdToAddr ∧
        before.addrToRegisterId = registry.addrToRegisterId := by
      rcases getNewRegisterID_cases new with ⟨rest, -, rfl⟩ | ⟨-, -, rfl⟩
      · exact ⟨rfl, rfl⟩
      · exact ⟨rfl, rfl⟩
    have inverse := sound.inverse
    simp only [doRegister, maps.1, maps.2] at inverse
    exact numbered.inverse.not_assign_of_taken (numbered.fresh new) held inverse
  · rintro ⟨free, counter⟩
    obtain ⟨id, before, new⟩ := (getNewRegisterID_isSome_iff numbered.nonneg).mpr counter
    refine ⟨before.doRegister addr id, ?_, (numbered.regist new free).sound⟩
    simp only [Registry.step, Registry.regist, new, Option.map_some]

/-- In every run whose registrations find their address free, the registrations are sound,
and every `doUnregister` is defined and keeps them so.  A registration does so exactly when it
meets the condition. -/
theorem registrations_sound_while_free {calls : List Call}
    (run : Run (Guarded (StepOf step) Keeps) initial calls registry) :
    registry.Sound ∧
      (∀ registerId, ∃ next, registry.step (.unregister registerId) = some next ∧ next.Sound) ∧
      ∀ addr, (∃ next, registry.step (.regist addr) = some next ∧ next.Sound) ↔
        registry.Keeps (.regist addr) := by
  have numbered := numbered_run run
  refine ⟨numbered.sound, ?_, numbered.keeps_iff⟩
  intro registerId
  obtain ⟨next, taken, kept⟩ := numbered.unregister registerId
  exact ⟨next, taken, kept.sound⟩

/-- Two KVs register, the first one leaves, and a third one gets its id. -/
theorem registrations_sound_while_free_reused :
    ∃ registry, Run (Guarded (StepOf step) Keeps) initial
        [.regist [97], .regist [98], .unregister 0, .regist [99]] registry ∧
      registry.registerIdToAddr 0 = some [99] ∧ registry.Sound := by
  have meets : Meets step Keeps initial
      [.regist [97], .regist [98], .unregister 0, .regist [99]] := by
    refine ⟨⟨rfl, by decide⟩, ?_⟩
    rintro _ ⟨⟩
    refine ⟨⟨rfl, by decide⟩, ?_⟩
    rintro _ ⟨⟩
    refine ⟨trivial, ?_⟩
    rintro _ ⟨⟩
    refine ⟨⟨rfl, by decide⟩, ?_⟩
    rintro _ ⟨⟩
    trivial
  have run := guarded_of_exec rfl meets
  exact ⟨_, run, rfl, (registrations_sound_while_free run).1⟩

/-- A KV registers again under its address: the two ids share it.  Unregistering the first
one erases the entry of the second, and unregistering the second one is not defined. -/
theorem second_registration_breaks_maps :
    ∃ registry, Run (StepOf step) initial [.regist [97], .regist [97]] registry ∧
      ¬ registry.Sound ∧
      ∃ next, registry.step (.unregister 0) = some next ∧
        next.registerIdToAddr 1 = some [97] ∧ next.addrToRegisterId [97] = none ∧
        next.step (.unregister 1) = none := by
  refine ⟨_, run_of_exec rfl, ?_, _, rfl, rfl, rfl, rfl⟩
  intro sound
  have first := sound.own 0 [97] rfl
  exact absurd first (by decide)

/-! ## The registrations of the master -/

structure Tracks (master : Master) (registry : Registry) : Prop where
  counter : master.curRegisterKvId = registry.curRegisterKvId
  addresses : ∀ id, master.registerIdToAddr id = (registry.registerIdToAddr id).getD []
  unused : registry.reusedQueue = []

theorem Tracks.initial : Tracks Master.initial Registry.initial :=
  ⟨rfl, fun _ => rfl, rfl⟩

theorem Tracks.regist {master : Master} (tracks : Tracks master registry) {addr : Bytes}
    (result : registry.regist addr = some (id, next)) (pastEnd : Int) (sumMemory : UInt64) :
    (master.regist pastEnd addr sumMemory).2 = id ∧
      Tracks (master.regist pastEnd addr sumMemory).1 next := by
  obtain ⟨⟨other, before⟩, new, same⟩ := Option.map_eq_some_iff.mp result
  cases same
  rcases getNewRegisterID_cases new with ⟨rest, queue, -⟩ | ⟨queue, rfl, rfl⟩
  · rw [tracks.unused] at queue
    cases queue
  · refine ⟨tracks.counter, ?_, ?_, queue⟩
    · exact congrArg (· + 1) tracks.counter
    · intro other
      simp only [Master.regist, doRegister, tracks.counter, Function.update_apply]
      split
      · rfl
      · exact tracks.addresses other

end Registry

end Ctgfs.Placement
