import Ctgfs.Fs.YfsClient
import Ctgfs.Placement.PathConsistency
import Mathlib.Data.List.Nodup
import Mathlib.Data.Nat.Bitwise

/-!
# The numbers of the master

The master counts its numbers up from two and marks those of the files with the bit 31.  Its maps
are keyed by an `int`, to which a number is cut.
-/

namespace Ctgfs.Placement

open Foundation

namespace Master

def setRegisterId (master : Master) (id : UInt64) (kvId : Int) : Master :=
  { master with
    inumToRegisterId := Function.update master.inumToRegisterId id.toUInt32 kvId }

def setPath (master : Master) (id : UInt64) (path : Bytes) : Master :=
  { master with inumToPath := Function.update master.inumToPath id.toUInt32 path }

end Master

namespace Session

/-- The numbers that were given are good, and what is kept for one of them makes no difference
to what is read for another one. -/
structure InumsSound (session : Session) : Prop where
  distinct : (session.entries.map Entry.inum).Nodup
  root : ∀ entry ∈ session.entries, entry.inum ≠ rootInum
  typed : ∀ entry ∈ session.entries, Fs.isfile entry.inum = true ↔ entry.ask.isDir = false
  address : ∀ entry ∈ session.entries, ∀ other ∈ session.entries, other.inum ≠ entry.inum →
    ∀ kvId, (session.master.setRegisterId other.inum kvId).getInfoByInum entry.inum =
      session.master.getInfoByInum entry.inum
  parent : ∀ entry ∈ session.entries, ∀ other ∈ session.entries, other.inum ≠ entry.inum →
    ∀ path name, (session.master.setPath other.inum path).fullPath entry.inum name =
      session.master.fullPath entry.inum name

def number (count : Nat) (isDir : Bool) : Nat :=
  if isDir then count else count + 2 ^ 31

theorem number_inj {count other : Nat} {isDir otherIsDir : Bool} (small : count < 2 ^ 31)
    (otherSmall : other < 2 ^ 31) (same : number count isDir = number other otherIsDir) :
    count = other ∧ isDir = otherIsDir := by
  simp only [number] at same
  cases isDir <;> cases otherIsDir <;> simp at same ⊢ <;> omega

theorem toNat_newInum {master : Master} (small : master.inoCount.toNat < 2 ^ 31) (isDir : Bool) :
    (master.newInum isDir).toNat = number master.inoCount.toNat isDir := by
  rw [Master.newInum, number]
  cases isDir with
  | true => rfl
  | false =>
      have bit := Nat.two_pow_add_eq_or_of_lt small 1
      rw [Nat.mul_one] at bit
      rw [if_neg Bool.false_ne_true, if_neg Bool.false_ne_true, UInt64.toNat_or, Nat.or_comm,
        Nat.add_comm]
      exact bit.symm

theorem isfile_iff {inum : UInt64} {count : Nat} {isDir : Bool} (small : count < 2 ^ 31)
    (numbered : inum.toNat = number count isDir) : Fs.isfile inum = true ↔ isDir = false := by
  have bit : (inum &&& 0x80000000).toNat = (inum.toNat.testBit 31).toNat * 2 ^ 31 := by
    rw [UInt64.toNat_and]
    exact Nat.and_two_pow inum.toNat 31
  have file : Fs.isfile inum = inum.toNat.testBit 31 := by
    rw [Fs.isfile, Bool.eq_iff_iff, bne_iff_ne, ne_eq, ← UInt64.toNat_inj, bit]
    cases inum.toNat.testBit 31 <;> simp
  have low : count.testBit 31 = false := Nat.testBit_lt_two_pow small
  rw [file, numbered, number]
  cases isDir with
  | true => simp [low]
  | false =>
      rw [if_neg Bool.false_ne_true, Nat.add_comm, Nat.testBit_two_pow_add_eq, low]
      simp

structure Counted (session : Session) : Prop where
  count : session.master.inoCount.toNat = session.entries.length + 2
  numbered : ∀ place entry, session.entries[place]? = some entry →
    entry.inum.toNat = number (place + 2) entry.ask.isDir

variable {session next middle : Session} {ask : Ask}

theorem step_ask_maps (taken : session.step (.ask ask) = some next) :
    next.master.inoCount = session.master.inoCount + 1 ∧
      (∃ entry, entry.inum = session.master.newInum ask.isDir ∧ entry.ask = ask ∧
        next.entries = session.entries ++ [entry]) ∧
      next.master.inumToPath = Function.update session.master.inumToPath
        (session.master.newInum ask.isDir).toUInt32 ask.name ∧
      ∃ kvId, next.master.inumToRegisterId = Function.update session.master.inumToRegisterId
        (session.master.newInum ask.isDir).toUInt32 kvId := by
  simp only [step, Master.askForIno, Master.genInum, Option.map_map, Option.map_eq_some_iff]
    at taken
  generalize session.master.tree.create _ _ _ _ = outcome at taken
  obtain ⟨status, tree, kvId⟩ := outcome
  cases status with
  | ok =>
      obtain ⟨_, ⟨⟩, rfl⟩ := taken
      exact ⟨rfl, ⟨_, rfl, rfl, rfl⟩, rfl, kvId, rfl⟩
  | prefixTreeError =>
      obtain ⟨_, ⟨⟩, -⟩ := taken

theorem Counted.initial : Session.initial.Counted :=
  ⟨rfl, fun place entry found => absurd found (by simp [Session.initial])⟩

theorem Counted.step (counted : session.Counted) {event : MasterEvent}
    (taken : session.step event = some next) (few : next.entries.length < 2 ^ 31 - 2) :
    next.Counted := by
  cases event with
  | regist pastEnd addr sumMemory =>
      obtain rfl := Option.some.inj taken
      exact ⟨counted.count, counted.numbered⟩
  | ask ask =>
      obtain ⟨count, ⟨last, inum, rfl, entries⟩, -, -⟩ := step_ask_maps taken
      rw [entries, List.length_append, List.length_singleton] at few
      have small : session.master.inoCount.toNat < 2 ^ 31 := by
        rw [counted.count]
        omega
      constructor
      · rw [count, entries, UInt64.toNat_add, List.length_append, List.length_singleton,
          counted.count]
        change (session.entries.length + 2 + 1) % 2 ^ 64 = session.entries.length + 1 + 2
        omega
      · intro place entry found
        rw [entries, List.getElem?_append] at found
        split at found
        next old => exact counted.numbered place entry found
        next new =>
          obtain ⟨here, rfl⟩ : place - session.entries.length = 0 ∧ last = entry := by
            simpa [List.getElem?_singleton] using found
          rw [inum, toNat_newInum small, counted.count]
          congr 2
          omega

theorem entries_run {events : List MasterEvent} (run : Run (StepOf step) middle events session) :
    middle.entries <+: session.entries := by
  apply run.invariant (fun session => middle.entries <+: session.entries) (List.prefix_refl _)
  intro session event next before taken
  cases event with
  | regist pastEnd addr sumMemory =>
      obtain rfl := Option.some.inj taken
      exact before
  | ask ask =>
      obtain ⟨-, ⟨last, -, -, entries⟩, -⟩ := step_ask_maps taken
      rw [entries]
      exact before.trans (List.prefix_append _ _)

theorem counted_of_run {events : List MasterEvent}
    (run : Run (StepOf step) .initial events session)
    (few : session.entries.length < 2 ^ 31 - 2) : session.Counted := by
  induction run with
  | refl => exact .initial
  | tail run taken ih =>
      have fewer := (entries_run (Run.refl.tail taken)).length_le
      exact (ih (fewer.trans_lt few)).step taken few

variable {entry : Entry}

section

variable (counted : session.Counted)

include counted

theorem Counted.of_mem (few : session.entries.length < 2 ^ 31 - 2)
    (member : entry ∈ session.entries) :
    ∃ count, 2 ≤ count ∧ count < 2 ^ 31 ∧ entry.inum.toNat = number count entry.ask.isDir := by
  obtain ⟨place, found⟩ := List.mem_iff_getElem?.mp member
  have inside := (List.getElem?_eq_some_iff.mp found).1
  exact ⟨place + 2, by omega, by omega, counted.numbered place entry found⟩

theorem Counted.toNat_key (few : session.entries.length < 2 ^ 31 - 2)
    (member : entry ∈ session.entries) : entry.inum.toUInt32.toNat = entry.inum.toNat := by
  obtain ⟨count, -, small, numbered⟩ := counted.of_mem few member
  rw [UInt64.toNat_toUInt32, numbered, number]
  apply Nat.mod_eq_of_lt
  split <;> omega

theorem Counted.key_ne (few : session.entries.length < 2 ^ 31 - 2) {other : Entry}
    (member : entry ∈ session.entries) (again : other ∈ session.entries)
    (different : other.inum ≠ entry.inum) : other.inum.toUInt32 ≠ entry.inum.toUInt32 := by
  intro same
  apply different
  rw [← UInt64.toNat_inj, ← counted.toNat_key few member, ← counted.toNat_key few again, same]

theorem Counted.distinct (few : session.entries.length < 2 ^ 31 - 2) :
    (session.entries.map Entry.inum).Nodup := by
  apply List.nodup_iff_getElem?_ne_getElem?.mpr
  intro first second before inside same
  rw [List.length_map] at inside
  rw [List.getElem?_map, List.getElem?_map, List.getElem?_eq_getElem inside,
    List.getElem?_eq_getElem (before.trans inside)] at same
  have one := counted.numbered first _ (List.getElem?_eq_getElem (before.trans inside))
  have two := counted.numbered second _ (List.getElem?_eq_getElem inside)
  rw [Option.some.inj same, two] at one
  have places := (number_inj (by omega) (by omega) one).1
  omega

theorem Counted.sound (few : session.entries.length < 2 ^ 31 - 2) :
    session.InumsSound where
  distinct := counted.distinct few
  root entry member root := by
    obtain ⟨count, first, -, numbered⟩ := counted.of_mem few member
    rw [root, number] at numbered
    have one : rootInum.toNat = 1 := rfl
    split at numbered <;> omega
  typed entry member := by
    obtain ⟨count, -, small, numbered⟩ := counted.of_mem few member
    exact isfile_iff small numbered
  address entry member other again different kvId := by
    have key := counted.key_ne few member again different
    simp only [Master.getInfoByInum, Master.setRegisterId, Function.update_of_ne key.symm]
  parent entry member other again different path name := by
    have key := counted.key_ne few member again different
    simp only [Master.fullPath, Master.setPath, Function.update_of_ne key.symm]

end

theorem kept_step {event : MasterEvent} (taken : session.step event = some next)
    (counted : next.Counted) (few : next.entries.length < 2 ^ 31 - 2)
    (member : entry ∈ session.entries) :
    next.master.inumToPath entry.inum.toUInt32 =
        session.master.inumToPath entry.inum.toUInt32 ∧
      next.master.inumToRegisterId entry.inum.toUInt32 =
        session.master.inumToRegisterId entry.inum.toUInt32 := by
  cases event with
  | regist pastEnd addr sumMemory =>
      obtain rfl := Option.some.inj taken
      exact ⟨rfl, rfl⟩
  | ask ask =>
      obtain ⟨-, ⟨last, inum, -, entries⟩, path, kvId, registerId⟩ := step_ask_maps taken
      have distinct := counted.distinct few
      rw [entries, List.map_append, List.nodup_append] at distinct
      have different : last.inum ≠ entry.inum := fun same =>
        distinct.2.2 _ (List.mem_map_of_mem member) _ (List.mem_singleton_self _) same.symm
      have key := counted.key_ne few (entries ▸ List.mem_append_left _ member)
        (entries ▸ List.mem_append_right _ (List.mem_singleton_self _)) different
      rw [inum] at key
      rw [path, registerId, Function.update_of_ne key.symm, Function.update_of_ne key.symm]
      exact ⟨rfl, rfl⟩

end Session

/-- In a run of fewer than `2 ^ 31 - 2` calls, the numbers are sound, and what the maps have for a
number is still there at the end. -/
theorem inums_sound {before after : List MasterEvent} {middle session : Session}
    (first : Run (StepOf Session.step) .initial before middle)
    (second : Run (StepOf Session.step) middle after session)
    (few : session.entries.length < 2 ^ 31 - 2) :
    session.InumsSound ∧ ∀ entry ∈ middle.entries,
      session.master.inumToPath entry.inum.toUInt32 =
          middle.master.inumToPath entry.inum.toUInt32 ∧
        session.master.inumToRegisterId entry.inum.toUInt32 =
          middle.master.inumToRegisterId entry.inum.toUInt32 := by
  refine ⟨(Session.counted_of_run (first.trans second) few).sound few, ?_⟩
  intro entry member
  induction second with
  | refl => exact ⟨rfl, rfl⟩
  | tail run taken ih =>
      have fewer := (Session.entries_run (Run.refl.tail taken)).length_le
      have counted := Session.counted_of_run ((first.trans run).tail taken) few
      have kept := Session.kept_step taken counted few ((Session.entries_run run).subset member)
      have before := ih (fewer.trans_lt few)
      exact ⟨kept.1.trans before.1, kept.2.trans before.2⟩

/-- A directory and then a file. -/
theorem inums_sound_two :
    ∃ middle session, Run (StepOf Session.step) .initial
        [.regist 0 [49] 10, .ask ⟨1, [97], true, 0⟩] middle ∧
      Run (StepOf Session.step) middle [.ask ⟨1, [98], false, 5⟩] session ∧
      session.entries.map Entry.inum = [2, 2147483651] ∧ session.InumsSound := by
  have run := run_of_exec (rfl : exec Session.step .initial
    [.regist 0 [49] 10, .ask ⟨1, [97], true, 0⟩, .ask ⟨1, [98], false, 5⟩] = some _)
  have position : [.regist 0 [49] 10, .ask ⟨1, [97], true, 0⟩, .ask ⟨1, [98], false, 5⟩] =
      [MasterEvent.regist 0 [49] 10, .ask ⟨1, [97], true, 0⟩] ++ .ask ⟨1, [98], false, 5⟩ :: [] :=
    rfl
  obtain ⟨middle, next, first, taken, rest⟩ := run.split position
  have second := (Run.refl.tail taken).trans rest
  exact ⟨middle, _, first, second, rfl, (inums_sound first second (by decide)).1⟩

end Ctgfs.Placement
