import Ctgfs.Foundation.LockTrace
import Ctgfs.Fs.ExtentMove

/-!
# The locks of a move

`Master::Move` locks all the files, asks the extent server that has them to move them, and
releases the locks.  A lock that cannot be acquired does not end the loop that acquires them.
-/

namespace Ctgfs.Placement

open Foundation

/-- The RPC `extent_protocol::move`. -/
structure MoveCall where
  inum : List UInt64
  dst : Bytes
  deriving DecidableEq, Repr

abbrev MoveTrace := List (LockEvent UInt64 MoveCall)

/-- What the calls of a `Move` return: whether a port can be bound, the status of the acquire at a
position, and the status of the RPC.  `OK` is zero. -/
structure MoveAnswers where
  bind : Bytes → Bool
  acquire : Nat → Int
  call : Int

def extentRpcerr : Int := 1

/-- The loop that acquires the locks; `visited` is `inum[i - 1]`, …, `inum[0]`. -/
structure Locking where
  goOn : Bool := true
  status : Int := 0
  visited : List UInt64 := []
  trace : MoveTrace := []

def Locking.lock (acquire : Nat → Int) (locking : Locking) (inum : UInt64) : Locking :=
  let sLock := acquire locking.visited.length
  if sLock = 0 then
    { locking with
      visited := inum :: locking.visited
      trace := locking.trace ++ [.acquire inum true] }
  else
    { goOn := false
      status := sLock
      visited := inum :: locking.visited
      trace := locking.trace ++ .acquire inum false :: locking.visited.map .release }

/-- `Master::Move`: what it returns, and the calls that it makes before.  It uses nothing of the
master itself. -/
def masterMove (answers : MoveAnswers) (inum : List UInt64) (src dst : Bytes) : Int × MoveTrace :=
  if answers.bind (Fs.portPart src) then
    let locking := inum.foldl (Locking.lock answers.acquire) {}
    if locking.goOn then
      (answers.call, locking.trace ++ .other ⟨inum, dst⟩ :: inum.map .release)
    else (locking.status, locking.trace)
  else (extentRpcerr, [])

namespace Locking

variable {acquire : Nat → Int} {locking : Locking} {inum : UInt64}

structure Locked (locking : Locking) : Prop where
  goOn : locking.goOn = true
  held : replay 0 locking.trace = some ↑locking.visited

structure Undone (locking : Locking) : Prop where
  goOn : locking.goOn = false
  held : replay 0 locking.trace = some 0

def Short (locking : Locking) : Prop :=
  locking.goOn = false ∧
    ∀ held, replay 0 locking.trace = some held → held.card < locking.visited.length

def Broken (locking : Locking) : Prop :=
  locking.Short ∧ ∀ held, replay 0 locking.trace = some held → 0 < held.card

theorem lock_granted (granted : acquire locking.visited.length = 0) :
    locking.lock acquire inum =
      { locking with
        visited := inum :: locking.visited
        trace := locking.trace ++ [.acquire inum true] } :=
  if_pos granted

theorem lock_refused (refused : acquire locking.visited.length ≠ 0) :
    locking.lock acquire inum =
      { goOn := false
        status := acquire locking.visited.length
        visited := inum :: locking.visited
        trace := locking.trace ++ .acquire inum false :: locking.visited.map .release } :=
  if_neg refused

theorem visited_lock : (locking.lock acquire inum).visited = inum :: locking.visited := by
  by_cases granted : acquire locking.visited.length = 0
  · rw [lock_granted granted]
  · rw [lock_refused granted]

theorem visited_foldl (inums : List UInt64) :
    (inums.foldl (lock acquire) locking).visited = inums.reverse ++ locking.visited := by
  induction inums generalizing locking with
  | nil => rfl
  | cons inum rest ih =>
      rw [List.foldl_cons, ih, visited_lock, List.reverse_cons,
        List.append_assoc, List.singleton_append]

theorem other_notMem_lock (none : ∀ call, .other call ∉ locking.trace) (call : MoveCall) :
    .other call ∉ (locking.lock acquire inum).trace := by
  by_cases granted : acquire locking.visited.length = 0
  · simp [lock_granted granted, none]
  · simp [lock_refused granted, none]

theorem other_notMem_foldl (inums : List UInt64) (none : ∀ call, .other call ∉ locking.trace)
    (call : MoveCall) : .other call ∉ (inums.foldl (lock acquire) locking).trace := by
  induction inums generalizing locking with
  | nil => exact none call
  | cons inum rest ih => exact ih (other_notMem_lock none)

theorem replay_refused (locks : List UInt64) :
    replay 0 (locking.trace ++ .acquire inum false :: locks.map .release) =
      (replay 0 locking.trace).bind fun held =>
        replay held (locks.map fun lock => (.release lock : LockEvent UInt64 MoveCall)) := by
  rw [replay_append]
  rfl

theorem Locked.granted (locked : locking.Locked) (granted : acquire locking.visited.length = 0) :
    (locking.lock acquire inum).Locked := by
  rw [lock_granted granted]
  refine ⟨locked.goOn, ?_⟩
  rw [replay_concat, locked.held]
  rfl

theorem Locked.refused (locked : locking.Locked) (refused : acquire locking.visited.length ≠ 0) :
    (locking.lock acquire inum).Undone := by
  rw [lock_refused refused]
  refine ⟨rfl, ?_⟩
  rw [replay_refused, locked.held, Option.bind_some, replay_releases, Multiset.add_zero]

theorem Undone.short (undone : locking.Undone) (visited : locking.visited ≠ []) :
    locking.Short := by
  refine ⟨undone.goOn, ?_⟩
  intro held found
  obtain rfl := Option.some.inj (undone.held.symm.trans found)
  rw [Multiset.card_zero]
  exact List.length_pos_iff.mpr visited

/-- The loop does not recover: a lock that is acquired now stays, and the next one that is not
has more locks released than are held. -/
theorem Short.lock (short : locking.Short) : (locking.lock acquire inum).Broken := by
  by_cases granted : acquire locking.visited.length = 0
  · rw [lock_granted granted]
    have grown : ∀ held, replay 0 (locking.trace ++ [.acquire inum true]) = some held →
        0 < held.card ∧ held.card < locking.visited.length + 1 := by
      intro held found
      rw [replay_concat] at found
      obtain ⟨before, replayed, acquired⟩ := Option.bind_eq_some_iff.mp found
      obtain rfl : inum ::ₘ before = held := Option.some.inj acquired
      rw [Multiset.card_cons]
      exact ⟨Nat.succ_pos _, Nat.succ_lt_succ (short.2 before replayed)⟩
    exact ⟨⟨short.1, fun held found => (grown held found).2⟩,
      fun held found => (grown held found).1⟩
  · rw [lock_refused granted]
    have stuck : ∀ held, replay 0 (locking.trace ++
        .acquire inum false :: locking.visited.map .release) ≠ some held := by
      intro held found
      rw [replay_refused] at found
      obtain ⟨before, replayed, released⟩ := Option.bind_eq_some_iff.mp found
      have enough := congrArg Multiset.card (replay_releases.mp released)
      rw [Multiset.card_add, Multiset.coe_card] at enough
      have few := short.2 before replayed
      omega
    exact ⟨⟨rfl, fun held found => absurd found (stuck held)⟩,
      fun held found => absurd found (stuck held)⟩

variable {inums : List UInt64}

theorem Short.foldl (short : locking.Short) (more : inums ≠ []) :
    (inums.foldl (Locking.lock acquire) locking).Broken := by
  induction inums generalizing locking with
  | nil => exact absurd rfl more
  | cons inum rest ih =>
      have broken : (locking.lock acquire inum).Broken := short.lock
      cases rest with
      | nil => exact broken
      | cons next others => exact ih broken.1 (List.cons_ne_nil next others)

theorem Locked.foldl (locked : locking.Locked)
    (granted : ∀ i, i + 1 < inums.length → acquire (locking.visited.length + i) = 0) :
    (inums.foldl (Locking.lock acquire) locking).Locked ∨
      (inums.foldl (Locking.lock acquire) locking).Undone := by
  induction inums generalizing locking with
  | nil => exact .inl locked
  | cons inum rest ih =>
      by_cases here : acquire locking.visited.length = 0
      · apply ih (locked.granted here)
        intro i inside
        rw [visited_lock, List.length_cons, Nat.add_assoc, Nat.add_comm 1]
        exact granted (i + 1) (Nat.succ_lt_succ inside)
      · cases rest with
        | nil => exact .inr (locked.refused here)
        | cons next others => exact absurd (granted 0 (by simp)) here

theorem Locked.broken (locked : locking.Locked)
    (refused : ∃ i, i + 1 < inums.length ∧ acquire (locking.visited.length + i) ≠ 0) :
    (inums.foldl (Locking.lock acquire) locking).Broken := by
  induction inums generalizing locking with
  | nil =>
      obtain ⟨i, inside, -⟩ := refused
      exact absurd inside (Nat.not_lt_zero _)
  | cons inum rest ih =>
      obtain ⟨i, inside, failed⟩ := refused
      by_cases here : acquire locking.visited.length = 0
      · apply ih (locked.granted here)
        cases i with
        | zero => exact absurd here failed
        | succ i =>
            refine ⟨i, Nat.lt_of_succ_lt_succ inside, ?_⟩
            rw [visited_lock, List.length_cons, Nat.add_assoc, Nat.add_comm 1]
            exact failed
      · have short : (locking.lock acquire inum).Short :=
          (locked.refused here).short (visited_lock ▸ List.cons_ne_nil _ _)
        apply short.foldl
        rintro rfl
        exact absurd inside (by simp)

theorem Broken.not_balanced (broken : locking.Broken) : ¬ LockBalanced locking.trace := by
  intro balanced
  exact absurd (broken.2 0 balanced) (by simp)

end Locking

structure MoveBalanced (inum : List UInt64) (trace : MoveTrace) : Prop where
  balanced : LockBalanced trace
  sent : ∀ before call after, trace = before ++ .other call :: after →
    ∃ held, replay 0 before = some held ∧ ∀ file ∈ inum, file ∈ held

theorem moveBalanced_of_undone {locking : Locking} (undone : locking.Undone)
    (none : ∀ call, .other call ∉ locking.trace) (inum : List UInt64) :
    MoveBalanced inum locking.trace := by
  refine ⟨undone.held, ?_⟩
  intro before call after cut
  exact absurd (cut ▸ List.mem_append_cons_self) (none call)

theorem moveBalanced_of_locked {locking : Locking} (locked : locking.Locked)
    (none : ∀ call, .other call ∉ locking.trace) {inum : List UInt64}
    (visited : locking.visited = inum.reverse) (call : MoveCall) :
    MoveBalanced inum (locking.trace ++ .other call :: inum.map .release) := by
  have held : replay 0 locking.trace = some (inum : Multiset UInt64) := by
    rw [locked.held, visited, Multiset.coe_reverse]
  refine ⟨?_, ?_⟩
  · rw [LockBalanced, replay_append, held]
    exact replay_releases.mpr (Multiset.add_zero _).symm
  · intro before sent after cut
    obtain ⟨rfl, -⟩ := (List.append_cons_inj_of_notMem (none sent) (by simp)).mp cut
    exact ⟨inum, held, fun file member => member⟩

/-- A `Move` balances its locks if and only if no lock but the last one is refused. -/
theorem move_balances_locks (answers : MoveAnswers) (inum : List UInt64) (src dst : Bytes) :
    MoveBalanced inum (masterMove answers inum src dst).2 ↔
      (answers.bind (Fs.portPart src) = true →
        ∀ i, i + 1 < inum.length → answers.acquire i = 0) := by
  have start : Locking.Locked {} := ⟨rfl, rfl⟩
  have none (call : MoveCall) :
      .other call ∉ (inum.foldl (Locking.lock answers.acquire) {}).trace :=
    Locking.other_notMem_foldl inum (by simp) call
  rw [masterMove]
  by_cases bound : answers.bind (Fs.portPart src) = true
  · rw [if_pos bound, forall_prop_of_true bound]
    constructor
    · intro balanced
      by_contra refused
      push Not at refused
      have broken := start.broken (by simpa using refused)
      dsimp only at balanced
      rw [if_neg (by simp [broken.1.1])] at balanced
      exact broken.not_balanced balanced.balanced
    · intro granted
      dsimp only
      rcases start.foldl (by simpa using granted) with locked | undone
      · rw [if_pos locked.goOn]
        exact moveBalanced_of_locked locked none (by simp [Locking.visited_foldl]) _
      · rw [if_neg (by simp [undone.goOn])]
        exact moveBalanced_of_undone undone none inum
  · rw [if_neg bound]
    constructor
    · exact fun _ impossible => absurd impossible bound
    · intro _
      refine ⟨rfl, ?_⟩
      intro before call after cut
      exact absurd cut (by simp)

/-- The second file stays locked when the first one could not be. -/
theorem move_keeps_lock :
    ([1, 2] : List UInt64).Nodup ∧ ¬ MoveBalanced [1, 2]
      (masterMove ⟨fun _ => true, fun i => if i = 0 then 2 else 0, 0⟩ [1, 2] [] []).2 :=
  ⟨by decide, fun balanced => absurd balanced.balanced (by decide)⟩

end Ctgfs.Placement
