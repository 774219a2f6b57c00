import Mathlib.Init

/-!
# Programs seen through an abstraction

A program runs on a state, and may fail to return.  A relation says as which views a state may be
seen, and what a call does is stated on the views.  The rules compose such statements along a
program.
-/

namespace Ctgfs.Foundation.Abstraction

variable {State View : Type} {m : Type → Type} [Monad m] {α β : Type}

/-- From every state that is seen as the view, the call returns, with a result and a state that is
seen as a view that satisfy the condition. -/
def Realises (sees : State → View → Prop) (call : StateT State m α) (view : View)
    (post : α → View → Prop) : Prop :=
  ∀ state, sees state view → ∃ result next after,
    call.run state = pure (result, next) ∧ sees next after ∧ post result after

/-- The same for a program, which may have no result. -/
def Reaches (sees : State → View → Prop) (program : OptionT (StateT State m) α) (view : View)
    (post : α → View → Prop) : Prop :=
  ∀ state, sees state view → ∃ result next after,
    program.run.run state = pure (some result, next) ∧ sees next after ∧ post result after

variable {sees : State → View → Prop} {view : View} {post : α → View → Prop}

theorem Realises.pure {result : α} (holds : post result view) :
    Realises sees (Pure.pure result : StateT State m α) view post :=
  fun state seen => ⟨result, state, view, rfl, seen, holds⟩

theorem Reaches.pure {result : α} (holds : post result view) :
    Reaches sees (Pure.pure result : OptionT (StateT State m) α) view post :=
  fun state seen => ⟨result, state, view, rfl, seen, holds⟩

variable [LawfulMonad m]

theorem Realises.map {call : StateT State m β} {given : β → View → Prop} {convert : β → α}
    (realises : Realises sees call view given)
    (implies : ∀ result after, given result after → post (convert result) after) :
    Realises sees (do return convert (← call)) view post := by
  intro state seen
  obtain ⟨result, next, after, ran, seen', holds⟩ := realises state seen
  refine ⟨convert result, next, after, ?_, seen', implies result after holds⟩
  rw [StateT.run_bind, ran, pure_bind]
  rfl

variable {body : β → OptionT (StateT State m) α}

theorem Reaches.bind {program : OptionT (StateT State m) β} {middle : β → View → Prop}
    (first : Reaches sees program view middle)
    (rest : ∀ result after, middle result after → Reaches sees (body result) after post) :
    Reaches sees (program >>= body) view post := by
  intro state seen
  obtain ⟨result, reached, after, ran, seen', holds⟩ := first state seen
  obtain ⟨last, next, final, ran', kept, holds'⟩ := rest result after holds reached seen'
  refine ⟨last, next, final, ?_, kept, holds'⟩
  have sequence : (program >>= body).run.run state = program.run.run state >>= fun pair =>
      (match pair.1 with
        | some result => (body result).run
        | none => Pure.pure none).run pair.2 := rfl
  rw [sequence, ran, pure_bind]
  exact ran'

theorem Reaches.call {call : StateT State m β} {middle : β → View → Prop}
    (realises : Realises sees call view middle)
    (rest : ∀ result after, middle result after → Reaches sees (body result) after post) :
    Reaches sees (liftM call >>= body) view post := by
  refine Reaches.bind (fun state seen => ?_) rest
  obtain ⟨result, next, after, ran, seen', holds⟩ := realises state seen
  refine ⟨result, next, after, ?_, seen', holds⟩
  have lifted : (liftM call : OptionT (StateT State m) β).run.run state =
      call.run state >>= fun pair => Pure.pure (some pair.1, pair.2) := rfl
  rw [lifted, ran, pure_bind]

theorem Reaches.compute {value : Option β} {result : β} (defined : value = some result)
    (rest : Reaches sees (body result) view post) :
    Reaches sees (OptionT.mk (Pure.pure value) >>= body) view post := by
  subst defined
  have returned : Reaches sees (OptionT.mk (Pure.pure (some result)) : OptionT (StateT State m) β)
      view fun given after => given = result ∧ after = view :=
    fun state seen => ⟨result, state, view, rfl, seen, rfl, rfl⟩
  refine returned.bind ?_
  rintro _ _ ⟨rfl, rfl⟩
  exact rest

end Ctgfs.Foundation.Abstraction
