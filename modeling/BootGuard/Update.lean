/-
  Computations that change a state and may fail.

  What an update changed before a failure stays changed. `runOn` gives the outcome and the
  state left behind; the lemmas say what that is for each way of building an update.
-/
import BootGuard.Error

namespace BootGuard

/-- A computation that changes a state of type `σ` and may fail. -/
abbrev Update (σ : Type) := ExceptT Error (StateM σ)

namespace Update

variable {σ τ α β : Type}

/-- The outcome of an update together with the state it leaves behind. -/
def runOn (u : Update σ α) (s : σ) : Except Error α × σ := Id.run (u.run.run s)

/-- An update that changes nothing and has a given outcome. -/
def ofExcept : Except Error α → Update σ α
  | .ok a => pure a
  | .error e => throw e

/-- An update of a part of the state. -/
def onPart (part : σ → τ) (put : τ → σ → σ) (u : Update τ α) : Update σ α := do
  let s ← get
  let (outcome, t) := u.runOn (part s)
  set (put t s)
  ofExcept outcome

/-- The state after an update that must succeed. -/
def result (u : Update σ α) (s : σ) : Except Error σ :=
  match u.runOn s with
  | (.ok _, s') => .ok s'
  | (.error e, _) => .error e

theorem runOn_pure (a : α) (s : σ) : runOn (pure a) s = (.ok a, s) := rfl

theorem runOn_throw (e : Error) (s : σ) :
    runOn (throw e : Update σ α) s = (.error e, s) := rfl

theorem runOn_get (s : σ) : runOn (get : Update σ σ) s = (.ok s, s) := rfl

theorem runOn_set (t s : σ) : runOn (set t : Update σ PUnit) s = (.ok ⟨⟩, t) := rfl

theorem runOn_modify (f : σ → σ) (s : σ) :
    runOn (modify f : Update σ PUnit) s = (.ok ⟨⟩, f s) := rfl

theorem runOn_ofExcept (x : Except Error α) (s : σ) : runOn (ofExcept x) s = (x, s) := by
  cases x <;> rfl

theorem runOn_bind (u : Update σ α) (f : α → Update σ β) (s : σ) :
    runOn (u >>= f) s =
      match runOn u s with
      | (.ok a, s') => runOn (f a) s'
      | (.error e, s') => (.error e, s') := by
  show Id.run ((ExceptT.bindCont (m := StateM σ) f (u s).1) (u s).2) = _
  cases h : u s with
  | mk x s' =>
    have hr : runOn u s = (x, s') := h
    rw [hr]
    cases x <;> rfl

theorem runOn_onPart (part : σ → τ) (put : τ → σ → σ) (u : Update τ α) (s : σ) :
    runOn (onPart part put u) s = ((u.runOn (part s)).1, put (u.runOn (part s)).2 s) := by
  simp only [onPart, runOn_bind, runOn_get, runOn_set, runOn_ofExcept]

end Update

end BootGuard
