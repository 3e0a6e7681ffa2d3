/-
  Outcomes of computations in sequence.

  A sequence of checks succeeds exactly if each step does. `bind_eq_ok_iff` says so for
  `Except`, `runOn_bind_eq_ok_iff` for updates, whose state goes from step to step.
-/
import BootGuard.Update
import Mathlib.Data.List.Forall2

namespace BootGuard

variable {ε α β : Type}

theorem ok_bind (a : α) (f : α → Except ε β) : (Except.ok a >>= f) = f a := rfl

theorem error_bind (e : ε) (f : α → Except ε β) : (Except.error e >>= f) = .error e := rfl

theorem pure_eq_ok (a : α) : (pure a : Except ε α) = .ok a := rfl

theorem throw_eq_error (e : ε) : (throw e : Except ε α) = .error e := rfl

theorem bind_eq_ok_iff {x : Except ε α} {f : α → Except ε β} {b : β} :
    (x >>= f) = .ok b ↔ ∃ a, x = .ok a ∧ f a = .ok b := by
  cases x with
  | error e => simp [error_bind]
  | ok a => simp [ok_bind]

theorem bind_eq_error_iff {x : Except ε α} {f : α → Except ε β} {e : ε} :
    (x >>= f) = .error e ↔ x = .error e ∨ ∃ a, x = .ok a ∧ f a = .error e := by
  cases x with
  | error e' => simp [error_bind]
  | ok a => simp [ok_bind]

theorem map_eq_ok_iff {x : Except ε α} {f : α → β} {b : β} :
    x.map f = .ok b ↔ ∃ a, x = .ok a ∧ f a = b := by
  cases x with
  | error e => simp [Except.map]
  | ok a => simp [Except.map]

theorem eq_ok_of_toOption {x : Except ε α} {a : α} (h : x.toOption = some a) : x = .ok a := by
  cases x with
  | error e => cases h
  | ok b =>
    cases h
    rfl

theorem eq_ok_of_isOk {x : Except ε α} (default : α) (h : x.isOk = true) :
    x = .ok (x.toOption.getD default) := by
  cases x with
  | error e => cases h
  | ok a => rfl

/-- A check in front of further steps, in the form in which they are run. -/
theorem ite_throw_eq_ok_iff {p : Prop} [Decidable p] {e : ε} {f : PUnit → Except ε β} {b : β} :
    (if p then (throw e : Except ε PUnit) >>= f else f ⟨⟩) = .ok b ↔ ¬ p ∧ f ⟨⟩ = .ok b := by
  by_cases h : p
  · simp [h, throw_eq_error, error_bind]
  · simp [h]

/-- A run over a list succeeds with the outcomes of its items. -/
theorem mapM_eq_ok_iff {f : α → Except ε β} {as : List α} {bs : List β} :
    as.mapM f = .ok bs ↔ List.Forall₂ (fun a b => f a = .ok b) as bs := by
  induction as generalizing bs with
  | nil => simp [pure_eq_ok, eq_comm]
  | cons a as ih =>
    simp only [List.mapM_cons, bind_eq_ok_iff, pure_eq_ok, Except.ok.injEq, ih]
    constructor
    · intro h
      obtain ⟨b, hb, bs', hbs, rfl⟩ := h
      exact .cons hb hbs
    · intro h
      cases h with
      | cons hb hbs => exact ⟨_, hb, _, hbs, rfl⟩

/-- A run over outcomes that are their own outcomes changes nothing. -/
theorem mapM_idem {f : α → Except ε α} (hf : ∀ a b, f a = .ok b → f b = .ok b)
    {as bs : List α} (h : as.mapM f = .ok bs) : bs.mapM f = .ok bs := by
  induction mapM_eq_ok_iff.1 h with
  | nil => rfl
  | cons hb _ ih =>
    rw [List.mapM_cons, hf _ _ hb, ok_bind, ih (mapM_eq_ok_iff.2 ‹_›), ok_bind, pure_eq_ok]

/-- What a run over a list yields comes from its items. -/
theorem exists_of_mem_mapM {f : α → Except ε β} {as : List α} {bs : List β}
    (h : as.mapM f = .ok bs) {b : β} (hb : b ∈ bs) : ∃ a ∈ as, f a = .ok b := by
  induction as generalizing bs with
  | nil =>
    cases h
    cases hb
  | cons a as ih =>
    simp only [List.mapM_cons, bind_eq_ok_iff, pure_eq_ok, Except.ok.injEq] at h
    obtain ⟨x, hx, xs, hxs, rfl⟩ := h
    obtain rfl | hb := List.mem_cons.1 hb
    · exact ⟨a, List.mem_cons_self, hx⟩
    · obtain ⟨a', ha', hfa⟩ := ih hxs hb
      exact ⟨a', List.mem_cons_of_mem _ ha', hfa⟩

namespace Update

variable {σ : Type}

theorem runOn_bind_eq_ok_iff {u : Update σ α} {f : α → Update σ β} {s s' : σ} {b : β} :
    runOn (u >>= f) s = (.ok b, s') ↔
      ∃ a t, runOn u s = (.ok a, t) ∧ runOn (f a) t = (.ok b, s') := by
  rw [runOn_bind]
  rcases h : runOn u s with ⟨x, t⟩
  cases x with
  | error e => simp
  | ok a =>
    constructor
    · intro hf
      exact ⟨a, t, rfl, hf⟩
    · intro hall
      obtain ⟨_, _, he, hf⟩ := hall
      cases he
      exact hf

theorem runOn_get_bind {f : σ → Update σ β} (s : σ) :
    runOn (get >>= f) s = runOn (f s) s := rfl

theorem runOn_modify_bind {g : σ → σ} {f : PUnit → Update σ β} (s : σ) :
    runOn (modify g >>= f) s = runOn (f ⟨⟩) (g s) := rfl

theorem runOn_ite_throw_eq_ok_iff {p : Prop} [Decidable p] {e : Error} {f : PUnit → Update σ β}
    {s s' : σ} {b : β} :
    runOn (if p then (throw e : Update σ PUnit) >>= f else f ⟨⟩) s = (.ok b, s') ↔
      ¬ p ∧ runOn (f ⟨⟩) s = (.ok b, s') := by
  by_cases h : p
  · simp [h, runOn_throw]
  · simp [h]

theorem runOn_pure_eq_ok_iff {a b : α} {s s' : σ} :
    runOn (pure a : Update σ α) s = (.ok b, s') ↔ b = a ∧ s' = s := by
  rw [runOn_pure, Prod.mk.injEq, Except.ok.injEq, eq_comm, eq_comm (a := s)]

theorem runOn_ofExcept_eq_ok_iff {x : Except Error α} {s s' : σ} {a : α} :
    runOn (ofExcept x) s = (.ok a, s') ↔ x = .ok a ∧ s' = s := by
  rw [runOn_ofExcept, Prod.mk.injEq, eq_comm (a := s)]

theorem runOn_of_fst_eq_ok {u : Update σ α} {s : σ} {a : α} (h : (runOn u s).1 = .ok a) :
    runOn u s = (.ok a, (runOn u s).2) := by
  rw [← h]

theorem runOn_of_isOk {u : Update σ α} {s : σ} (default : α) (h : (runOn u s).1.isOk = true) :
    runOn u s = (.ok ((runOn u s).1.toOption.getD default), (runOn u s).2) :=
  runOn_of_fst_eq_ok (eq_ok_of_isOk default h)

theorem result_eq_ok_iff {u : Update σ α} {s s' : σ} :
    u.result s = .ok s' ↔ ∃ a, runOn u s = (.ok a, s') := by
  rw [result]
  rcases runOn u s with ⟨x, t⟩
  cases x with
  | error e => simp
  | ok a => simp

theorem result_eq_ok_unit_iff {u : Update σ Unit} {s s' : σ} :
    u.result s = .ok s' ↔ runOn u s = (.ok (), s') := by
  rw [result_eq_ok_iff]
  exact ⟨fun ⟨⟨⟩, h⟩ => h, fun h => ⟨(), h⟩⟩

/-! ## What an update keeps -/

/-- Every run from a state with the property leaves one with it behind, also a run that fails. -/
def Keeps (P : σ → Prop) (u : Update σ α) : Prop := ∀ s, P s → P (runOn u s).2

variable {P : σ → Prop}

theorem keeps_pure (a : α) : Keeps P (pure a : Update σ α) := fun _ h => h

theorem keeps_throw (e : Error) : Keeps P (throw e : Update σ α) := fun _ h => h

theorem keeps_get : Keeps P (get : Update σ σ) := fun _ h => h

theorem keeps_ofExcept (x : Except Error α) : Keeps P (ofExcept x) := by
  intro s h
  rw [runOn_ofExcept]
  exact h

theorem keeps_modify {f : σ → σ} (hf : ∀ s, P s → P (f s)) :
    Keeps P (modify f : Update σ PUnit) := hf

theorem Keeps.bind {u : Update σ α} {f : α → Update σ β} (hu : Keeps P u)
    (hf : ∀ a, Keeps P (f a)) : Keeps P (u >>= f) := by
  intro s h
  have hs := hu s h
  rw [runOn_bind]
  rcases hr : runOn u s with ⟨x, t⟩
  rw [hr] at hs
  cases x with
  | error e => exact hs
  | ok a => exact hf a t hs

theorem keeps_ofExcept_bind {x : Except Error α} {f : α → Update σ β}
    (hf : ∀ a, x = .ok a → Keeps P (f a)) : Keeps P (ofExcept x >>= f) := by
  intro s h
  rw [runOn_bind, runOn_ofExcept]
  cases x with
  | error e => exact h
  | ok a => exact hf a rfl s h

/-! ## Updates that agree -/

/-- From every state with the property both updates have the same outcome and leave the same
state behind. -/
def AgreeOn (P : σ → Prop) (u v : Update σ α) : Prop := ∀ s, P s → runOn u s = runOn v s

theorem agreeOn_refl (u : Update σ α) : AgreeOn P u u := fun _ _ => rfl

theorem AgreeOn.andThen {u v : Update σ α} (h : AgreeOn P u v) (f : α → Update σ β) :
    AgreeOn P (u >>= f) (v >>= f) := by
  intro s hs
  rw [runOn_bind, runOn_bind, h s hs]

theorem AgreeOn.bind {u v : Update σ α} {f g : α → Update σ β} (h : AgreeOn P u v)
    (hu : Keeps P u) (hf : ∀ a, AgreeOn P (f a) (g a)) : AgreeOn P (u >>= f) (v >>= g) := by
  intro s hs
  have hkept := hu s hs
  rw [runOn_bind, runOn_bind, ← h s hs]
  rcases hr : runOn u s with ⟨x, t⟩
  rw [hr] at hkept
  cases x with
  | error e => rfl
  | ok a => exact hf a t hkept

end Update

end BootGuard
