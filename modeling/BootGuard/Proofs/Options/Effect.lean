/-
  Options as changes in sequence.

  Where an option changes every state in one way, or fails on every one, options that are set one
  after the other are a sequence of changes (`Effect.runOn_overrideEach_iff`). If changes of
  different names commute and each changes nothing the second time, then the order of a sequence
  does not matter (`Independent.actAll_perm`) and the whole sequence changes nothing the second time
  (`Independent.actAll_again`).
-/
import BootGuard.Options.Override
import BootGuard.Proofs.Outcome
import Mathlib.Data.List.Nodup
import Mathlib.Data.List.Perm.Basic

namespace BootGuard

open Update

/-- Options other than null ones. -/
def isGiven : String × Json → Bool
  | (_, .null) => false
  | _ => true

namespace Effect

variable {σ : Type} (effect : String × Json → Except Error (σ → σ))

/-- The change that an option makes, none if it cannot be set. -/
def act (s : σ) (x : String × Json) : σ :=
  match effect x with
  | .ok f => f s
  | .error _ => s

/-- The options that are given can be set, and be reported. -/
def Accepts (options : List (String × Json)) : Prop :=
  ∀ x ∈ options.filter isGiven, (∃ f, effect x = .ok f) ∧ x.2.isWritable = true

/-- The changes of the options that are given, in order. -/
def actAll (options : List (String × Json)) (s : σ) : σ :=
  (options.filter isGiven).foldl (act effect) s

/-- Options of different names commute, and setting one again changes nothing. -/
structure Independent : Prop where
  comm : ∀ x y f g, x.1 ≠ y.1 → effect x = .ok f → effect y = .ok g → ∀ s, f (g s) = g (f s)
  idem : ∀ x f, effect x = .ok f → ∀ s, f (f s) = f s

variable {effect}

theorem act_of_eq_ok {x : String × Json} {f : σ → σ} (h : effect x = .ok f) (s : σ) :
    act effect s x = f s := by
  rw [act, h]

theorem Accepts.perm {l l' : List (String × Json)} (h : Accepts effect l) (hperm : l'.Perm l) :
    Accepts effect l' := fun x hx => h x ((hperm.filter _).mem_iff.1 hx)

theorem filter_isGiven_idem (l : List (String × Json)) :
    (l.filter isGiven).filter isGiven = l.filter isGiven := by
  rw [List.filter_filter]
  simp

/-- A change that commutes with those of a sequence goes through it. -/
theorem foldl_act_comm {f : σ → σ} {l : List (String × Json)}
    (hf : ∀ x ∈ l, ∀ s, f (act effect s x) = act effect (f s) x) (s : σ) :
    f (l.foldl (act effect) s) = l.foldl (act effect) (f s) := by
  induction l generalizing s with
  | nil => rfl
  | cons x xs ih =>
    rw [List.foldl_cons, List.foldl_cons, ih fun y hy => hf y (List.mem_cons_of_mem _ hy),
      hf x List.mem_cons_self]

theorem foldl_act_eq_self {l : List (String × Json)} {s : σ} (h : ∀ x ∈ l, act effect s x = s) :
    l.foldl (act effect) s = s := by
  induction l with
  | nil => rfl
  | cons x xs ih =>
    rw [List.foldl_cons, h x List.mem_cons_self]
    exact ih fun y hy => h y (List.mem_cons_of_mem _ hy)

namespace Independent

variable (h : Independent effect)
include h

theorem act_idem (s : σ) (x : String × Json) :
    act effect (act effect s x) x = act effect s x := by
  unfold act
  cases hx : effect x with
  | error e => rfl
  | ok f => exact h.idem x f hx s

theorem act_comm {x y : String × Json} (hne : x.1 ≠ y.1) (s : σ) :
    act effect (act effect s x) y = act effect (act effect s y) x := by
  unfold act
  cases hx : effect x with
  | error e => rfl
  | ok f =>
    cases hy : effect y with
    | error e => rfl
    | ok g => exact h.comm y x g f hne.symm hy hx s

/-- Of options with distinct names any two commute. -/
theorem act_comm_of_mem {l : List (String × Json)} (hnodup : (l.map Prod.fst).Nodup) :
    ∀ x ∈ l, ∀ y ∈ l, ∀ s, act effect (act effect s x) y = act effect (act effect s y) x := by
  intro x hx y hy s
  by_cases hname : x.1 = y.1
  · rw [List.inj_on_of_nodup_map hnodup hx hy hname]
  · exact h.act_comm hname s

theorem actAll_perm {l l' : List (String × Json)} (hnodup : (l.map Prod.fst).Nodup)
    (hperm : l'.Perm l) (s : σ) : actAll effect l' s = actAll effect l s := by
  have hmem : ∀ x ∈ l'.filter isGiven, x ∈ l := by
    intro x hx
    exact hperm.mem_iff.1 (List.mem_of_mem_filter hx)
  exact (hperm.filter _).foldl_eq' (fun x hx y hy z =>
    h.act_comm_of_mem hnodup x (hmem x hx) y (hmem y hy) z) s

/-- Each option of a sequence has been set when all have been, so none changes anything more. -/
theorem act_foldl {l : List (String × Json)} (hnodup : (l.map Prod.fst).Nodup) (s : σ)
    {x : String × Json} (hx : x ∈ l) :
    act effect (l.foldl (act effect) s) x = l.foldl (act effect) s := by
  have hcomm := h.act_comm_of_mem hnodup
  induction l generalizing s with
  | nil => cases hx
  | cons y ys ih =>
    rw [List.foldl_cons]
    obtain rfl | hx := List.mem_cons.1 hx
    · -- Set again behind all the others, it goes through them and meets itself.
      have hthrough : act effect (ys.foldl (act effect) (act effect s x)) x =
          ys.foldl (act effect) (act effect (act effect s x) x) :=
        foldl_act_comm (f := fun s => act effect s x)
          (fun z hz t => hcomm z (List.mem_cons_of_mem _ hz) x List.mem_cons_self t) _
      rw [hthrough, h.act_idem]
    · rw [List.map_cons, List.nodup_cons] at hnodup
      exact ih hnodup.2 _ hx (h.act_comm_of_mem hnodup.2)

theorem actAll_again {l : List (String × Json)} (hnodup : (l.map Prod.fst).Nodup) (s : σ) :
    actAll effect l (actAll effect l s) = actAll effect l s := by
  have hgiven : ((l.filter isGiven).map Prod.fst).Nodup :=
    hnodup.sublist (List.filter_sublist.map _)
  exact foldl_act_eq_self fun x hx => h.act_foldl hgiven s hx

end Independent

section Run

variable {change : String → Json → Except Error (Update σ Unit)}

theorem overrideEach_cons {name : String} {value : Json} (rest : List (String × Json))
    (hvalue : value ≠ .null) : overrideEach change id ((name, value) :: rest) = (do
      let u ← Update.ofExcept (change name value)
      u
      Update.ofExcept value.report
      overrideEach change id rest) := by
  rw [overrideEach]
  · rfl
  · exact hvalue

/-- Options that are set one after the other keep what the change of each of them keeps. -/
theorem keeps_overrideEach {P : σ → Prop} {options : List (String × Json)}
    (h : ∀ x ∈ options, ∀ u, change x.1 x.2 = .ok u → Keeps P u) :
    Keeps P (overrideEach change id options) := by
  induction options with
  | nil => exact keeps_pure _
  | cons x rest ih =>
    obtain ⟨hx, hrest⟩ := List.forall_mem_cons.1 h
    obtain ⟨name, value⟩ := x
    by_cases hvalue : value = .null
    · subst hvalue
      exact ih hrest
    · rw [overrideEach_cons rest hvalue]
      exact keeps_ofExcept_bind fun u hu => (hx u hu).bind fun _ =>
        (keeps_ofExcept _).bind fun _ => ih hrest

/-- One option and those behind it. -/
theorem runOn_overrideEach_cons_iff {name : String} {value : Json} {rest : List (String × Json)}
    (hvalue : value ≠ .null) {s s' : σ} :
    (overrideEach change id ((name, value) :: rest)).runOn s = (.ok (), s') ↔
      ∃ t, (∃ u, change name value = .ok u ∧ u.runOn s = (.ok (), t)) ∧
        value.isWritable = true ∧ (overrideEach change id rest).runOn t = (.ok (), s') := by
  rw [overrideEach_cons rest hvalue, runOn_bind_eq_ok_iff]
  have hreport : value.report = .ok () ↔ value.isWritable = true := by
    unfold Json.report
    split <;> simp_all
  constructor
  · rintro ⟨u, _, hfirst, hrun⟩
    obtain ⟨hu, rfl⟩ := runOn_ofExcept_eq_ok_iff.1 hfirst
    obtain ⟨_, t, hut, hrun⟩ := runOn_bind_eq_ok_iff.1 hrun
    obtain ⟨_, _, hreported, hrest⟩ := runOn_bind_eq_ok_iff.1 hrun
    obtain ⟨hwritable, rfl⟩ := runOn_ofExcept_eq_ok_iff.1 hreported
    exact ⟨_, ⟨u, hu, hut⟩, hreport.1 hwritable, hrest⟩
  · rintro ⟨t, ⟨u, hu, hut⟩, hwritable, hrest⟩
    refine ⟨u, s, runOn_ofExcept_eq_ok_iff.2 ⟨hu, rfl⟩, ?_⟩
    refine runOn_bind_eq_ok_iff.2 ⟨(), t, hut, runOn_bind_eq_ok_iff.2 ⟨(), t, ?_, hrest⟩⟩
    exact runOn_ofExcept_eq_ok_iff.2 ⟨hreport.2 hwritable, rfl⟩

/-- If an option changes every state in one way or fails on every one, options that are set one
after the other succeed exactly if all that are given can be set and reported, and then make their
changes in order. -/
theorem runOn_overrideEach_iff
    (hchange : ∀ name value s s',
      (∃ u, change name value = .ok u ∧ u.runOn s = (.ok (), s')) ↔
        ∃ f, effect (name, value) = .ok f ∧ s' = f s)
    {options : List (String × Json)} {s s' : σ} :
    (overrideEach change id options).runOn s = (.ok (), s') ↔
      Accepts effect options ∧ s' = actAll effect options s := by
  induction options generalizing s with
  | nil =>
    rw [overrideEach, runOn_pure_eq_ok_iff]
    simp [Accepts, actAll]
  | cons x rest ih =>
    obtain ⟨name, value⟩ := x
    by_cases hvalue : value = .null
    · subst hvalue
      exact ih
    · have hgiven : isGiven (name, value) = true := by
        cases value <;> first | rfl | exact absurd rfl hvalue
      rw [runOn_overrideEach_cons_iff hvalue]
      simp only [hchange, ih, Accepts, actAll, List.filter_cons_of_pos hgiven, List.forall_mem_cons,
        List.foldl_cons]
      constructor
      · rintro ⟨t, ⟨f, hf, rfl⟩, hwritable, hrest, rfl⟩
        exact ⟨⟨⟨⟨f, hf⟩, hwritable⟩, hrest⟩, by rw [act_of_eq_ok hf]⟩
      · rintro ⟨⟨⟨⟨f, hf⟩, hwritable⟩, hrest⟩, rfl⟩
        exact ⟨f s, ⟨f, hf, rfl⟩, hwritable, hrest, by rw [act_of_eq_ok hf]⟩

end Run

end Effect

end BootGuard
