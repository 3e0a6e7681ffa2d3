/-
  Walking a graph of named computations.

  A walk runs the nodes in their order (`walk_eq_ok_iff`). A visit does all that it is asked for
  (`mem_of_visit`); where no node depends on a later one, the order is that in which the nodes
  were added (`Layered.order_eq`).
-/
import BootGuard.Measure.Graph
import BootGuard.Proofs.Outcome
import Mathlib.Data.List.Nodup

namespace BootGuard.Measure.Graph

variable {α β σ : Type} {g g' : Graph α}

/-! ## Nodes -/

/-- No two nodes have the same name. -/
def Distinct (g : Graph α) : Prop := (g.nodes.map Node.name).Nodup

theorem name_of_find? {name : String} {n : Node α} (h : g.find? name = some n) :
    n.name = name := by
  have := List.find?_some h
  exact of_decide_eq_true this

/-- A node is found under its name. -/
theorem Distinct.find?_eq (hg : g.Distinct) {n : Node α} (hn : n ∈ g.nodes) :
    g.find? n.name = some n := by
  cases hfind : g.find? n.name with
  | none =>
    have := List.find?_eq_none.1 hfind n hn
    simp at this
  | some m =>
    have hm := List.mem_of_find?_eq_some hfind
    rw [List.inj_on_of_nodup_map hg hm hn (name_of_find? hfind)]

theorem add_eq_ok_iff {name : String} {task : α} {deps : List String} :
    g.add name task deps = .ok g' ↔
      (∀ n ∈ g.nodes, n.name ≠ name) ∧ g' = ⟨g.nodes ++ [⟨name, task, deps⟩]⟩ := by
  have hcontains : g.contains name = true ↔ ¬ ∀ n ∈ g.nodes, n.name ≠ name := by
    simp [contains, find?]
  unfold add
  split
  · rename_i h
    have := hcontains.1 h
    simp [this]
  · rename_i h
    have hnew := Decidable.of_not_not fun hn => h (hcontains.2 hn)
    simp only [Except.ok.injEq, eq_comm (b := g')]
    exact ⟨fun h => ⟨hnew, h⟩, fun h => h.2⟩

/-- Adding a node keeps the names distinct. -/
theorem Distinct.add {name : String} {task : α} {deps : List String} (hg : g.Distinct)
    (h : g.add name task deps = .ok g') : g'.Distinct := by
  obtain ⟨hnew, rfl⟩ := add_eq_ok_iff.1 h
  unfold Distinct at hg ⊢
  rw [List.map_append, List.nodup_append]
  refine ⟨hg, by simp, ?_⟩
  intro a ha b hb
  obtain ⟨n, hn, rfl⟩ := List.mem_map.1 ha
  rw [List.mem_singleton.1 hb]
  exact hnew n hn

/-! ## The order -/

/-- A visit keeps the nodes that are done, and does all that it is asked for. -/
theorem mem_of_visit {depth : Nat} {entered done names done' : List String}
    (h : visit g depth entered done names = .ok done') :
    (∀ n ∈ done, n ∈ done') ∧ ∀ n ∈ names, n ∈ done' := by
  fun_induction visit g depth entered done names generalizing done' with
  | case1 _ entered done =>
    cases h
    exact ⟨fun _ hn => hn, by simp⟩
  | case2 => cases h
  | case3 entered done depth name rest hdone ih =>
    obtain ⟨hkeep, hrest⟩ := ih h
    refine ⟨hkeep, fun n hn => ?_⟩
    obtain rfl | hn := List.mem_cons.1 hn
    · exact hkeep _ hdone
    · exact hrest n hn
  | case4 => cases h
  | case5 => cases h
  | case6 => cases h
  | case7 entered done depth name rest _ _ n _ deps' hdeps ih1 ih2 =>
    obtain ⟨hkeep, _⟩ := ih1 hdeps
    obtain ⟨hkeep', hrest⟩ := ih2 h
    refine ⟨fun m hm => hkeep' m (List.mem_append_left _ (hkeep m hm)), fun m hm => ?_⟩
    obtain rfl | hm := List.mem_cons.1 hm
    · exact hkeep' _ (List.mem_append_right _ List.mem_cons_self)
    · exact hrest m hm

/-! ## Graphs that are in order already -/

/-- The nodes depend on nodes in front of them and on nothing else. -/
def Layered (g : Graph α) : Prop :=
  ∀ front n back, g.nodes = front ++ n :: back → ∀ d ∈ n.deps, d ∈ front.map Node.name

/-- A node that depends on nodes already there may be added. -/
theorem Layered.add {name : String} {task : α} {deps : List String} (hg : g.Layered)
    (hdeps : ∀ d ∈ deps, d ∈ g.nodes.map Node.name) (h : g.add name task deps = .ok g') :
    g'.Layered := by
  obtain ⟨_, rfl⟩ := add_eq_ok_iff.1 h
  intro front n back hsplit d hd
  obtain rfl | ⟨back', last, rfl⟩ := List.eq_nil_or_concat back
  · obtain ⟨hfront, hn⟩ := List.append_inj' hsplit rfl
    cases hn
    rw [← hfront]
    exact hdeps d hd
  · rw [List.concat_eq_append, ← List.cons_append, ← List.append_assoc] at hsplit
    obtain ⟨hfront, _⟩ := List.append_inj' hsplit rfl
    exact hg front n back' hfront d hd

theorem layered_empty : Layered ({} : Graph α) := by
  intro front n back hsplit
  simp at hsplit

/-- A visit of nodes that are done does nothing. -/
theorem visit_of_subset {depth : Nat} {entered done names : List String}
    (h : ∀ n ∈ names, n ∈ done) : visit g (depth + 1) entered done names = .ok done := by
  induction names with
  | nil => rw [visit]
  | cons name names ih =>
    rw [visit, if_pos (h name List.mem_cons_self)]
    exact ih fun n hn => h n (List.mem_cons_of_mem _ hn)

/-- The next node is done if what it depends on is: such a node and its dependencies are no more
than two calls. -/
theorem visit_cons_of_deps {depth : Nat} {done rest : List String} {n : Node α}
    (hfind : g.find? n.name = some n) (hnew : n.name ∉ done) (hdeps : ∀ d ∈ n.deps, d ∈ done) :
    visit g (depth + 2) [] done (n.name :: rest) =
      visit g (depth + 2) [] (done ++ [n.name]) rest := by
  rw [visit, if_neg hnew, if_neg List.not_mem_nil]
  split
  · rename_i hnone
    rw [hfind] at hnone
    cases hnone
  · rename_i m hsome
    rw [hfind] at hsome
    cases hsome
    rw [visit_of_subset hdeps]

/-- The nodes behind `front` are done in the order in which they stand. -/
theorem Layered.visit_eq (hg : g.Distinct) (h : g.Layered) (depth : Nat)
    (front back : List (Node α)) (hsplit : g.nodes = front ++ back) :
    visit g (depth + 2) [] (front.map Node.name) (back.map Node.name) =
      .ok (g.nodes.map Node.name) := by
  induction back generalizing front with
  | nil =>
    rw [List.map_nil, visit, hsplit, List.append_nil]
  | cons n back ih =>
    have hfind := hg.find?_eq (n := n) (by simp [hsplit])
    have hnew : n.name ∉ front.map Node.name := by
      intro hmem
      unfold Distinct at hg
      rw [hsplit, List.map_append, List.map_cons, List.nodup_append] at hg
      exact hg.2.2 _ hmem _ List.mem_cons_self rfl
    have hrest : g.nodes = front ++ [n] ++ back := by
      rw [hsplit, List.append_assoc, List.singleton_append]
    rw [List.map_cons, visit_cons_of_deps hfind hnew (h front n back hsplit)]
    have := ih (front ++ [n]) hrest
    rwa [List.map_append] at this

/-- The order of a layered graph is that of its nodes, however little deep the search may go. -/
theorem Layered.order_eq (hg : g.Distinct) (h : g.Layered) {depth : Nat} (hdepth : 2 ≤ depth) :
    g.order depth = .ok (g.nodes.map Node.name) := by
  obtain ⟨depth, rfl⟩ := Nat.exists_eq_add_of_le' hdepth
  exact h.visit_eq hg depth [] g.nodes rfl

/-! ## Walks -/

theorem runAll_cons_eq_ok_iff {run : α → Update σ β} {name : String} {names : List String}
    {s s' : σ} {results : List (String × β)} :
    (g.runAll run (name :: names)).runOn s = (.ok results, s') ↔
      ∃ n b t rest, g.find? name = some n ∧ (run n.task).runOn s = (.ok b, t) ∧
        (g.runAll run names).runOn t = (.ok rest, s') ∧ results = (name, b) :: rest := by
  rw [runAll]
  cases hn : g.find? name with
  | none => simp [Update.runOn_throw]
  | some n =>
    simp only [Update.runOn_bind_eq_ok_iff, Update.runOn_pure_eq_ok_iff, Option.some.injEq]
    constructor
    · intro h
      obtain ⟨b, t, hb, rest, _, hrest, rfl, rfl⟩ := h
      exact ⟨n, b, t, rest, rfl, hb, hrest, rfl⟩
    · intro h
      obtain ⟨_, b, t, rest, rfl, hb, hrest, rfl⟩ := h
      exact ⟨b, t, hb, rest, s', hrest, rfl, rfl⟩

/-- A run over some nodes and then over others. -/
theorem runAll_append_eq_ok_iff {run : α → Update σ β} {names names' : List String} {s s' : σ}
    {results : List (String × β)} :
    (g.runAll run (names ++ names')).runOn s = (.ok results, s') ↔
      ∃ first t rest, (g.runAll run names).runOn s = (.ok first, t) ∧
        (g.runAll run names').runOn t = (.ok rest, s') ∧ results = first ++ rest := by
  induction names generalizing s results with
  | nil =>
    simp only [List.nil_append, runAll, Update.runOn_pure_eq_ok_iff]
    constructor
    · intro h
      exact ⟨[], s, results, ⟨rfl, rfl⟩, h, rfl⟩
    · intro hall
      obtain ⟨_, _, _, ⟨rfl, rfl⟩, h, rfl⟩ := hall
      exact h
  | cons name names ih =>
    simp only [List.cons_append, runAll_cons_eq_ok_iff, ih]
    constructor
    · intro hall
      obtain ⟨n, b, t, _, hn, hb, ⟨first, u, rest, hfirst, hrest, rfl⟩, rfl⟩ := hall
      exact ⟨_, u, rest, ⟨n, b, t, first, hn, hb, hfirst, rfl⟩, hrest, rfl⟩
    · intro hall
      obtain ⟨_, u, rest, ⟨n, b, t, first, hn, hb, hfirst, rfl⟩, hrest, rfl⟩ := hall
      exact ⟨n, b, t, first ++ rest, hn, hb, ⟨first, u, rest, hfirst, hrest, rfl⟩, rfl⟩

/-- A run over one node. -/
theorem runAll_single_eq_ok_iff {run : α → Update σ β}
    {n : Node α} {s s' : σ} {results : List (String × β)} (hn : g.find? n.name = some n) :
    (g.runAll run [n.name]).runOn s = (.ok results, s') ↔
      ∃ b, (run n.task).runOn s = (.ok b, s') ∧ results = [(n.name, b)] := by
  rw [runAll_cons_eq_ok_iff]
  constructor
  · intro h
    obtain ⟨m, b, _, _, hm, hb, hnil, rfl⟩ := h
    obtain ⟨rfl, rfl⟩ := Update.runOn_pure_eq_ok_iff.1 hnil
    rw [hn] at hm
    cases hm
    exact ⟨b, hb, rfl⟩
  · intro h
    obtain ⟨b, hb, rfl⟩ := h
    exact ⟨n, b, s', [], hn, hb, Update.runOn_pure_eq_ok_iff.2 ⟨rfl, rfl⟩, rfl⟩

/-- A walk is a run over the names in their order. -/
theorem walk_eq_ok_iff {depth : Nat} {run : α → Update σ β} {s s' : σ}
    {results : List (String × β)} :
    (g.walk depth run).runOn s = (.ok results, s') ↔
      ∃ names, g.order depth = .ok names ∧ (g.runAll run names).runOn s = (.ok results, s') := by
  rw [walk, Update.runOn_bind_eq_ok_iff]
  constructor
  · intro h
    obtain ⟨names, t, horder, hrun⟩ := h
    obtain ⟨hnames, rfl⟩ := Update.runOn_ofExcept_eq_ok_iff.1 horder
    exact ⟨names, hnames, hrun⟩
  · intro h
    obtain ⟨names, hnames, hrun⟩ := h
    exact ⟨names, s, Update.runOn_ofExcept_eq_ok_iff.2 ⟨hnames, rfl⟩, hrun⟩

end BootGuard.Measure.Graph
