/-
  The order of a graph: every node behind what it depends on.

  One visit adds nodes that are neither done nor waited for, each behind its dependencies
  (`extends_of_visit`), so an order that is found is one. A visit that fails shows why: the nodes
  that wait are a chain that ends at the one that is visited, so one that waits for itself is on
  a cycle, and a chain that is too long is there (`fault_of_visit`). Where there is no other
  fault, the chains that a search comes to wait in are known beforehand: what is done is what the
  names visited so far lead to (`Reached`), and a node is entered where none of them leads to it
  (`Waits`). Together these say when there is an order (`exists_order_iff`) and what it is;
  `walk_inOrder` adds what a walk does with it.
-/
import BootGuard.Proofs.Measure.Graph
import Mathlib.Data.List.Perm.Subperm
import Mathlib.Logic.Relation

namespace BootGuard.Measure.Graph

open Relation

variable {α β σ : Type} {g : Graph α}

/-! ## Dependencies -/

/-- The node `a` depends on the name `b`. -/
def DependsOn (g : Graph α) (a b : String) : Prop := ∃ n ∈ g.nodes, n.name = a ∧ b ∈ n.deps

/-- All that nodes depend on are nodes. -/
def Closed (g : Graph α) : Prop := ∀ a b, g.DependsOn a b → b ∈ g.nodes.map Node.name

/-- No node depends on itself, be it through others. -/
def Acyclic (g : Graph α) : Prop := ∀ a, ¬ TransGen g.DependsOn a a

/-- Every name stands behind those that it depends on. -/
def Sorted (g : Graph α) (names : List String) : Prop :=
  ∀ front a back, names = front ++ a :: back → ∀ b, g.DependsOn a b → b ∈ front

/-- Names of which each depends on the one in front of it. -/
def Chain (g : Graph α) (names : List String) : Prop := names.IsChain fun b a => g.DependsOn a b

/-- What is wrong with a graph that a search of some depth finds no order of. -/
inductive Fault (g : Graph α) (depth : Nat) : Error → Prop
  | cycle {a : String} (ha : TransGen g.DependsOn a a) :
      Fault g depth (.badValue (.dependencyCycle a))
  | unknown {a b : String} (h : g.DependsOn a b) (hb : b ∉ g.nodes.map Node.name) :
      Fault g depth (.badValue (.unknownDependency b))
  /-- As many nodes as may wait do so, and one more name is asked for. -/
  | deep {b : String} {chain : List String} (h : g.Chain (b :: chain)) (hnodup : chain.Nodup)
      (hlen : chain.length = depth) : Fault g depth .tooDeep

/-- Nodes that come to wait for one another where `names` are visited after `before`. Each is
among the dependencies of the one in front of it, and no name that is visited earlier leads to
it; the last one asks for a further name. -/
inductive Waits (g : Graph α) : (before names path : List String) → Prop
  | asks {before names : List String} (h : names ≠ []) : Waits g before names []
  | enters {before names front back path : List String} {n : Node α} (hn : n ∈ g.nodes)
      (hsplit : names = front ++ n.name :: back)
      (hnew : ∀ c ∈ before ++ front, ¬ ReflTransGen g.DependsOn c n.name)
      (h : Waits g (before ++ front) n.deps path) : Waits g before names (n.name :: path)

/-- So many nodes come to wait for one another, where they are visited as they were added. -/
def Deep (g : Graph α) (depth : Nat) : Prop :=
  ∃ path, g.Waits [] (g.nodes.map Node.name) path ∧ path.length = depth

variable {a b : String}

theorem Distinct.dependsOn_iff (hg : g.Distinct) {n : Node α} (hn : g.find? a = some n) :
    g.DependsOn a b ↔ b ∈ n.deps := by
  constructor
  · intro h
    obtain ⟨m, hm, rfl, hb⟩ := h
    rw [hg.find?_eq hm] at hn
    cases hn
    exact hb
  · intro hb
    exact ⟨n, List.mem_of_find?_eq_some hn, name_of_find? hn, hb⟩

theorem mem_of_find? {n : Node α} (h : g.find? a = some n) : a ∈ g.nodes.map Node.name :=
  List.mem_map.2 ⟨n, List.mem_of_find?_eq_some h, name_of_find? h⟩

theorem notMem_of_find? (h : g.find? a = none) : a ∉ g.nodes.map Node.name := by
  intro ha
  obtain ⟨n, hn, rfl⟩ := List.mem_map.1 ha
  simpa using List.find?_eq_none.1 h n hn

theorem sorted_nil : g.Sorted [] := by
  intro front a back h
  simp at h

/-- What stands in a chain leads to the name in front of it. -/
theorem Chain.transGen {chain : List String} (h : g.Chain (b :: chain)) (ha : a ∈ chain) :
    TransGen g.DependsOn a b := by
  induction chain generalizing b with
  | nil => cases ha
  | cons c chain ih =>
    obtain ⟨hcb, hchain⟩ := List.isChain_cons_cons.1 h
    obtain rfl | ha := List.mem_cons.1 ha
    · exact .single hcb
    · exact (ih hchain ha).tail hcb

/-- There are as many nodes as stand in a chain. -/
theorem Chain.length_le {chain : List String} (h : g.Chain (b :: chain)) (hnodup : chain.Nodup) :
    chain.length ≤ g.nodes.length := by
  have hnodes : ∀ a ∈ chain, a ∈ g.nodes.map Node.name := by
    intro a ha
    obtain ⟨c, hc, _⟩ := TransGen.head'_iff.1 (h.transGen ha)
    obtain ⟨n, hn, rfl, _⟩ := hc
    exact List.mem_map_of_mem hn
  simpa using (hnodup.subperm hnodes).length_le

/-- A node may follow all that it depends on. -/
theorem Sorted.concat {names : List String} (h : g.Sorted names)
    (ha : ∀ b, g.DependsOn a b → b ∈ names) : g.Sorted (names ++ [a]) := by
  intro front c back hsplit b hb
  obtain rfl | ⟨back', last, rfl⟩ := List.eq_nil_or_concat back
  · obtain ⟨rfl, hlast⟩ := List.append_inj' hsplit rfl
    cases hlast
    exact ha b hb
  · rw [List.concat_eq_append, ← List.cons_append, ← List.append_assoc] at hsplit
    obtain ⟨hfront, _⟩ := List.append_inj' hsplit rfl
    exact h front c back' hfront b hb

/-! ## One visit -/

/-- What a visit does to the nodes that are done: those it adds were not waited for, none is
there twice, and each is behind what it depends on. -/
structure Extends (g : Graph α) (entered done done' : List String) : Prop where
  added : ∀ a ∈ done', a ∈ done ∨ (a ∈ g.nodes.map Node.name ∧ a ∉ entered)
  nodup : done.Nodup → done'.Nodup
  sorted : g.Sorted done → g.Sorted done'

theorem extends_refl (g : Graph α) (entered done : List String) :
    g.Extends entered done done where
  added _ ha := .inl ha
  nodup h := h
  sorted h := h

/-- A node that is done behind its dependencies, and then further nodes. -/
theorem Extends.visit {entered done deps done' : List String}
    (ha : a ∈ g.nodes.map Node.name) (hdone : a ∉ done) (hentered : a ∉ entered)
    (hdeps : ∀ b, g.DependsOn a b → b ∈ deps) (h : g.Extends (a :: entered) done deps)
    (h' : g.Extends entered (deps ++ [a]) done') : g.Extends entered done done' where
  added := by
    intro c hc
    obtain hc | hc := h'.added c hc
    · obtain hc | hc := List.mem_append.1 hc
      · obtain hc | ⟨hnode, hout⟩ := h.added c hc
        · exact .inl hc
        · exact .inr ⟨hnode, fun hmem => hout (List.mem_cons_of_mem _ hmem)⟩
      · rw [List.mem_singleton.1 hc]
        exact .inr ⟨ha, hentered⟩
    · exact .inr hc
  nodup := by
    intro hnodup
    have hnew : a ∉ deps := by
      intro hmem
      obtain hmem | ⟨_, hout⟩ := h.added a hmem
      · exact hdone hmem
      · exact hout List.mem_cons_self
    refine h'.nodup (List.nodup_append.2 ⟨h.nodup hnodup, List.nodup_singleton a, ?_⟩)
    rintro c hc _ hlast rfl
    exact hnew (List.mem_singleton.1 hlast ▸ hc)
  sorted := fun hsorted => h'.sorted ((h.sorted hsorted).concat hdeps)

theorem extends_of_visit (hg : g.Distinct) {depth : Nat} {entered done names done' : List String}
    (h : visit g depth entered done names = .ok done') : g.Extends entered done done' := by
  fun_induction visit g depth entered done names generalizing done' with
  | case1 _ entered done =>
    cases h
    exact extends_refl g entered done
  | case2 => cases h
  | case3 _ _ _ _ _ _ ih => exact ih h
  | case4 => cases h
  | case5 => cases h
  | case6 => cases h
  | case7 entered done depth a rest hdone hentered n hn deps hdeps ih1 ih2 =>
    refine (ih1 hdeps).visit (mem_of_find? hn) hdone hentered ?_ (ih2 h)
    intro b hb
    exact (mem_of_visit hdeps).2 b ((hg.dependsOn_iff hn).1 hb)

/-- A visit fails only because of a fault, if the nodes that wait are a chain that ends at any of
those that are visited. -/
theorem fault_of_visit (hg : g.Distinct) {depth limit : Nat} {entered done names : List String}
    {e : Error} (hchain : ∀ b ∈ names, g.Chain (b :: entered)) (hnodup : entered.Nodup)
    (hlimit : entered.length + depth = limit)
    (hknown : ∀ b ∈ names, b ∈ g.nodes.map Node.name ∨ ∃ a, g.DependsOn a b)
    (h : visit g depth entered done names = .error e) : g.Fault limit e := by
  fun_induction visit g depth entered done names with
  | case1 => cases h
  | case2 entered _ a _ =>
    cases h
    exact .deep (hchain a List.mem_cons_self) hnodup hlimit
  | case3 _ _ _ _ _ _ ih =>
    exact ih (fun b hb => hchain b (List.mem_cons_of_mem _ hb)) hnodup hlimit
      (fun b hb => hknown b (List.mem_cons_of_mem _ hb)) h
  | case4 entered _ _ a _ _ hentered =>
    cases h
    exact .cycle ((hchain a List.mem_cons_self).transGen hentered)
  | case5 _ _ _ a _ _ _ hn =>
    cases h
    have hnot := notMem_of_find? hn
    obtain hnode | ⟨c, hc⟩ := hknown a List.mem_cons_self
    · exact absurd hnode hnot
    · exact .unknown hc hnot
  | case6 entered _ _ a _ _ hentered n hn _ hdeps ih =>
    cases h
    refine ih ?_ (List.nodup_cons.2 ⟨hentered, hnodup⟩) ?_ ?_ hdeps
    · intro b hb
      exact List.isChain_cons_cons.2
        ⟨(hg.dependsOn_iff hn).2 hb, hchain a List.mem_cons_self⟩
    · rw [List.length_cons]
      omega
    · exact fun b hb => .inr ⟨a, (hg.dependsOn_iff hn).2 hb⟩
  | case7 _ _ _ _ _ _ _ _ _ _ _ _ ih2 =>
    exact ih2 (fun b hb => hchain b (List.mem_cons_of_mem _ hb)) hnodup hlimit
      (fun b hb => hknown b (List.mem_cons_of_mem _ hb)) h

/-! ## How deep a visit goes -/

/-- What is done is what the names visited so far lead to. -/
def Reached (g : Graph α) (before done : List String) : Prop :=
  ∀ b, b ∈ done ↔ ∃ a ∈ before, ReflTransGen g.DependsOn a b

/-- A name that is done has been reached already. -/
theorem Reached.concat_of_mem {before done : List String} (h : g.Reached before done)
    (ha : a ∈ done) : g.Reached (before ++ [a]) done := by
  intro b
  rw [h b]
  constructor
  · rintro ⟨c, hc, hcb⟩
    exact ⟨c, List.mem_append_left _ hc, hcb⟩
  · rintro ⟨c, hc, hcb⟩
    obtain hc | hc := List.mem_append.1 hc
    · exact ⟨c, hc, hcb⟩
    · obtain ⟨d, hd, hda⟩ := (h a).1 ha
      rw [List.mem_singleton.1 hc] at hcb
      exact ⟨d, hd, hda.trans hcb⟩

/-- A node behind its dependencies adds itself to what these lead to. -/
theorem Reached.concat_of_deps {before deps done : List String}
    (h : g.Reached (before ++ deps) done) (hdeps : ∀ b, g.DependsOn a b ↔ b ∈ deps) :
    g.Reached (before ++ [a]) (done ++ [a]) := by
  intro b
  rw [List.mem_append, h b, List.mem_singleton]
  constructor
  · rintro (⟨c, hc, hcb⟩ | rfl)
    · obtain hc | hc := List.mem_append.1 hc
      · exact ⟨c, List.mem_append_left _ hc, hcb⟩
      · exact ⟨a, List.mem_append_right _ List.mem_cons_self, .head ((hdeps c).2 hc) hcb⟩
    · exact ⟨b, List.mem_append_right _ List.mem_cons_self, .refl⟩
  · rintro ⟨c, hc, hcb⟩
    obtain hc | hc := List.mem_append.1 hc
    · exact .inl ⟨c, List.mem_append_left _ hc, hcb⟩
    · rw [List.mem_singleton.1 hc] at hcb
      obtain rfl | ⟨d, had, hdb⟩ := ReflTransGen.cases_head hcb
      · exact .inr rfl
      · exact .inl ⟨d, List.mem_append_right _ ((hdeps d).1 had), hdb⟩

theorem reached_of_visit (hg : g.Distinct) {depth : Nat}
    {before entered done names done' : List String} (hdone : g.Reached before done)
    (h : visit g depth entered done names = .ok done') : g.Reached (before ++ names) done' := by
  fun_induction visit g depth entered done names generalizing before done' with
  | case1 =>
    cases h
    rwa [List.append_nil]
  | case2 => cases h
  | case3 _ _ _ a rest ha ih =>
    rw [List.append_cons]
    exact ih (hdone.concat_of_mem ha) h
  | case4 => cases h
  | case5 => cases h
  | case6 => cases h
  | case7 _ _ _ a rest _ _ n hn _ hdeps ih1 ih2 =>
    rw [List.append_cons]
    exact ih2 ((ih1 hdone hdeps).concat_of_deps fun b => hg.dependsOn_iff hn) h

theorem not_waits_nil {before path : List String} : ¬ g.Waits before [] path := by
  intro h
  cases h with
  | asks h => exact h rfl
  | enters _ hsplit => simp at hsplit

/-- The first node that waits is the first one that is visited, or one behind it. -/
theorem waits_cons_iff {before rest path : List String} {c : String} :
    g.Waits before (a :: rest) (c :: path) ↔
      (∃ n ∈ g.nodes, n.name = a ∧ c = a ∧ (∀ d ∈ before, ¬ ReflTransGen g.DependsOn d a) ∧
        g.Waits before n.deps path) ∨
      g.Waits (before ++ [a]) rest (c :: path) := by
  constructor
  · intro h
    cases h with
    | @enters _ _ front back _ n hn hsplit hnew h =>
      cases front with
      | nil =>
        rw [List.append_nil] at hnew h
        obtain ⟨rfl, rfl⟩ := List.cons.inj hsplit
        exact .inl ⟨n, hn, rfl, rfl, hnew, h⟩
      | cons d front =>
        rw [List.append_cons] at hnew h
        obtain ⟨rfl, rfl⟩ := List.cons.inj hsplit
        exact .inr (.enters hn rfl hnew h)
  · rintro (⟨n, hn, rfl, rfl, hnew, h⟩ | h)
    · refine .enters hn (List.nil_append _).symm ?_ ?_
      · rwa [List.append_nil]
      · rwa [List.append_nil]
    · cases h with
      | @enters _ _ front back _ n hn hsplit hnew h =>
        rw [hsplit]
        rw [← List.append_cons] at hnew h
        exact .enters hn rfl hnew h

/-- More nodes than may wait come to do so below the first name or behind it. -/
theorem exists_waits_cons_iff {before rest : List String} {depth : Nat} :
    (∃ path, g.Waits before (a :: rest) path ∧ path.length = depth + 1) ↔
      (∃ n ∈ g.nodes, n.name = a ∧ (∀ d ∈ before, ¬ ReflTransGen g.DependsOn d a) ∧
        ∃ path, g.Waits before n.deps path ∧ path.length = depth) ∨
      ∃ path, g.Waits (before ++ [a]) rest path ∧ path.length = depth + 1 := by
  constructor
  · rintro ⟨_ | ⟨c, path⟩, h, hlen⟩
    · cases hlen
    · obtain ⟨n, hn, hname, _, hnew, hpath⟩ | h := waits_cons_iff.1 h
      · exact .inl ⟨n, hn, hname, hnew, path, hpath, Nat.succ.inj hlen⟩
      · exact .inr ⟨_, h, hlen⟩
  · rintro (⟨n, hn, rfl, hnew, path, h, rfl⟩ | ⟨_ | ⟨c, path⟩, h, hlen⟩)
    · exact ⟨n.name :: path, waits_cons_iff.2 (.inl ⟨n, hn, rfl, rfl, hnew, h⟩), rfl⟩
    · cases hlen
    · exact ⟨_, waits_cons_iff.2 (.inr h), hlen⟩

/-- Below a node that is entered its dependencies are visited: the nodes that wait lead to them, and
they are nodes. -/
theorem below_of_find? (hg : g.Distinct) (hclosed : g.Closed) {entered : List String} {n : Node α}
    (hn : g.find? a = some n) (hpath : ∀ c ∈ entered, TransGen g.DependsOn c a) :
    (∀ c ∈ a :: entered, ∀ b ∈ n.deps, TransGen g.DependsOn c b) ∧
      ∀ b ∈ n.deps, b ∈ g.nodes.map Node.name := by
  refine ⟨fun c hc b hb => ?_, fun b hb => hclosed a b ((hg.dependsOn_iff hn).2 hb)⟩
  have hab := (hg.dependsOn_iff hn).2 hb
  obtain rfl | hc := List.mem_cons.1 hc
  · exact .single hab
  · exact (hpath c hc).tail hab

/-- Where there is no cycle and every dependency is a node, a visit ends well unless more nodes
than may wait come to do so. -/
theorem exists_visit_iff (hg : g.Distinct) (hclosed : g.Closed) (hacyclic : g.Acyclic) {depth : Nat}
    {before entered done names : List String} (hdone : g.Reached before done)
    (hpath : ∀ a ∈ entered, ∀ b ∈ names, TransGen g.DependsOn a b)
    (hnames : ∀ b ∈ names, b ∈ g.nodes.map Node.name) :
    (∃ done', visit g depth entered done names = .ok done') ↔
      ¬ ∃ path, g.Waits before names path ∧ path.length = depth := by
  fun_induction visit g depth entered done names generalizing before with
  | case1 =>
    refine iff_of_true ⟨_, rfl⟩ ?_
    rintro ⟨_, h, _⟩
    exact not_waits_nil h
  | case2 =>
    refine iff_of_false (by simp) (not_not_intro ⟨[], .asks ?_, rfl⟩)
    exact List.cons_ne_nil _ _
  | case3 _ _ depth a rest ha ih =>
    obtain ⟨d, hd, hda⟩ := (hdone a).1 ha
    rw [ih (hdone.concat_of_mem ha) (fun a ha b hb => hpath a ha b (List.mem_cons_of_mem _ hb))
      fun b hb => hnames b (List.mem_cons_of_mem _ hb)]
    -- `a` is behind a name that was visited before it, so no search enters it
    rw [exists_waits_cons_iff, or_iff_right]
    rintro ⟨_, _, _, hnew, _⟩
    exact hnew d hd hda
  | case4 _ _ _ a _ _ hentered =>
    exact absurd (hpath a hentered a List.mem_cons_self) (hacyclic a)
  | case5 _ _ _ a _ _ _ hn =>
    exact absurd (hnames a List.mem_cons_self) (notMem_of_find? hn)
  | case6 entered done depth a rest ha _ n hn _ hdeps ih =>
    obtain ⟨hpath', hnames'⟩ := below_of_find? hg hclosed hn fun c hc =>
      hpath c hc a List.mem_cons_self
    have hbelow := (not_congr (ih hdone hpath' hnames')).1 (by simp [hdeps])
    refine iff_of_false (by simp) (not_not_intro ?_)
    exact exists_waits_cons_iff.2 (.inl ⟨n, List.mem_of_find?_eq_some hn, name_of_find? hn,
      fun d hd hda => ha ((hdone a).2 ⟨d, hd, hda⟩), not_not.1 hbelow⟩)
  | case7 entered done depth a rest ha _ n hn deps hdeps ih1 ih2 =>
    obtain ⟨hpath', hnames'⟩ := below_of_find? hg hclosed hn fun c hc =>
      hpath c hc a List.mem_cons_self
    have hbelow := (ih1 hdone hpath' hnames').1 ⟨deps, hdeps⟩
    have hreached := reached_of_visit hg hdone hdeps
    rw [ih2 (hreached.concat_of_deps fun b => hg.dependsOn_iff hn)
      (fun c hc b hb => hpath c hc b (List.mem_cons_of_mem _ hb))
      fun b hb => hnames b (List.mem_cons_of_mem _ hb)]
    rw [exists_waits_cons_iff, or_iff_right]
    rintro ⟨m, hm, rfl, _, h⟩
    rw [hg.find?_eq hm] at hn
    cases hn
    exact hbelow h

/-! ## The order -/

/-- The order names every node once, behind what it depends on. -/
theorem order_spec (hg : g.Distinct) {depth : Nat} {names : List String}
    (h : g.order depth = .ok names) :
    names.Perm (g.nodes.map Node.name) ∧ g.Sorted names := by
  have hext := extends_of_visit hg h
  have hnodup : names.Nodup := hext.nodup List.nodup_nil
  refine ⟨(List.perm_ext_iff_of_nodup hnodup hg).2 fun a => ⟨fun ha => ?_, fun ha => ?_⟩,
    hext.sorted sorted_nil⟩
  · obtain hnil | ⟨hnode, _⟩ := hext.added a ha
    · cases hnil
    · exact hnode
  · exact (mem_of_visit h).2 a ha

theorem fault_of_order (hg : g.Distinct) {depth : Nat} {e : Error}
    (h : g.order depth = .error e) : g.Fault depth e :=
  fault_of_visit hg (fun b _ => .singleton b) List.nodup_nil (Nat.zero_add depth)
    (fun _ hb => .inl hb) h

/-- In sorted names a dependency stands in front. -/
theorem Sorted.idxOf_lt {names : List String} (h : g.Sorted names) (hnodup : names.Nodup)
    (hmem : ∀ a b, g.DependsOn a b → a ∈ names) (hab : g.DependsOn a b) :
    names.idxOf b < names.idxOf a := by
  obtain ⟨front, back, rfl⟩ := List.append_of_mem (hmem a b hab)
  have hb := h front a back rfl b hab
  have ha : a ∉ front := fun ha =>
    (List.nodup_append.1 hnodup).2.2 a ha a List.mem_cons_self rfl
  rw [List.idxOf_append_of_mem hb, List.idxOf_append_of_notMem ha, List.idxOf_cons_self]
  exact List.idxOf_lt_length_of_mem hb

/-- A graph whose nodes can be sorted has no cycle. -/
theorem Sorted.acyclic {names : List String} (h : g.Sorted names) (hnodup : names.Nodup)
    (hmem : ∀ a b, g.DependsOn a b → a ∈ names) : g.Acyclic := by
  intro a ha
  have hlt : ∀ c, TransGen g.DependsOn a c → names.idxOf c < names.idxOf a := by
    intro c hc
    induction hc with
    | single hac => exact h.idxOf_lt hnodup hmem hac
    | tail _ hcd ih => exact Nat.lt_trans (h.idxOf_lt hnodup hmem hcd) ih
  exact Nat.lt_irrefl _ (hlt a ha)

/-- A graph with an order has no cycle, and all its dependencies are nodes. -/
theorem closed_and_acyclic_of_order (hg : g.Distinct) {depth : Nat} {names : List String}
    (h : g.order depth = .ok names) : g.Closed ∧ g.Acyclic := by
  obtain ⟨hperm, hsorted⟩ := order_spec hg h
  have hmem : ∀ a b, g.DependsOn a b → a ∈ names := by
    intro a b hab
    obtain ⟨n, hn, rfl, _⟩ := hab
    exact hperm.mem_iff.2 (List.mem_map_of_mem hn)
  refine ⟨fun a b hab => ?_, hsorted.acyclic (hperm.nodup_iff.2 hg) hmem⟩
  obtain ⟨front, back, rfl⟩ := List.append_of_mem (hmem a b hab)
  exact hperm.mem_iff.1 (List.mem_append_left _ (hsorted front a back rfl b hab))

/-- There is an order exactly if all dependencies are nodes, there is no cycle, and no more nodes
come to wait for one another than may. -/
theorem exists_order_iff (hg : g.Distinct) {depth : Nat} :
    (∃ names, g.order depth = .ok names) ↔ g.Closed ∧ g.Acyclic ∧ ¬ g.Deep depth := by
  have hsearch (hclosed : g.Closed) (hacyclic : g.Acyclic) :
      (∃ names, g.order depth = .ok names) ↔ ¬ g.Deep depth :=
    exists_visit_iff hg hclosed hacyclic (fun b => by simp) (fun _ ha => absurd ha List.not_mem_nil)
      fun _ hb => hb
  constructor
  · intro h
    obtain ⟨names, hnames⟩ := h
    obtain ⟨hclosed, hacyclic⟩ := closed_and_acyclic_of_order hg hnames
    exact ⟨hclosed, hacyclic, (hsearch hclosed hacyclic).1 ⟨names, hnames⟩⟩
  · intro h
    obtain ⟨hclosed, hacyclic, hdeep⟩ := h
    exact (hsearch hclosed hacyclic).2 hdeep

/-- A search that may go as deep as there are nodes, and look at one more name, finds an order where
there is one. -/
theorem exists_order_of_length_lt (hg : g.Distinct) (hclosed : g.Closed) (hacyclic : g.Acyclic)
    {depth : Nat} (hlen : g.nodes.length < depth) : ∃ names, g.order depth = .ok names := by
  cases h : g.order depth with
  | ok names => exact ⟨names, rfl⟩
  | error e =>
    exfalso
    cases fault_of_order hg h with
    | cycle ha => exact hacyclic _ ha
    | unknown hab hb => exact hb (hclosed _ _ hab)
    | deep hchain hnodup hdepth =>
      have := hchain.length_le hnodup
      omega

/-! ## Chains -/

/-- A name of so many letters. -/
def letters (i : Nat) : String := String.ofList (List.replicate i 'a')

theorem length_letters (i : Nat) : (letters i).length = i := by
  rw [letters, String.length_ofList, List.length_replicate]

theorem letters_inj {i j : Nat} : letters i = letters j ↔ i = j :=
  ⟨fun h => by rw [← length_letters i, h, length_letters], congrArg letters⟩

/-- Nodes of which each depends on the next one, and the last one on nothing. -/
def chain (count : Nat) : Graph Unit where
  nodes := (List.range (count + 1)).map fun i =>
    ⟨letters i, (), if i < count then [letters (i + 1)] else []⟩

theorem names_chain (count : Nat) :
    (chain count).nodes.map Node.name = (List.range (count + 1)).map letters := by
  rw [chain, List.map_map]
  rfl

theorem dependsOn_chain_iff {count : Nat} :
    (chain count).DependsOn a b ↔ ∃ i < count, a = letters i ∧ b = letters (i + 1) := by
  constructor
  · rintro ⟨n, hn, rfl, hb⟩
    obtain ⟨i, hi, rfl⟩ := List.mem_map.1 hn
    dsimp only at hb
    split at hb
    · exact ⟨i, ‹_›, rfl, List.mem_singleton.1 hb⟩
    · cases hb
  · rintro ⟨i, hi, rfl, rfl⟩
    refine ⟨_, List.mem_map_of_mem (List.mem_range.2 (Nat.lt_succ_of_lt hi)), rfl, ?_⟩
    rw [if_pos hi]
    exact List.mem_cons_self

theorem acyclic_chain (count : Nat) : (chain count).Acyclic := by
  have hlen : ∀ a b, TransGen (chain count).DependsOn a b → a.length < b.length := by
    intro a b h
    induction h with
    | single h =>
      obtain ⟨i, _, rfl, rfl⟩ := dependsOn_chain_iff.1 h
      rw [length_letters, length_letters]
      exact Nat.lt_succ_self i
    | tail _ h ih =>
      obtain ⟨i, _, rfl, rfl⟩ := dependsOn_chain_iff.1 h
      rw [length_letters] at ih ⊢
      omega
  exact fun a ha => Nat.lt_irrefl _ (hlen a a ha)

/-- From the first node on, every node waits for the next one. -/
theorem waits_chain {count : Nat} (i k : Nat) (hik : i + k = count) (back : List String) :
    ∃ path, (chain count).Waits [] (letters i :: back) path ∧ path.length = k := by
  induction k generalizing i back with
  | zero => exact ⟨[], .asks (List.cons_ne_nil _ _), rfl⟩
  | succ k ih =>
    obtain ⟨path, h, hlen⟩ := ih (i + 1) (by omega) []
    have hi : i < count := by omega
    refine ⟨letters i :: path, ?_, congrArg Nat.succ hlen⟩
    refine .enters (n := ⟨letters i, (), [letters (i + 1)]⟩) ?_ (List.nil_append _).symm (by simp) h
    refine List.mem_map.2 ⟨i, List.mem_range.2 (Nat.lt_succ_of_lt hi), ?_⟩
    rw [if_pos hi]

/-- No depth is enough: a chain has no cycle, and a search that may go as deep as it has links does
not find its order. -/
theorem order_chain (count : Nat) : (chain count).Distinct ∧ (chain count).Closed ∧
    (chain count).Acyclic ∧ (chain count).order count = .error .tooDeep := by
  have hdistinct : (chain count).Distinct := by
    rw [Distinct, names_chain]
    exact List.nodup_range.map fun _ _ => letters_inj.1
  have hclosed : (chain count).Closed := by
    intro a b h
    obtain ⟨i, hi, rfl, rfl⟩ := dependsOn_chain_iff.1 h
    rw [names_chain]
    exact List.mem_map_of_mem (List.mem_range.2 (Nat.succ_lt_succ hi))
  have hdeep : (chain count).Deep count := by
    rw [Deep, names_chain, List.range_succ_eq_map, List.map_cons]
    exact waits_chain 0 count (Nat.zero_add count) _
  refine ⟨hdistinct, hclosed, acyclic_chain count, ?_⟩
  cases h : (chain count).order count with
  | ok names => exact absurd hdeep ((exists_order_iff hdistinct).1 ⟨names, h⟩).2.2
  | error e =>
    cases fault_of_order hdistinct h with
    | cycle ha => exact absurd ha (acyclic_chain count _)
    | unknown hab hb => exact absurd (hclosed _ _ hab) hb
    | deep => rfl

/-! ## Walks -/

/-- The graph that some nodes make, added one after the other. -/
def ofNodes (nodes : List (Node α)) : Except Error (Graph α) :=
  nodes.foldlM (fun g n => g.add n.name n.task n.deps) {}

theorem foldlM_add (front : List (Node α)) {nodes : List (Node α)}
    (hnames : ((front ++ nodes).map Node.name).Nodup) :
    nodes.foldlM (fun g n => g.add n.name n.task n.deps) (⟨front⟩ : Graph α) =
      .ok ⟨front ++ nodes⟩ := by
  induction nodes generalizing front with
  | nil => rw [List.foldlM_nil, List.append_nil, pure_eq_ok]
  | cons n nodes ih =>
    have hnew : ∀ m ∈ front, m.name ≠ n.name := by
      intro m hm
      rw [List.map_append, List.map_cons, List.nodup_append] at hnames
      exact hnames.2.2 _ (List.mem_map_of_mem hm) _ List.mem_cons_self
    have hadd : (⟨front⟩ : Graph α).add n.name n.task n.deps = .ok ⟨front ++ [n]⟩ :=
      add_eq_ok_iff.2 ⟨hnew, rfl⟩
    rw [List.append_cons] at hnames ⊢
    rw [List.foldlM_cons, hadd, ok_bind, ih _ hnames]

/-- Runs nodes one after the other. -/
def runNodes (run : α → Update σ β) (nodes : List (Node α)) : Update σ (List (String × β)) :=
  nodes.mapM fun n => do
    let result ← run n.task
    return (n.name, result)

/-- A run over names is one over the nodes of these names. -/
theorem runAll_map_name {run : α → Update σ β} {nodes : List (Node α)}
    (h : ∀ n ∈ nodes, g.find? n.name = some n) :
    g.runAll run (nodes.map Node.name) = runNodes run nodes := by
  induction nodes with
  | nil => rfl
  | cons n nodes ih =>
    obtain ⟨hn, hrest⟩ := List.forall_mem_cons.1 h
    have ih := ih hrest
    unfold runNodes at ih ⊢
    rw [List.map_cons, runAll, hn, List.mapM_cons, ← ih]
    simp only [bind_assoc, pure_bind]

/-- Nodes that return have their results in order. -/
theorem exists_runNodes {run : α → Update σ β} {nodes : List (Node α)}
    (hrun : ∀ n ∈ nodes, ∀ s, ∃ b t, (run n.task).runOn s = (.ok b, t)) (s : σ) :
    ∃ results t, (runNodes run nodes).runOn s = (.ok results, t) ∧
      results.map Prod.fst = nodes.map Node.name := by
  induction nodes generalizing s with
  | nil => exact ⟨[], s, rfl, rfl⟩
  | cons n nodes ih =>
    obtain ⟨hn, hrest⟩ := List.forall_mem_cons.1 hrun
    obtain ⟨b, t, hb⟩ := hn s
    obtain ⟨results, u, hresults, hnames⟩ := ih hrest t
    refine ⟨(n.name, b) :: results, u, ?_, by rw [List.map_cons, List.map_cons, hnames]⟩
    unfold runNodes at hresults ⊢
    simp only [List.mapM_cons, bind_assoc, pure_bind, Update.runOn_bind_eq_ok_iff,
      Update.runOn_pure_eq_ok_iff]
    exact ⟨b, t, hb, results, u, hresults, rfl, rfl⟩

/-- The nodes in the order of their names. -/
theorem Distinct.exists_nodes (hg : g.Distinct) {names : List String}
    (h : names.Perm (g.nodes.map Node.name)) :
    ∃ ns : List (Node α), ns.Perm g.nodes ∧ ns.map Node.name = names := by
  have hfind : (g.nodes.map Node.name).filterMap g.find? = g.nodes := by
    rw [List.filterMap_map]
    conv_rhs => rw [← List.filterMap_some (l := g.nodes)]
    exact List.filterMap_congr fun n hn => hg.find?_eq hn
  refine ⟨names.filterMap g.find?, hfind ▸ h.filterMap g.find?, ?_⟩
  have hmem : ∀ a ∈ names, (g.find? a).map Node.name = some a := by
    intro a ha
    obtain ⟨n, hn, rfl⟩ := List.mem_map.1 (h.mem_iff.1 ha)
    rw [hg.find?_eq hn, Option.map_some]
  rw [List.map_filterMap]
  conv_rhs => rw [← List.filterMap_some (l := names)]
  exact List.filterMap_congr hmem

theorem walk_of_order {depth : Nat} {run : α → Update σ β} {names : List String}
    (h : g.order depth = .ok names) : g.walk depth run = g.runAll run names := by
  rw [walk, h, Update.ofExcept, pure_bind]

/-- Without an order nothing is run. -/
theorem runOn_walk_of_error {depth : Nat} {run : α → Update σ β} {e : Error}
    (h : g.order depth = .error e) (s : σ) : (g.walk depth run).runOn s = (.error e, s) := by
  rw [walk, Update.runOn_bind, h, Update.runOn_ofExcept]

/-- Nodes with different names make a graph. A search finds an order exactly if all dependencies are
nodes, there is no cycle, and fewer nodes come to wait for one another than the search may go
deep; this is so if it may go deeper than there are nodes. Of nodes that depend on nodes in front
of them only, the order is their own, however many they are. The order names every node once and
behind what it depends on, and a walk runs the nodes in this order, each one once. Where there is no
order the graph is at fault, and nothing is run. -/
theorem walk_inOrder {nodes : List (Node α)} (hnames : (nodes.map Node.name).Nodup)
    (depth : Nat) :
    ∃ g, ofNodes nodes = .ok g ∧ g.nodes = nodes ∧
      ((∃ names, g.order depth = .ok names) ↔ g.Closed ∧ g.Acyclic ∧ ¬ g.Deep depth) ∧
      (nodes.length < depth →
        ((∃ names, g.order depth = .ok names) ↔ g.Closed ∧ g.Acyclic)) ∧
      (g.Layered → 2 ≤ depth → g.order depth = .ok (nodes.map Node.name)) ∧
      match g.order depth with
      | .ok names => names.Perm (nodes.map Node.name) ∧ g.Sorted names ∧
          ∃ ns : List (Node α), ns.Perm nodes ∧ ns.map Node.name = names ∧
            ∀ (σ β : Type) (run : α → Update σ β), g.walk depth run = runNodes run ns ∧
              ((∀ n ∈ nodes, ∀ s, ∃ b t, (run n.task).runOn s = (.ok b, t)) →
                ∀ s, ∃ results t, (g.walk depth run).runOn s = (.ok results, t) ∧
                  results.map Prod.fst = names)
      | .error e => g.Fault depth e ∧ ∀ (σ β : Type) (run : α → Update σ β) (s : σ),
          (g.walk depth run).runOn s = (.error e, s) := by
  have hg : (⟨nodes⟩ : Graph α).Distinct := hnames
  refine ⟨⟨nodes⟩, foldlM_add [] hnames, rfl, exists_order_iff hg, fun hlen => ⟨?_, ?_⟩,
    fun h hdepth => h.order_eq hg hdepth, ?_⟩
  · rintro ⟨names, h⟩
    exact closed_and_acyclic_of_order hg h
  · rintro ⟨hclosed, hacyclic⟩
    exact exists_order_of_length_lt hg hclosed hacyclic hlen
  split
  · rename_i names horder
    obtain ⟨hperm, hsorted⟩ := order_spec hg horder
    obtain ⟨ns, hns, rfl⟩ := hg.exists_nodes hperm
    refine ⟨hperm, hsorted, ns, hns, rfl, fun σ β run => ?_⟩
    have hwalk : (⟨nodes⟩ : Graph α).walk depth run = runNodes run ns := by
      rw [walk_of_order horder]
      exact runAll_map_name fun n hn => hg.find?_eq (hns.mem_iff.1 hn)
    rw [hwalk]
    exact ⟨rfl, fun hrun s => exists_runNodes (fun n hn => hrun n (hns.mem_iff.1 hn)) s⟩
  · rename_i e horder
    exact ⟨fault_of_order hg horder, fun σ β run => runOn_walk_of_error horder⟩

/-- Nodes of which each depends on the next, with a repeated name. -/
def reversedNodes : List (Node Nat) :=
  [⟨"km", 2, ["bpm", "bpm"]⟩, ⟨"bpm", 1, ["ibb:0"]⟩, ⟨"ibb:0", 0, []⟩]

/-- They are put the other way round, and none of them is on a cycle; a search that may go only two
calls deep fails on the same graph. So does the search as it is run, on a longer chain. -/
theorem walk_inOrder_sample :
    (∃ g, ofNodes reversedNodes = .ok g ∧
      g.order 3 = .ok ["ibb:0", "bpm", "km"] ∧ g.Closed ∧ g.Acyclic ∧
      g.order 2 = .error .tooDeep ∧ g.Deep 2) ∧
    (chain recursionLimit).Closed ∧ (chain recursionLimit).Acyclic ∧
      (chain recursionLimit).order recursionLimit = .error .tooDeep := by
  have hnames : (reversedNodes.map Node.name).Nodup := by decide
  obtain ⟨g, hg, hnodes, hiff, _⟩ := walk_inOrder hnames 3
  obtain ⟨g', hg', _, hiff', _⟩ := walk_inOrder hnames 2
  rw [hg] at hg'
  cases hg'
  obtain ⟨nodes⟩ := g
  cases hnodes
  have horder : (⟨reversedNodes⟩ : Graph Nat).order 3 = .ok ["ibb:0", "bpm", "km"] := by cbv
  have hfails : (⟨reversedNodes⟩ : Graph Nat).order 2 = .error .tooDeep := by cbv
  obtain ⟨hclosed, hacyclic, _⟩ := hiff.1 ⟨_, horder⟩
  refine ⟨⟨_, hg, horder, hclosed, hacyclic, hfails, not_not.1 fun hdeep => ?_⟩,
    (order_chain _).2⟩
  obtain ⟨_, h⟩ := hiff'.2 ⟨hclosed, hacyclic, hdeep⟩
  cases hfails.symm.trans h

end BootGuard.Measure.Graph
