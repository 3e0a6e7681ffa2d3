/-
  Computing the digests of manifests anew.

  A run is a walk through a graph whose nodes are in order already: the boot blocks, the boot
  policy manifest, the key manifest. `rehashAll_eq_ok_iff_steps` states it as the steps for
  these, each from what the one in front of it has left. In particular the digests of boot
  blocks are true afterwards (`measuredIn_of_rehash`).
-/
import BootGuard.Proofs.Measure.Graph
import BootGuard.Proofs.Measure.Steps

namespace BootGuard

/-- A boot block without what measuring changes. -/
def BootBlock.withoutDigests (e : BootBlock) : BootBlock := { e with digestList := {} }

namespace BootPolicy

/-- A manifest without what measuring changes. -/
def withoutDigests (p : BootPolicy) : BootPolicy :=
  { p with bootBlocks := p.bootBlocks.map BootBlock.withoutDigests, keySignatureOffset := 0 }

theorem ReservedFit.of_withoutDigests {p q : BootPolicy} (h : p.withoutDigests = q.withoutDigests)
    (hq : q.ReservedFit) : p.ReservedFit := by
  have hblocks : p.bootBlocks.map BootBlock.withoutDigests =
      q.bootBlocks.map BootBlock.withoutDigests := (congrArg bootBlocks h :)
  have hsettings : p.trustedBoot = q.trustedBoot := (congrArg trustedBoot h :)
  constructor
  · intro b hb
    have hmem := List.mem_map_of_mem (f := BootBlock.withoutDigests) hb
    rw [hblocks] at hmem
    obtain ⟨b', hb', heq⟩ := List.mem_map.1 hmem
    have hrsvd : b'.rsvd2 = b.rsvd2 := (congrArg BootBlock.rsvd2 heq :)
    rw [← hrsvd]
    exact hq.blocks b' hb'
  · intro t ht
    rw [hsettings] at ht
    exact hq.settings t ht

end BootPolicy

namespace Measure

/-! ## The graph -/

/-- The node of a boot block. -/
def blockNode (index : Nat) : Node Task := ⟨blockName index, .bootBlock index, []⟩

/-- The nodes for some boot blocks and the manifests that there are. -/
def taskNodes (count : Nat) (hasPolicy hasKeys : Bool) : List (Node Task) :=
  (List.range count).map blockNode ++
    (if hasPolicy then [⟨"bpm", .policy, (List.range count).map blockName⟩] else []) ++
    (if hasKeys then [⟨"km", .keys, if hasPolicy then ["bpm"] else []⟩] else [])

/-- The number of boot blocks whose digests are computed. -/
def blockCount (hasImage : Bool) (s : Slots) : Except Error Nat :=
  match s.policy, hasImage with
  | some m, true => (m.asBootPolicy).map fun p => p.bootBlocks.length
  | _, _ => .ok 0

/-- Adds the node of a manifest where there is the manifest. -/
def addIf (present : Bool) (g : Graph Task) (name : String) (task : Task) (deps : List String) :
    Except Error (Graph Task) :=
  if present then g.add name task deps else .ok g

theorem graph_eq (hasImage : Bool) (s : Slots) : graph hasImage s = (do
    let count ← blockCount hasImage s
    let g ← addBlocks {} 0 count
    let g ← addIf s.policy.isSome g "bpm" .policy ((List.range count).map blockName)
    addIf s.keys.isSome g "km" .keys (if s.policy.isSome then ["bpm"] else [])) := by
  unfold graph blockCount addIf
  cases s.policy with
  | none => rfl
  | some m => cases hasImage <;> rfl

/-- The graph has these nodes, under distinct names, and none of them depends on a later one. -/
def InOrder (g : Graph Task) (nodes : List (Node Task)) : Prop :=
  g.Distinct ∧ g.Layered ∧ g.nodes = nodes

theorem InOrder.add {g g' : Graph Task} {nodes : List (Node Task)} {name : String} {task : Task}
    {deps : List String} (hg : InOrder g nodes) (hdeps : ∀ d ∈ deps, d ∈ nodes.map Node.name)
    (h : g.add name task deps = .ok g') : InOrder g' (nodes ++ [⟨name, task, deps⟩]) := by
  obtain ⟨hdistinct, hlayered, rfl⟩ := hg
  refine ⟨hdistinct.add h, hlayered.add hdeps h, ?_⟩
  obtain ⟨_, rfl⟩ := Graph.add_eq_ok_iff.1 h
  rfl

theorem InOrder.addBlocks {g g' : Graph Task} {nodes : List (Node Task)} {index count : Nat}
    (hg : InOrder g nodes) (h : addBlocks g index count = .ok g') :
    InOrder g' (nodes ++ (List.range' index count).map blockNode) := by
  induction count generalizing g nodes index with
  | zero =>
    cases h
    rw [List.range'_zero, List.map_nil, List.append_nil]
    exact hg
  | succ count ih =>
    rw [Measure.addBlocks, bind_eq_ok_iff] at h
    obtain ⟨g1, hadd, h⟩ := h
    have := ih (hg.add (by simp) hadd) h
    rwa [List.append_assoc] at this

theorem InOrder.addIf {g g' : Graph Task} {nodes : List (Node Task)} {present : Bool}
    {name : String} {task : Task} {deps : List String} (hg : InOrder g nodes)
    (hdeps : ∀ d ∈ deps, d ∈ nodes.map Node.name)
    (h : addIf present g name task deps = .ok g') :
    InOrder g' (nodes ++ if present then [⟨name, task, deps⟩] else []) := by
  cases present with
  | false =>
    cases h
    simpa using hg
  | true => exact hg.add hdeps h

/-- The nodes of the graph, in the order in which they are run. -/
theorem graph_nodes {hasImage : Bool} {s : Slots} {g : Graph Task}
    (h : graph hasImage s = .ok g) : ∃ count, blockCount hasImage s = .ok count ∧
      InOrder g (taskNodes count s.policy.isSome s.keys.isSome) := by
  simp only [graph_eq, bind_eq_ok_iff] at h
  obtain ⟨count, hcount, g1, h1, g2, h2, h3⟩ := h
  refine ⟨count, hcount, ?_⟩
  have hempty : InOrder ({} : Graph Task) [] := ⟨List.nodup_nil, Graph.layered_empty, rfl⟩
  have hblocks := hempty.addBlocks h1
  rw [List.nil_append, ← List.range_eq_range'] at hblocks
  have hpolicy := hblocks.addIf (fun d hd => ?_) h2
  · refine hpolicy.addIf (fun d hd => ?_) h3
    split at hd
    · rename_i hsome
      rw [if_pos hsome, List.mem_singleton.1 hd]
      simp
    · cases hd
  · rw [List.map_map]
    exact hd

/-- The graph depends on the number of boot blocks and on which manifests there are. -/
theorem graph_congr {hasImage : Bool} {s t : Slots}
    (hcount : blockCount hasImage s = blockCount hasImage t)
    (hpolicy : s.policy.isSome = t.policy.isSome) (hkeys : s.keys.isSome = t.keys.isSome) :
    graph hasImage s = graph hasImage t := by
  rw [graph_eq, graph_eq, hcount, hpolicy, hkeys]

/-! ## The nodes -/

/-- The manifests in their places. -/
def slots (p : Option BootPolicy) (k : Option KeyManifest) : Slots where
  policy := p.map .bootPolicy
  keys := k.map .keyManifest

theorem slots_inj {p p' : Option BootPolicy} {k k' : Option KeyManifest}
    (h : slots p k = slots p' k') : p = p' ∧ k = k' := by
  injection h with hp hk
  constructor
  · refine Option.map_injective (fun _ _ heq => ?_) hp
    injection heq
  · refine Option.map_injective (fun _ _ heq => ?_) hk
    injection heq

/-- The results for boot blocks from a place on. -/
def blockResults (index : Nat) : List BootBlock → List (String × Outcome)
  | [] => []
  | e :: es => (blockName index, .digests e.digestList) :: blockResults (index + 1) es

/-- A step for a manifest that may be missing. -/
inductive IfPresent {α β : Type} (step : α → α → List β → Prop) :
    Option α → Option α → List β → Prop
  | none : IfPresent step none none []
  | some {a a' : α} {results : List β} (h : step a a' results) :
      IfPresent step (some a) (some a') results

/-- The steps for a boot policy manifest and its boot blocks. -/
def PolicyStep (image : Option Bytes) (algs : Option (List Int)) (p p' : BootPolicy)
    (results : List (String × Outcome)) : Prop :=
  ∃ es ds, renewBlocks image algs p.bootBlocks = .ok es ∧
    Signs algs (.bootPolicy { p with bootBlocks := es }) (.bootPolicy p') ds ∧
    results = (if image.isSome then blockResults 0 es else []) ++ [("bpm", .signed ds)]

/-- The step for a key manifest that goes with a boot policy manifest. -/
def KeysStep (policy : Option BootPolicy) (algs : Option (List Int)) (k k' : KeyManifest)
    (results : List (String × Outcome)) : Prop :=
  ∃ k1 ds, renewHashes (policy.map .bootPolicy) k = .ok k1 ∧
    Signs algs (.keyManifest k1) (.keyManifest k') ds ∧ results = [("km", .signed ds)]

section Run

variable {g : Graph Task} {image : Option Bytes} {algs : Option (List Int)}
  {p : Option BootPolicy} {k : Option KeyManifest} {s' : Slots}
  {results : List (String × Outcome)}

theorem runOn_onPolicy {α : Type} {u : Update Manifest α} {s : Slots} {m : Manifest}
    (h : s.policy = some m) :
    (onPolicy u).runOn s = ((u.runOn m).1, { s with policy := some (u.runOn m).2 }) := by
  rw [onPolicy, Update.runOn_get_bind, h]
  exact Update.runOn_onPart _ _ _ _

theorem runOn_onKeys {α : Type} {u : Update Manifest α} {s : Slots} {m : Manifest}
    (h : s.keys = some m) :
    (onKeys u).runOn s = ((u.runOn m).1, { s with keys := some (u.runOn m).2 }) := by
  rw [onKeys, Update.runOn_get_bind, h]
  exact Update.runOn_onPart _ _ _ _

theorem runBlock_eq_ok_iff {image : Bytes} {algs : Option (List Int)} {i : Nat}
    {p p' : BootPolicy} {l : DigestList} : (runBlock image algs i).runOn p = (.ok l, p') ↔
      ∃ e, p.bootBlocks[i]? = some e ∧ rehashBlock image algs e = .ok l ∧
        p' = { p with bootBlocks := p.bootBlocks.set i { e with digestList := l } } := by
  rw [runBlock, Update.runOn_get_bind]
  cases p.bootBlocks[i]? with
  | none => simp [Update.runOn_throw]
  | some e =>
    simp only [Option.some.injEq, Update.runOn_bind_eq_ok_iff, Update.runOn_ofExcept_eq_ok_iff,
      Update.runOn_modify_bind, Update.runOn_pure_eq_ok_iff]
    constructor
    · intro h
      obtain ⟨l', _, ⟨hl, rfl⟩, rfl, rfl⟩ := h
      exact ⟨e, rfl, hl, rfl⟩
    · intro h
      obtain ⟨_, rfl, hl, rfl⟩ := h
      exact ⟨l, p, ⟨hl, rfl⟩, rfl, rfl⟩

theorem run_bootBlock_eq_ok_iff {i : Nat} {p : BootPolicy} {o : Outcome} :
    (run image algs (.bootBlock i)).runOn (slots (some p) k) = (.ok o, s') ↔
      ∃ e e', p.bootBlocks[i]? = some e ∧ renewBlock (image.getD []) algs e = .ok e' ∧
        s' = slots (some { p with bootBlocks := p.bootBlocks.set i e' }) k ∧
        o = .digests e'.digestList := by
  rw [run, Update.runOn_bind_eq_ok_iff, runOn_onPolicy rfl, Manifest.runOn_onBootPolicy]
  simp only [Update.runOn_pure_eq_ok_iff, renewBlock, map_eq_ok_iff]
  constructor
  · intro h
    obtain ⟨l, _, hl, rfl, rfl⟩ := h
    obtain ⟨houtcome, rfl⟩ := Prod.mk.inj hl
    obtain ⟨e, he, hrehash, hp⟩ := runBlock_eq_ok_iff.1 (Update.runOn_of_fst_eq_ok houtcome)
    refine ⟨e, _, he, ⟨l, hrehash, rfl⟩, ?_, rfl⟩
    rw [hp]
    rfl
  · intro h
    obtain ⟨e, _, he, ⟨l, hl, rfl⟩, rfl, rfl⟩ := h
    refine ⟨l, _, ?_, rfl, rfl⟩
    rw [runBlock_eq_ok_iff.2 ⟨e, he, hl, rfl⟩]
    rfl

theorem run_policy_eq_ok_iff {p : BootPolicy} {o : Outcome} :
    (run image algs .policy).runOn (slots (some p) k) = (.ok o, s') ↔
      ∃ p' ds, Signs algs (.bootPolicy p) (.bootPolicy p') ds ∧ s' = slots (some p') k ∧
        o = .signed ds := by
  rw [run, runOn_onPolicy rfl, Prod.mk.injEq]
  constructor
  · intro h
    obtain ⟨ho, rfl⟩ := h
    obtain ⟨ds, hds, rfl⟩ := runSigned_eq_ok_iff.1 (Update.runOn_of_fst_eq_ok ho)
    obtain ⟨region, _, _, _, hm, _⟩ := id hds
    rw [hm] at hds ⊢
    exact ⟨_, ds, hds, rfl, rfl⟩
  · intro h
    obtain ⟨p', ds, hds, rfl, rfl⟩ := h
    rw [runSigned_eq_ok_iff.2 ⟨ds, hds, rfl⟩]
    exact ⟨rfl, rfl⟩

theorem run_keys_eq_ok_iff {k : KeyManifest} {o : Outcome} :
    (run image algs .keys).runOn (slots p (some k)) = (.ok o, s') ↔
      ∃ k1 k' ds, renewHashes (p.map .bootPolicy) k = .ok k1 ∧
        Signs algs (.keyManifest k1) (.keyManifest k') ds ∧ s' = slots p (some k') ∧
        o = .signed ds := by
  have hsigned : ∀ k1, (onKeys (runSigned algs)).runOn (slots p (some k1)) = (.ok o, s') ↔
      ∃ k' ds, Signs algs (.keyManifest k1) (.keyManifest k') ds ∧ s' = slots p (some k') ∧
        o = .signed ds := by
    intro k1
    rw [runOn_onKeys rfl, Prod.mk.injEq]
    constructor
    · intro h
      obtain ⟨ho, rfl⟩ := h
      obtain ⟨ds, hds, rfl⟩ := runSigned_eq_ok_iff.1 (Update.runOn_of_fst_eq_ok ho)
      obtain ⟨region, _, _, _, hm, _⟩ := id hds
      rw [hm] at hds ⊢
      exact ⟨_, ds, hds, rfl, rfl⟩
    · intro h
      obtain ⟨k', ds, hds, rfl, rfl⟩ := h
      rw [runSigned_eq_ok_iff.2 ⟨ds, hds, rfl⟩]
      exact ⟨rfl, rfl⟩
  rw [run, Update.runOn_get_bind]
  cases p with
  | none =>
    refine (hsigned k).trans ?_
    simp [renewHashes]
  | some p =>
    refine Update.runOn_bind_eq_ok_iff.trans ?_
    rw [runOn_onKeys rfl, Manifest.runOn_onKeyManifest]
    constructor
    · intro h
      obtain ⟨⟨⟩, _, hkeys, hall⟩ := h
      obtain ⟨hok, rfl⟩ := Prod.mk.inj hkeys
      obtain ⟨k', ds, hds, rfl, rfl⟩ := (hsigned _).1 hall
      exact ⟨_, k', ds, rehashKeys_eq_ok_iff.1 (Update.runOn_of_fst_eq_ok hok), hds, rfl, rfl⟩
    · intro h
      obtain ⟨k1, k', ds, hk1, hds, rfl, rfl⟩ := h
      refine ⟨(), slots (some p) (some k1), ?_, (hsigned k1).2 ⟨k', ds, hds, rfl, rfl⟩⟩
      rw [rehashKeys_eq_ok_iff.2 hk1]
      rfl

/-! ## The run -/

/-- The nodes of the boot blocks from `front` on renew these and yield their digests. -/
theorem runAll_blocks_eq_ok_iff {image : Bytes} {p : BootPolicy} (hg : g.Distinct)
    (hnodes : ∀ i, i < p.bootBlocks.length → blockNode i ∈ g.nodes)
    (front back : List BootBlock) (hp : p.bootBlocks = front ++ back) :
    (g.runAll (run (some image) algs)
        ((List.range' front.length back.length).map blockName)).runOn (slots (some p) k) =
        (.ok results, s') ↔
      ∃ es, back.mapM (renewBlock image algs) = .ok es ∧
        s' = slots (some { p with bootBlocks := front ++ es }) k ∧
        results = blockResults front.length es := by
  induction back generalizing p front results with
  | nil =>
    rw [List.append_nil] at hp
    subst hp
    simp only [List.length_nil, List.range'_zero, List.map_nil, Graph.runAll,
      Update.runOn_pure_eq_ok_iff, List.mapM_nil, pure_eq_ok, Except.ok.injEq]
    constructor
    · intro h
      obtain ⟨rfl, rfl⟩ := h
      exact ⟨[], rfl, by rw [List.append_nil], rfl⟩
    · intro h
      obtain ⟨_, rfl, rfl, rfl⟩ := h
      exact ⟨rfl, by rw [List.append_nil]⟩
  | cons e back ih =>
    have hlt : front.length < p.bootBlocks.length := by simp [hp]
    have hget : p.bootBlocks[front.length]? = some e := by
      rw [hp, List.getElem?_append_right (Nat.le_refl _), Nat.sub_self]
      rfl
    have hset : ∀ e', p.bootBlocks.set front.length e' = front ++ [e'] ++ back := by
      intro e'
      rw [hp, List.set_append_right _ _ (Nat.le_refl _), Nat.sub_self, List.set_cons_zero,
        List.append_assoc, List.singleton_append]
    have hrest : ∀ e' rest, (g.runAll (run (some image) algs)
        ((List.range' (front.length + 1) back.length).map blockName)).runOn
          (slots (some { p with bootBlocks := p.bootBlocks.set front.length e' }) k) =
          (.ok rest, s') ↔ ∃ es, back.mapM (renewBlock image algs) = .ok es ∧
            s' = slots (some { p with bootBlocks := front ++ [e'] ++ es }) k ∧
            rest = blockResults (front.length + 1) es := by
      intro e' rest
      have hlength : front.length + 1 = (front ++ [e']).length := by simp
      rw [hlength]
      refine ih (p := { p with bootBlocks := p.bootBlocks.set front.length e' })
        (fun i hi => hnodes i ?_) (front ++ [e']) (hset e')
      rwa [List.length_set] at hi
    rw [List.length_cons, List.range'_succ, List.map_cons, Graph.runAll_cons_eq_ok_iff,
      List.mapM_cons]
    simp only [bind_eq_ok_iff, pure_eq_ok, Except.ok.injEq]
    constructor
    · intro h
      obtain ⟨n, o, t, rest, hfind, hrun, hall, rfl⟩ := h
      have hn : g.find? (blockName front.length) = some (blockNode front.length) :=
        hg.find?_eq (hnodes _ hlt)
      rw [hn] at hfind
      cases hfind
      obtain ⟨_, e', he, he', rfl, rfl⟩ := run_bootBlock_eq_ok_iff.1 hrun
      rw [hget] at he
      cases he
      obtain ⟨es, hes, rfl, rfl⟩ := (hrest e' rest).1 hall
      refine ⟨_, ⟨e', he', es, hes, rfl⟩, ?_, rfl⟩
      rw [List.append_assoc, List.singleton_append]
    · intro h
      obtain ⟨_, ⟨e', he', es, hes, rfl⟩, rfl, rfl⟩ := h
      refine ⟨_, _, _, _, hg.find?_eq (hnodes _ hlt),
        run_bootBlock_eq_ok_iff.2 ⟨e, e', hget, he', rfl, rfl⟩, (hrest e' _).2 ⟨es, hes, ?_, rfl⟩,
        rfl⟩
      rw [List.append_assoc, List.singleton_append]

/-- The nodes in front of the one of the key manifest make the steps for the boot policy
manifest. -/
theorem runAll_policy_eq_ok_iff {count : Nat} (hg : InOrder g (taskNodes count p.isSome k.isSome))
    (hcount : blockCount image.isSome (slots p k) = .ok count) :
    (g.runAll (run image algs) ((List.range count).map blockName ++
        if p.isSome then ["bpm"] else [])).runOn (slots p k) = (.ok results, s') ↔
      ∃ p', IfPresent (PolicyStep image algs) p p' results ∧ s' = slots p' k := by
  obtain ⟨hdistinct, _, hnodes⟩ := hg
  cases p with
  | none =>
    cases hcount
    refine Update.runOn_pure_eq_ok_iff.trans ?_
    constructor
    · intro h
      obtain ⟨rfl, rfl⟩ := h
      exact ⟨none, .none, rfl⟩
    · intro h
      obtain ⟨_, ⟨⟩, rfl⟩ := h
      exact ⟨rfl, rfl⟩
  | some p =>
    have hpolicy := hdistinct.find?_eq
      (n := ⟨"bpm", .policy, (List.range count).map blockName⟩) (by simp [hnodes, taskNodes])
    have hblocks : ∀ {first t}, (g.runAll (run image algs)
        ((List.range count).map blockName)).runOn (slots (some p) k) = (.ok first, t) ↔
          ∃ es, renewBlocks image algs p.bootBlocks = .ok es ∧
            t = slots (some { p with bootBlocks := es }) k ∧
            first = if image.isSome then blockResults 0 es else [] := by
      intro first t
      cases image with
      | none =>
        cases hcount
        refine Update.runOn_pure_eq_ok_iff.trans ?_
        constructor
        · intro h
          obtain ⟨rfl, rfl⟩ := h
          exact ⟨_, rfl, rfl, rfl⟩
        · intro h
          obtain ⟨_, ⟨⟩, rfl, rfl⟩ := h
          exact ⟨rfl, rfl⟩
      | some image =>
        cases hcount
        rw [List.range_eq_range']
        refine runAll_blocks_eq_ok_iff hdistinct (fun i hi => ?_) [] p.bootBlocks rfl
        rw [hnodes, taskNodes, List.append_assoc]
        exact List.mem_append_left _ (List.mem_map_of_mem (List.mem_range.2 hi))
    simp only [Graph.runAll_append_eq_ok_iff, hblocks, Option.isSome_some, if_true,
      Graph.runAll_single_eq_ok_iff hpolicy]
    constructor
    · intro h
      obtain ⟨_, _, _, ⟨es, hes, rfl, rfl⟩, ⟨o, ho, rfl⟩, rfl⟩ := h
      obtain ⟨p', ds, hds, rfl, rfl⟩ := run_policy_eq_ok_iff.1 ho
      exact ⟨some p', .some ⟨es, ds, hes, hds, rfl⟩, rfl⟩
    · intro h
      obtain ⟨_, ⟨⟩ | ⟨es, ds, hes, hds, rfl⟩, rfl⟩ := h
      exact ⟨_, _, _, ⟨es, hes, rfl, rfl⟩,
        ⟨_, run_policy_eq_ok_iff.2 ⟨_, ds, hds, rfl, rfl⟩, rfl⟩, rfl⟩

/-- The node of the key manifest makes the step for it. -/
theorem runAll_keys_eq_ok_iff {count : Nat} {hasPolicy : Bool}
    (hg : InOrder g (taskNodes count hasPolicy k.isSome)) :
    (g.runAll (run image algs) (if k.isSome then ["km"] else [])).runOn (slots p k) =
        (.ok results, s') ↔
      ∃ k', IfPresent (KeysStep p algs) k k' results ∧ s' = slots p k' := by
  obtain ⟨hdistinct, _, hnodes⟩ := hg
  cases k with
  | none =>
    refine Update.runOn_pure_eq_ok_iff.trans ?_
    constructor
    · intro h
      obtain ⟨rfl, rfl⟩ := h
      exact ⟨none, .none, rfl⟩
    · intro h
      obtain ⟨_, ⟨⟩, rfl⟩ := h
      exact ⟨rfl, rfl⟩
  | some k =>
    have hkeys := hdistinct.find?_eq
      (n := ⟨"km", .keys, if hasPolicy then ["bpm"] else []⟩) (by simp [hnodes, taskNodes])
    simp only [Option.isSome_some, if_true, Graph.runAll_single_eq_ok_iff hkeys]
    constructor
    · intro h
      obtain ⟨o, ho, rfl⟩ := h
      obtain ⟨k1, k', ds, hk1, hds, rfl, rfl⟩ := run_keys_eq_ok_iff.1 ho
      exact ⟨some k', .some ⟨k1, ds, hk1, hds, rfl⟩, rfl⟩
    · intro h
      obtain ⟨_, ⟨⟩ | ⟨k1, ds, hk1, hds, rfl⟩, rfl⟩ := h
      exact ⟨_, run_keys_eq_ok_iff.2 ⟨k1, _, ds, hk1, hds, rfl, rfl⟩, rfl⟩

end Run

/-- The algorithms that are asked for. -/
def askedFor : Option (List Algorithm.Spec) → Except Error (Option (List Int))
  | none => .ok none
  | some specs => (Algorithm.Spec.resolveAll specs).map some

theorem rehashAll_eq (image : Option Bytes) (algs : Option (List Algorithm.Spec)) :
    rehashAll image algs = (do
      let algs ← Update.ofExcept (askedFor algs)
      let g ← Update.ofExcept (graph image.isSome (← get))
      g.walk Graph.recursionLimit (run image algs)) := by
  cases algs with
  | none => rfl
  | some specs =>
    unfold rehashAll askedFor
    dsimp only
    cases Algorithm.Spec.resolveAll specs <;> rfl

/-- Computing the digests anew is a walk through the graph of what there is. -/
theorem rehashAll_eq_ok_iff {image : Option Bytes} {algs : Option (List Algorithm.Spec)}
    {results : List (String × Outcome)} {s s' : Slots} :
    (rehashAll image algs).runOn s = (.ok results, s') ↔
      ∃ algs' g, askedFor algs = .ok algs' ∧ graph image.isSome s = .ok g ∧
        (g.walk Graph.recursionLimit (run image algs')).runOn s = (.ok results, s') := by
  rw [rehashAll_eq, Update.runOn_bind_eq_ok_iff]
  simp only [Update.runOn_get_bind, Update.runOn_bind_eq_ok_iff, Update.runOn_ofExcept_eq_ok_iff]
  constructor
  · intro h
    obtain ⟨algs', _, ⟨halgs, rfl⟩, g, _, ⟨hg, rfl⟩, hwalk⟩ := h
    exact ⟨algs', g, halgs, hg, hwalk⟩
  · intro h
    obtain ⟨algs', g, halgs, hg, hwalk⟩ := h
    exact ⟨algs', s, ⟨halgs, rfl⟩, g, s, ⟨hg, rfl⟩, hwalk⟩

/-- Computing all digests anew: the steps for the boot policy manifest, and then the step for
the key manifest with what the former have left. -/
theorem rehashAll_eq_ok_iff_steps {image : Option Bytes} {algs : Option (List Algorithm.Spec)}
    {p : Option BootPolicy} {k : Option KeyManifest} {s' : Slots}
    {results : List (String × Outcome)} :
    (rehashAll image algs).runOn (slots p k) = (.ok results, s') ↔
      ∃ asked g p' k' first rest, askedFor algs = .ok asked ∧
        graph image.isSome (slots p k) = .ok g ∧
        IfPresent (PolicyStep image asked) p p' first ∧ IfPresent (KeysStep p' asked) k k' rest ∧
        s' = slots p' k' ∧ results = first ++ rest := by
  have hwalk : ∀ {g asked}, graph image.isSome (slots p k) = .ok g →
      ((g.walk Graph.recursionLimit (run image asked)).runOn (slots p k) = (.ok results, s') ↔
        ∃ p' k' first rest, IfPresent (PolicyStep image asked) p p' first ∧
          IfPresent (KeysStep p' asked) k k' rest ∧ s' = slots p' k' ∧
          results = first ++ rest) := by
    intro g asked hg
    obtain ⟨count, hcount, horder⟩ := graph_nodes hg
    have hpresent : InOrder g (taskNodes count p.isSome k.isSome) := by
      simpa [slots] using horder
    obtain ⟨hdistinct, hlayered, hnodes⟩ := id hpresent
    have hnames : g.nodes.map Node.name = (List.range count).map blockName ++
        (if p.isSome then ["bpm"] else []) ++ if k.isSome then ["km"] else [] := by
      rw [hnodes, taskNodes, List.map_append, List.map_append, List.map_map]
      congr 1
      · congr 1
        cases p <;> rfl
      · cases k <;> rfl
    have horder := hlayered.order_eq hdistinct (by decide : 2 ≤ Graph.recursionLimit)
    simp only [Graph.walk_eq_ok_iff, horder, Except.ok.injEq, exists_eq_left', hnames]
    rw [Graph.runAll_append_eq_ok_iff]
    simp only [runAll_policy_eq_ok_iff hpresent hcount]
    constructor
    · intro h
      obtain ⟨first, _, rest, ⟨p', hp, rfl⟩, hrest, rfl⟩ := h
      obtain ⟨k', hk, rfl⟩ := (runAll_keys_eq_ok_iff hpresent).1 hrest
      exact ⟨p', k', first, rest, hp, hk, rfl, rfl⟩
    · intro h
      obtain ⟨p', k', first, rest, hp, hk, rfl, rfl⟩ := h
      exact ⟨first, _, rest, ⟨p', hp, rfl⟩, (runAll_keys_eq_ok_iff hpresent).2 ⟨k', hk, rfl⟩, rfl⟩
  rw [rehashAll_eq_ok_iff]
  constructor
  · intro h
    obtain ⟨asked, g, hasked, hg, hrun⟩ := h
    obtain ⟨p', k', first, rest, hall⟩ := (hwalk hg).1 hrun
    exact ⟨asked, g, p', k', first, rest, hasked, hg, hall⟩
  · intro h
    obtain ⟨asked, g, p', k', first, rest, hasked, hg, hall⟩ := h
    exact ⟨asked, g, hasked, hg, (hwalk hg).2 ⟨p', k', first, rest, hall⟩⟩

/-! ## Boot blocks over an image -/

theorem measuredIn_of_renewBlock {image : Bytes} {algs : Option (List Int)} {e e' : BootBlock}
    (h : renewBlock image algs e = .ok e') : e'.MeasuredIn image := by
  obtain ⟨l, hl, rfl⟩ := map_eq_ok_iff.1 h
  obtain ⟨_, content, hcontent, hds⟩ := rehashBlock_eq_ok_iff.1 hl
  refine ⟨content, hcontent, fun d hd => ?_⟩
  obtain ⟨alg, _, hdigest⟩ := exists_of_mem_mapM hds hd
  obtain ⟨b, hb, rfl⟩ := map_eq_ok_iff.1 hdigest
  exact hb

theorem withoutDigests_of_renewBlocks {image : Option Bytes} {algs : Option (List Int)}
    {es es' : List BootBlock} (h : renewBlocks image algs es = .ok es') :
    es'.map BootBlock.withoutDigests = es.map BootBlock.withoutDigests := by
  cases image with
  | none =>
    cases h
    rfl
  | some image =>
    induction mapM_eq_ok_iff.1 h with
    | nil => rfl
    | cons he _ ih =>
      obtain ⟨_, _, rfl⟩ := map_eq_ok_iff.1 he
      rw [List.map_cons, List.map_cons, ih (mapM_eq_ok_iff.2 ‹_›)]
      rfl

/-- Nothing but digests and the kept offset changes in a boot policy manifest. -/
theorem PolicyStep.withoutDigests_eq {image : Option Bytes} {algs : Option (List Int)}
    {p p' : BootPolicy} {results : List (String × Outcome)}
    (h : PolicyStep image algs p p' results) : p'.withoutDigests = p.withoutDigests := by
  obtain ⟨es, ds, hes, ⟨_, _, _, _, hm, _⟩, _⟩ := h
  cases hm
  unfold BootPolicy.withoutDigests
  dsimp only
  rw [withoutDigests_of_renewBlocks hes]

/-- Where the digests of a boot policy manifest were computed anew over an image, they are true,
and the rest of the manifest is what it was. -/
theorem measuredIn_of_rehash {p0 : BootPolicy} {image : Bytes}
    {algs : Option (List Algorithm.Spec)} {policy : Option Manifest}
    {results : List (String × Outcome)} {s : Slots}
    (h : rehash (.bootPolicy p0) (some image) algs policy = (.ok results, s)) :
    ∃ p, s.policy = some (.bootPolicy p) ∧ p.withoutDigests = p0.withoutDigests ∧
      ∀ e ∈ p.bootBlocks, e.MeasuredIn image := by
  have hall : (rehashAll (some image) algs).runOn (slots (some p0) none) = (.ok results, s) := h
  obtain ⟨_, _, _, _, _, _, _, _, hstep, _, rfl, _⟩ := rehashAll_eq_ok_iff_steps.1 hall
  cases hstep with
  | @some _ p _ hstep =>
    refine ⟨p, rfl, hstep.withoutDigests_eq, fun e he => ?_⟩
    obtain ⟨es, ds, hes, ⟨_, _, _, _, hm, _⟩, _⟩ := hstep
    cases hm
    obtain ⟨e0, _, he0⟩ := exists_of_mem_mapM hes he
    exact measuredIn_of_renewBlock he0

end Measure

end BootGuard
