/-
  The order of options does not matter.

  An option that can be set changes every manifest in one way, whatever the manifest lacks, and one
  that cannot be set fails on all of them. So options that are set in order are a sequence of
  changes (`BootPolicy.runOn_override_iff`, `KeyManifest.runOn_override_iff`), of which any two
  under different names commute (`independent_effect`). The key hashes that a boot policy key or
  an algorithm leaves behind are ones that it leaves as they are (`KeyManifest.settleHashes_again`).
-/
import BootGuard.Proofs.Options.Validity
import BootGuard.Proofs.Json.Records
import Mathlib.Data.List.Pairwise

namespace BootGuard

open Update

open Effect

/-! ## Boot policy manifests -/

namespace BootPolicy

/-- Changes the first item of a list, a default one if there is none. -/
def onFirst {α : Type} (default : α) (f : α → α) (l : List α) : List α :=
  f (l.headD default) :: l.tail

/-- What an option changes, by the part that it belongs to. -/
inductive Change
  | header (f : PolicyHeader → PolicyHeader)
  | block (f : BootBlock → BootBlock)
  | settings (f : TrustedBoot → TrustedBoot)

namespace Change

/-- The change of the manifest; the part is made where it is missing. -/
def apply : Change → BootPolicy → BootPolicy
  | header f, p => { p with header := f p.header }
  | block f, p => { p with bootBlocks := onFirst {} f p.bootBlocks }
  | settings f, p => { p with trustedBoot := some (f (p.trustedBoot.getD {})) }

/-- Changes of one part commute; those of different parts always do. -/
def Commutes : Change → Change → Prop
  | header f, header g => ∀ h, f (g h) = g (f h)
  | block f, block g => ∀ e, f (g e) = g (f e)
  | settings f, settings g => ∀ t, f (g t) = g (f t)
  | _, _ => True

theorem Commutes.symm {c d : Change} (h : c.Commutes d) : d.Commutes c := by
  cases c <;> cases d <;> first | exact trivial | exact fun x => (h x).symm

theorem apply_comm {c d : Change} (h : c.Commutes d) (p : BootPolicy) :
    c.apply (d.apply p) = d.apply (c.apply p) := by
  cases c with
  | header f =>
    cases d with
    | header g => simp only [apply, h p.header]
    | _ => rfl
  | block f =>
    cases d with
    | block g => simp only [apply, onFirst, List.headD_cons, List.tail_cons, h _]
    | _ => rfl
  | settings f =>
    cases d with
    | settings g => simp only [apply, Option.getD_some, h _]
    | _ => rfl

/-- The change of the part, made again, changes nothing. -/
def Idem : Change → Prop
  | header f => ∀ h, f (f h) = f h
  | block f => ∀ e, f (f e) = f e
  | settings f => ∀ t, f (f t) = f t

theorem apply_idem {c : Change} (h : c.Idem) (p : BootPolicy) :
    c.apply (c.apply p) = c.apply p := by
  cases c with
  | header f => simp only [apply, h p.header]
  | block f => simp only [apply, onFirst, List.headD_cons, List.tail_cons, h _]
  | settings f => simp only [apply, Option.getD_some, h _]

end Change

/-- The change that sets the field of a target. -/
def Target.change (v : Int) : Target → Change
  | header set => .header (set v)
  | block set => .block (set v)
  | segment set => .block fun e => { e with segments := onFirst {} (set v) e.segments }
  | settings set => .settings (set v)

/-- The change that gives the first boot block a list of digests. -/
def digestsChange (l : DigestList) : Change := .block fun e => { e with digestList := l }

/-- The change that an option makes, if its value can be used. -/
def changeOf (name : String) (value : Json) : Except Error Change :=
  if name = "ibbhash" then (emptyDigests value).map digestsChange
  else
    match targets.lookup name with
    | none => .error (.badValue (.unknownPolicyOption name))
    | some target => value.toWhole.map target.change

/-- The same as a function of the manifest. -/
def effect (x : String × Json) : Except Error (BootPolicy → BootPolicy) :=
  (changeOf x.1 x.2).map Change.apply

theorem targets_commute :
    targets.Pairwise fun a b => ∀ v w, (a.2.change v).Commutes (b.2.change w) := by
  simp only [targets, List.pairwise_cons, List.mem_cons, forall_eq_or_imp, List.not_mem_nil,
    IsEmpty.forall_iff, implies_true, List.Pairwise.nil, and_true]
  -- One goal for each pair, in which either the parts or the fields of one part differ.
  and_intros <;> intro v w <;> first | exact trivial | exact fun _ => rfl

theorem targets_commute_digests :
    ∀ a ∈ targets, ∀ v l, (a.2.change v).Commutes (digestsChange l) := by
  simp [targets, Target.change, digestsChange, Change.Commutes]

theorem targets_idem : ∀ a ∈ targets, ∀ v, (a.2.change v).Idem := by
  simp [targets, Target.change, Change.Idem, onFirst]

theorem changeOf_cases {name : String} {value : Json} {c : Change}
    (h : changeOf name value = .ok c) : (name = "ibbhash" ∧ ∃ l, c = digestsChange l) ∨
      name ≠ "ibbhash" ∧ ∃ target v, (name, target) ∈ targets ∧ c = target.change v := by
  unfold changeOf at h
  split at h
  · rename_i hname
    obtain ⟨l, _, rfl⟩ := map_eq_ok_iff.1 h
    exact .inl ⟨hname, l, rfl⟩
  · rename_i hname
    split at h
    · cases h
    · rename_i target hlookup
      obtain ⟨v, _, rfl⟩ := map_eq_ok_iff.1 h
      exact .inr ⟨hname, target, v, mem_of_lookup hlookup, rfl⟩

theorem targets_commute_of_ne {a b : String × Target} (ha : a ∈ targets) (hb : b ∈ targets)
    (hne : a.1 ≠ b.1) (v w : Int) : (a.2.change v).Commutes (b.2.change w) := by
  have hsymm : Std.Symm fun a b : String × Target =>
      ∀ v w, (a.2.change v).Commutes (b.2.change w) :=
    ⟨fun _ _ h v w => (h w v).symm⟩
  exact targets_commute.forall ha hb (fun heq => hne (congrArg Prod.fst heq)) v w

theorem independent_effect : Independent effect where
  comm := by
    intro x y f g hne hf hg p
    obtain ⟨c, hc, rfl⟩ := map_eq_ok_iff.1 hf
    obtain ⟨d, hd, rfl⟩ := map_eq_ok_iff.1 hg
    refine Change.apply_comm ?_ p
    obtain ⟨hx, l, rfl⟩ | ⟨_, t, v, ht, rfl⟩ := changeOf_cases hc
    · obtain ⟨hy, _⟩ | ⟨_, u, w, hu, rfl⟩ := changeOf_cases hd
      · exact absurd (hx.trans hy.symm) hne
      · exact (targets_commute_digests _ hu w l).symm
    · obtain ⟨_, l, rfl⟩ | ⟨_, u, w, hu, rfl⟩ := changeOf_cases hd
      · exact targets_commute_digests _ ht v l
      · exact targets_commute_of_ne ht hu hne v w
  idem := by
    intro x f hf p
    obtain ⟨c, hc, rfl⟩ := map_eq_ok_iff.1 hf
    refine Change.apply_idem ?_ p
    obtain ⟨_, l, rfl⟩ | ⟨_, t, v, ht, rfl⟩ := changeOf_cases hc
    · exact fun e => rfl
    · exact targets_idem _ ht v

theorem loads_setDigests (l : DigestList) : (setDigests l).Loads (digestsChange l).apply := by
  rintro ⟨header, blocks, settings, signature, offset⟩
  cases blocks <;> rfl

/-- The field of a target is set, once the part is made. -/
theorem loads_target (target : Target) (v : Int) :
    (do target.ensure; target.put v : Update BootPolicy Unit).Loads (target.change v).apply := by
  rintro ⟨header, blocks, settings, signature, offset⟩
  cases target with
  | header set => rfl
  | block set => cases blocks <;> rfl
  | segment set =>
    cases blocks with
    | nil => rfl
    | cons e es =>
      rcases e with ⟨_, _, _, _, _, _, _, _, _, _, _, _, _, _, _, _, _, _, segments⟩
      cases segments <;> rfl
  | settings set => rfl

/-- An option changes every manifest in the same way, or fails on every one. -/
theorem runOn_overrideWith_iff {name : String} {value : Json} {p p' : BootPolicy} :
    (∃ change, overrideWith name value = .ok change ∧ change.runOn p = (.ok (), p')) ↔
      ∃ f, effect (name, value) = .ok f ∧ p' = f p := by
  unfold effect changeOf overrideWith
  dsimp only
  split
  · cases emptyDigests value with
    | error e => simp [Except.map]
    | ok l => simp [Except.map, loads_setDigests l p, eq_comm]
  · cases targets.lookup name with
    | none => simp [Except.map]
    | some target =>
      cases hvalue : value.toWhole with
      | error e =>
        -- The part is made before the value turns out to be bad, which still fails the run.
        constructor
        · rintro ⟨change, hchange, hrun⟩
          cases hchange
          obtain ⟨_, q, _, hrest⟩ := runOn_bind_eq_ok_iff.1 hrun
          obtain ⟨v, _, hv, _⟩ := runOn_bind_eq_ok_iff.1 hrest
          cases hv
        · rintro ⟨f, hf, _⟩
          cases hf
      | ok v =>
        have hload := loads_target target v p
        constructor
        · rintro ⟨change, hchange, hrun⟩
          cases hchange
          refine ⟨_, rfl, ?_⟩
          exact (Prod.mk.inj (hrun.symm.trans hload)).2
        · rintro ⟨f, hf, rfl⟩
          cases hf
          exact ⟨_, rfl, hload⟩

theorem runOn_overrideAll_iff {options : List (String × Json)} {p p' : BootPolicy} :
    (overrideAll id options).runOn p = (.ok (), p') ↔
      Accepts effect options ∧ p' = actAll effect options p :=
  runOn_overrideEach_iff fun _ _ _ _ => runOn_overrideWith_iff

/-- Options are set exactly if no name is reserved and all that are given can be set. -/
theorem runOn_override_iff {options : List (String × Json)} {p p' : BootPolicy} :
    (override id options).runOn p = (.ok (), p') ↔ (∀ x ∈ options, x.1 ∉ reservedNames) ∧
      Accepts effect options ∧ p' = actAll effect options p := by
  unfold override
  cases hfind : options.find? fun m => reservedNames.contains m.1 with
  | some m =>
    constructor
    · intro h
      cases h
    · rintro ⟨hnames, _⟩
      rw [find?_name_eq_none_iff.2 hnames] at hfind
      cases hfind
  | none =>
    dsimp only
    rw [and_iff_right (find?_name_eq_none_iff.1 hfind), runOn_overrideAll_iff]

end BootPolicy

/-! ## Key manifests -/

namespace KeyManifest

/-- The same as a function of the manifest. -/
def effect (x : String × Json) : Except Error (KeyManifest → KeyManifest) :=
  (changeOf x.1 x.2).map fun f k => { k with body := f k.body }

theorem targets_commute :
    targets.Pairwise fun a b => ∀ v w k, a.2 v (b.2 w k) = b.2 w (a.2 v k) := by
  simp [targets]

theorem targets_commute_of_ne {a b : String × (Int → KeyManifestBody → KeyManifestBody)}
    (ha : a ∈ targets) (hb : b ∈ targets) (hne : a.1 ≠ b.1) (v w : Int) (k : KeyManifestBody) :
    a.2 v (b.2 w k) = b.2 w (a.2 v k) := by
  have hsymm : Std.Symm fun a b : String × (Int → KeyManifestBody → KeyManifestBody) =>
      ∀ v w k, a.2 v (b.2 w k) = b.2 w (a.2 v k) := ⟨fun _ _ h v w k => (h w v k).symm⟩
  exact targets_commute.forall ha hb (fun heq => hne (congrArg Prod.fst heq)) v w k

theorem targets_idem : ∀ a ∈ targets, ∀ v k, a.2 v (a.2 v k) = a.2 v k := by
  simp [targets]

/-- The fields of targets are not the key hashes. -/
theorem targets_hashes : ∀ a ∈ targets, ∀ v k hashes,
    a.2 v { k with hashes := hashes } = { a.2 v k with hashes := hashes } := by
  simp [targets]

theorem independent_effect : Independent effect where
  comm := by
    intro x y f g hne hf hg k
    obtain ⟨c, hc, rfl⟩ := map_eq_ok_iff.1 hf
    obtain ⟨d, hd, rfl⟩ := map_eq_ok_iff.1 hg
    have hbody : ∀ b, c (d b) = d (c b) := by
      obtain ⟨s, v, hs, rfl⟩ | ⟨hx, hashes, rfl⟩ := changeOf_cases hc
      · obtain ⟨t, w, ht, rfl⟩ | ⟨_, hashes, rfl⟩ := changeOf_cases hd
        · exact targets_commute_of_ne hs ht hne v w
        · exact fun b => targets_hashes _ hs v b hashes
      · obtain ⟨t, w, ht, rfl⟩ | ⟨hy, _⟩ := changeOf_cases hd
        · exact fun b => (targets_hashes _ ht w b hashes).symm
        · exact absurd (hx.trans hy.symm) hne
    exact congrArg (fun b => { k with body := b }) (hbody k.body)
  idem := by
    intro x f hf k
    obtain ⟨c, hc, rfl⟩ := map_eq_ok_iff.1 hf
    have hbody : ∀ b, c (c b) = c b := by
      obtain ⟨s, v, hs, rfl⟩ | ⟨_, hashes, rfl⟩ := changeOf_cases hc
      · exact targets_idem _ hs v
      · exact fun b => rfl
    exact congrArg (fun b => { k with body := b }) (hbody k.body)

/-- An option changes every manifest in the same way, or fails on every one. -/
theorem runOn_overrideWith_iff {name : String} {value : Json} {k k' : KeyManifest} :
    (∃ change, overrideWith name value = .ok change ∧ change.runOn k = (.ok (), k')) ↔
      ∃ f, effect (name, value) = .ok f ∧ k' = f k := by
  rw [overrideWith_eq, effect]
  cases changeOf name value with
  | error e => simp [Except.map]
  | ok f => simp [Except.map, modifyBody, runOn_modify, eq_comm]

theorem runOn_overrideAll_iff {options : List (String × Json)} {k k' : KeyManifest} :
    (overrideAll id options).runOn k = (.ok (), k') ↔
      Accepts effect options ∧ k' = actAll effect options k :=
  runOn_overrideEach_iff fun _ _ _ _ => runOn_overrideWith_iff

/-! ### The key hashes -/

/-- The hash of a boot policy key, under the algorithm that is asked for. -/
def policyDigest (key : KeyMaterial) (asked : Option Int) : Except Error Bytes := do
  let descriptor ← key.describe
  descriptor.dataDigest (asked.getD defaultPolicyHashAlg)

/-- What a boot policy key and an algorithm make of the key hashes. -/
def settleHashes (key : Option KeyMaterial) (asked : Option Int) (hashes : List KeyHash) :
    Except Error (List KeyHash) :=
  match key, asked with
  | some key, asked => (policyDigest key asked).map fun digest =>
    commitTo (asked.getD defaultPolicyHashAlg) digest hashes
  | none, some alg => clearHashes alg hashes
  | none, none => .ok hashes

/-- The manifest with other key hashes. -/
def withHashes (hashes : List KeyHash) (k : KeyManifest) : KeyManifest :=
  { k with body := { k.body with hashes := hashes } }

theorem commitTo_again (alg : Int) (digest : Bytes) (hashes : List KeyHash) :
    commitTo alg digest (commitTo alg digest hashes) = commitTo alg digest hashes := by
  rw [commitTo_eq, commitTo_eq, List.filter_cons_of_neg (by simp [KeyHash.slot]),
    List.filter_filter]
  simp only [Bool.and_self]

theorem clearHashes_again {alg : Int} {hashes cleared : List KeyHash}
    (h : clearHashes alg hashes = .ok cleared) : clearHashes alg cleared = .ok cleared := by
  refine mapM_idem (fun a b hab => ?_) h
  by_cases hbit : a.signsBootPolicy = true
  · rw [if_pos hbit] at hab
    obtain ⟨d, hd, rfl⟩ := map_eq_ok_iff.1 hab
    rw [hd]
    exact if_pos hbit
  · rw [if_neg hbit] at hab
    cases hab
    exact if_neg hbit

theorem settleHashes_again {key : Option KeyMaterial} {asked : Option Int}
    {hashes settled : List KeyHash} (h : settleHashes key asked hashes = .ok settled) :
    settleHashes key asked settled = .ok settled := by
  cases key with
  | some key =>
    obtain ⟨digest, hdigest, rfl⟩ := map_eq_ok_iff.1 h
    exact map_eq_ok_iff.2 ⟨digest, hdigest, commitTo_again _ _ _⟩
  | none =>
    cases asked with
    | some alg => exact clearHashes_again h
    | none =>
      cases h
      rfl

/-- The hashes that an algorithm alone makes empty ones. -/
theorem runOn_clear_iff {alg : Int} {k k' : KeyManifest} :
    (do
      let hashes ← Update.ofExcept (clearHashes alg (← get).body.hashes)
      modifyBody fun b => { b with hashes := hashes } : Update KeyManifest Unit).runOn k =
        (.ok (), k') ↔
      ∃ hashes, clearHashes alg k.body.hashes = .ok hashes ∧ k' = withHashes hashes k := by
  rw [runOn_get_bind, runOn_bind_eq_ok_iff]
  simp only [runOn_ofExcept_eq_ok_iff, modifyBody, runOn_modify]
  constructor
  · rintro ⟨hashes, _, ⟨hclear, rfl⟩, hput⟩
    cases hput
    exact ⟨hashes, hclear, rfl⟩
  · rintro ⟨hashes, hclear, rfl⟩
    exact ⟨hashes, k, ⟨hclear, rfl⟩, rfl⟩

theorem overridePolicyKey_some (key : KeyMaterial) (asked : Option Int) :
    overridePolicyKey (some key) asked = (policyDigest key asked).map fun digest =>
      some (modifyBody fun b =>
        { b with hashes := commitTo (asked.getD defaultPolicyHashAlg) digest b.hashes }) := by
  unfold overridePolicyKey policyDigest
  dsimp only
  cases key.describe with
  | error e => rfl
  | ok descriptor =>
    simp only [ok_bind]
    cases descriptor.dataDigest (asked.getD defaultPolicyHashAlg) <;> rfl

theorem runOn_policyKey_iff {key : Option KeyMaterial} {asked : Option Int} {k k' : KeyManifest} :
    (∃ change, overridePolicyKey key asked = .ok change ∧
      (change.getD (pure ())).runOn k = (.ok (), k')) ↔
      ∃ hashes, settleHashes key asked k.body.hashes = .ok hashes ∧ k' = withHashes hashes k := by
  cases key with
  | some key =>
    rw [overridePolicyKey_some, settleHashes]
    cases policyDigest key asked with
    | error e => simp [Except.map]
    | ok digest => simp [Except.map, modifyBody, runOn_modify, withHashes, eq_comm]
  | none =>
    cases asked with
    | some alg =>
      simp only [overridePolicyKey, settleHashes, Except.ok.injEq, exists_eq_left',
        Option.getD_some, runOn_clear_iff]
    | none => simp [overridePolicyKey, settleHashes, withHashes, runOn_pure_eq_ok_iff]

/-- Options are set exactly if no name is reserved, the algorithm is known, all fields that are
given can be set, and the key hashes that these leave can be settled. -/
theorem runOn_override_iff {o : Overrides} {k k' : KeyManifest} :
    (override id o).runOn k = (.ok (), k') ↔ (∀ x ∈ o.fields, x.1 ∉ reservedNames) ∧
      Accepts effect o.fields ∧ ∃ asked hashes,
        o.policyHashAlg.mapM Algorithm.Spec.resolve = .ok asked ∧
        settleHashes o.policyKey asked (actAll effect o.fields k).body.hashes = .ok hashes ∧
        k' = withHashes hashes (actAll effect o.fields k) := by
  rw [runOn_override_steps]
  constructor
  · rintro ⟨hnames, asked, before, change, hasked, hall, hchange, hlast⟩
    obtain ⟨haccepts, rfl⟩ := runOn_overrideAll_iff.1 hall
    obtain ⟨hashes, hsettle, rfl⟩ := runOn_policyKey_iff.1 ⟨change, hchange, hlast⟩
    exact ⟨hnames, haccepts, asked, hashes, hasked, hsettle, rfl⟩
  · rintro ⟨hnames, haccepts, asked, hashes, hasked, hsettle, rfl⟩
    obtain ⟨change, hchange, hlast⟩ := runOn_policyKey_iff.2 ⟨hashes, hsettle, rfl⟩
    exact ⟨hnames, asked, _, change, hasked, runOn_overrideAll_iff.2 ⟨haccepts, rfl⟩, hchange,
      hlast⟩

/-- An option either replaces the key hashes, whatever they are, or leaves them alone. -/
theorem act_withHashes (x : String × Json) (hashes : List KeyHash) (k : KeyManifest) :
    act effect (withHashes hashes k) x = act effect k x ∨
      act effect (withHashes hashes k) x = withHashes hashes (act effect k x) := by
  cases hx : effect x with
  | error e =>
    right
    rw [act, act, hx]
  | ok f =>
    rw [act_of_eq_ok hx, act_of_eq_ok hx]
    obtain ⟨c, hc, rfl⟩ := map_eq_ok_iff.1 hx
    obtain ⟨set, v, hset, rfl⟩ | ⟨_, given, rfl⟩ := changeOf_cases hc
    · right
      exact congrArg (fun b => { k with body := b }) (targets_hashes _ hset v k.body hashes)
    · left
      rfl

theorem actAll_withHashes (options : List (String × Json)) (hashes : List KeyHash)
    (k : KeyManifest) : actAll effect options (withHashes hashes k) = actAll effect options k ∨
      actAll effect options (withHashes hashes k) =
        withHashes hashes (actAll effect options k) := by
  unfold actAll
  induction options.filter isGiven generalizing k with
  | nil => exact .inr rfl
  | cons x xs ih =>
    rw [List.foldl_cons, List.foldl_cons]
    obtain hx | hx := act_withHashes x hashes k
    · exact .inl (by rw [hx])
    · rw [hx]
      exact ih _

namespace Overrides

/-- The same options, the fields in another order. -/
structure Reorders (a b : Overrides) : Prop where
  policyKey : a.policyKey = b.policyKey
  policyHashAlg : a.policyHashAlg = b.policyHashAlg
  fields : a.fields.Perm b.fields

/-- The options without null ones. -/
def given (o : Overrides) : Overrides := { o with fields := o.fields.filter isGiven }

end Overrides

end KeyManifest

/-! ## Options in any order, and given twice -/

namespace BootPolicy

section Result

variable {options : List (String × Json)} {p q : BootPolicy}

theorem result_override_iff : (override id options).result p = .ok q ↔
    (∀ x ∈ options, x.1 ∉ reservedNames) ∧ Accepts effect options ∧
      q = actAll effect options p := by
  rw [result_eq_ok_unit_iff, runOn_override_iff]

theorem result_override_perm {other : List (String × Json)} (hnodup : (options.map Prod.fst).Nodup)
    (hperm : other.Perm options) (h : (override id options).result p = .ok q) :
    (override id other).result p = .ok q := by
  obtain ⟨hnames, haccepts, rfl⟩ := result_override_iff.1 h
  exact result_override_iff.2 ⟨fun x hx => hnames x (hperm.mem_iff.1 hx), haccepts.perm hperm,
    (independent_effect.actAll_perm hnodup hperm p).symm⟩

theorem result_override_given (h : (override id options).result p = .ok q) :
    (override id (options.filter isGiven)).result p = .ok q := by
  obtain ⟨hnames, haccepts, rfl⟩ := result_override_iff.1 h
  refine result_override_iff.2 ⟨fun x hx => hnames x (List.mem_of_mem_filter hx), ?_, ?_⟩
  · rwa [Accepts, filter_isGiven_idem]
  · rw [actAll, actAll, filter_isGiven_idem]

theorem result_override_again (hnodup : (options.map Prod.fst).Nodup)
    (h : (override id options).result p = .ok q) : (override id options).result q = .ok q := by
  obtain ⟨hnames, haccepts, rfl⟩ := result_override_iff.1 h
  exact result_override_iff.2 ⟨hnames, haccepts, (independent_effect.actAll_again hnodup p).symm⟩

end Result

end BootPolicy

namespace KeyManifest

section Result

variable {o : Overrides} {k l : KeyManifest}

theorem result_override_iff : (override id o).result k = .ok l ↔
    (∀ x ∈ o.fields, x.1 ∉ reservedNames) ∧ Accepts effect o.fields ∧ ∃ asked hashes,
      o.policyHashAlg.mapM Algorithm.Spec.resolve = .ok asked ∧
      settleHashes o.policyKey asked (actAll effect o.fields k).body.hashes = .ok hashes ∧
      l = withHashes hashes (actAll effect o.fields k) := by
  rw [result_eq_ok_unit_iff, runOn_override_iff]

theorem result_override_reorders {other : Overrides} (hnodup : (o.fields.map Prod.fst).Nodup)
    (hother : other.Reorders o) (h : (override id o).result k = .ok l) :
    (override id other).result k = .ok l := by
  obtain ⟨hnames, haccepts, asked, hashes, hasked, hsettle, rfl⟩ := result_override_iff.1 h
  have hall := independent_effect.actAll_perm hnodup hother.fields k
  refine result_override_iff.2 ⟨fun x hx => hnames x (hother.fields.mem_iff.1 hx),
    haccepts.perm hother.fields, asked, hashes, ?_, ?_, ?_⟩
  · rwa [hother.policyHashAlg]
  · rwa [hother.policyKey, hall]
  · rw [hall]

theorem result_override_given (h : (override id o).result k = .ok l) :
    (override id o.given).result k = .ok l := by
  obtain ⟨hnames, haccepts, asked, hashes, hasked, hsettle, rfl⟩ := result_override_iff.1 h
  have hall : actAll effect o.given.fields k = actAll effect o.fields k := by
    rw [actAll, actAll, Overrides.given, filter_isGiven_idem]
  refine result_override_iff.2 ⟨fun x hx => hnames x (List.mem_of_mem_filter hx), ?_, asked,
    hashes, hasked, ?_, ?_⟩
  · rwa [Accepts, Overrides.given, filter_isGiven_idem]
  · rwa [hall]
  · rw [hall]

/-- The fields of a manifest that they have been set in stay what they are. The key hashes are
then either those that were settled before, from which the same ones follow, or the settled ones
themselves. -/
theorem result_override_again (hnodup : (o.fields.map Prod.fst).Nodup)
    (h : (override id o).result k = .ok l) : (override id o).result l = .ok l := by
  obtain ⟨hnames, haccepts, asked, hashes, hasked, hsettle, rfl⟩ := result_override_iff.1 h
  refine result_override_iff.2 ⟨hnames, haccepts, asked, hashes, hasked, ?_⟩
  have hagain := independent_effect.actAll_again hnodup k
  obtain hall | hall := actAll_withHashes o.fields hashes (actAll effect o.fields k)
  · rw [hall, hagain]
    exact ⟨hsettle, rfl⟩
  · rw [hall, hagain]
    exact ⟨settleHashes_again hsettle, rfl⟩

/-- Key hashes that are at hand as records are set as they are. -/
theorem result_override_records (hashes : List KeyHash) (k : KeyManifest) :
    (override id { fields := [("kmhashes", .arr (hashes.map KeyHash.toJson))] }).result k =
      .ok (withHashes hashes k) := by
  have hread : Json.Describes (Json.mapItems KeyHash.ofJson) (.arr (hashes.map KeyHash.toJson))
      hashes := Json.describes_items fun h _ => h.describes
  have heffect : effect ("kmhashes", .arr (hashes.map KeyHash.toJson)) =
      .ok (withHashes hashes) := by
    refine map_eq_ok_iff.2 ⟨fun b => { b with hashes := hashes }, ?_, rfl⟩
    exact bind_eq_ok_iff.2 ⟨hashes, hread.read_eq, rfl⟩
  have hall : actAll effect [("kmhashes", .arr (hashes.map KeyHash.toJson))] k =
      withHashes hashes k := act_of_eq_ok heffect k
  refine result_override_iff.2 ⟨fun x hx => ?_, fun x hx => ?_, none, hashes, rfl, ?_, ?_⟩
  · rw [List.mem_singleton.1 hx]
    show "kmhashes" ∉ reservedNames
    decide
  · rw [List.mem_singleton.1 (List.mem_of_mem_filter hx)]
    exact ⟨⟨_, heffect⟩, hread.plain.isWritable⟩
  · rw [hall]
    rfl
  · rw [hall]
    rfl

end Result

end KeyManifest

/-- Options under distinct names that make one manifest of another make the same of it in every
order, and without the null ones. Given again, they change nothing. -/
theorem override_anyOrder :
    (∀ (options : List (String × Json)) (p q : BootPolicy), (options.map Prod.fst).Nodup →
      (BootPolicy.override id options).result p = .ok q →
        (∀ other, other.Perm options → (BootPolicy.override id other).result p = .ok q) ∧
        (BootPolicy.override id (options.filter isGiven)).result p = .ok q ∧
        (BootPolicy.override id options).result q = .ok q) ∧
    ∀ (o : KeyManifest.Overrides) (k l : KeyManifest), (o.fields.map Prod.fst).Nodup →
      (KeyManifest.override id o).result k = .ok l →
        (∀ other, other.Reorders o → (KeyManifest.override id other).result k = .ok l) ∧
        (KeyManifest.override id o.given).result k = .ok l ∧
        (KeyManifest.override id o).result l = .ok l := by
  constructor
  · intro options p q hnodup h
    exact ⟨fun other hperm => BootPolicy.result_override_perm hnodup hperm h,
      BootPolicy.result_override_given h, BootPolicy.result_override_again hnodup h⟩
  · intro o k l hnodup h
    exact ⟨fun other hother => KeyManifest.result_override_reorders hnodup hother h,
      KeyManifest.result_override_given h, KeyManifest.result_override_again hnodup h⟩

/-- Options for every part of a boot policy manifest, one of them null. -/
def BootPolicy.partOptions : List (String × Json) :=
  [("ibbsegbase", .int 0xFFFF0000), ("sintmin", .str "0x2"), ("txtflags", .null),
   ("ibbhash", .str "SHA256"), ("nems", .int 3)]

/-- Key hashes to replace those of a key manifest, and a key to put in front of them. -/
def KeyManifest.keyOptions : Overrides where
  policyKey := some (.rsaPublic 0xBB 3)
  policyHashAlg := some (.id Algorithm.sha384)
  fields := [("kmhashes", .arr (twofoldKeys.body.hashes.map KeyHash.toJson)), ("id", .null),
    ("svn", .int 2)]

/-- The manifest that has them set. -/
def BootPolicy.partPolicy : BootPolicy where
  header := { nemPages := 3 }
  bootBlocks := [{
    digestList := ⟨[⟨Algorithm.sha256, Bytes.zeros 32⟩]⟩
    segments := [{ base := 0xFFFF0000 }] }]
  trustedBoot := some { sinitMinSvnAuth := 2 }

/-- The key hash of the boot policy key is in front, in the place of the one with its algorithm. -/
def KeyManifest.keyedManifest : KeyManifest where
  body := {
    kmSvn := 2
    hashes := [
      ⟨KeyHash.bootPolicyUsage,
        ⟨Algorithm.sha384, HashFunction.sha384.hash [0x03, 0x00, 0x00, 0x00, 0xBB]⟩⟩,
      ⟨KeyHash.bootPolicyUsage, ⟨Algorithm.sha256, Bytes.zeros 32⟩⟩] }

/-- They are set in empty manifests. Key hashes that are at hand as records are set once. -/
theorem override_anyOrder_sample :
    ((BootPolicy.override id BootPolicy.partOptions.reverse).result {} = .ok BootPolicy.partPolicy ∧
      (BootPolicy.override id BootPolicy.partOptions).result BootPolicy.partPolicy =
        .ok BootPolicy.partPolicy) ∧
    (KeyManifest.override id KeyManifest.keyOptions.given).result {} =
        .ok KeyManifest.keyedManifest ∧
      (KeyManifest.override id KeyManifest.keyOptions).result KeyManifest.keyedManifest =
        .ok KeyManifest.keyedManifest ∧
      (KeyManifest.override id { fields :=
        [("kmhashes", .arr (KeyManifest.twofoldKeys.body.hashes.map KeyHash.toJson))] }).result
          KeyManifest.twofoldKeys = .ok KeyManifest.twofoldKeys := by
  obtain ⟨hpolicy, hkeys⟩ := override_anyOrder
  have hp : (BootPolicy.override id BootPolicy.partOptions).result {} =
      .ok BootPolicy.partPolicy := eq_ok_of_toOption (by decide +kernel)
  have hk : (KeyManifest.override id KeyManifest.keyOptions).result {} =
      .ok KeyManifest.keyedManifest := eq_ok_of_toOption (by decide +kernel)
  obtain ⟨hany, _, hagain⟩ := hpolicy _ _ _ (by decide) hp
  obtain ⟨_, hgiven, hagain'⟩ := hkeys _ _ _ (by decide) hk
  obtain ⟨_, _, hrecords⟩ := hkeys _ _ _ (by decide)
    (KeyManifest.result_override_records KeyManifest.twofoldKeys.body.hashes {})
  exact ⟨⟨hany _ (List.reverse_perm _), hagain⟩, hgiven, hagain', hrecords⟩

end BootGuard
