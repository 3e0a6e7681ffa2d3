/-
  What setting fields by option keeps.

  No option changes the number of reserved bytes of an element, so a manifest that can be read
  back remains one. A key manifest that is told the key of the boot policy manifest holds its
  hash in front afterwards (`KeyManifest.commitTo_of_override`).
-/
import BootGuard.Options.KeyOverride
import BootGuard.Options.PolicyOverride
import BootGuard.Proofs.Manifest.BootPolicy
import BootGuard.Proofs.Options.Effect

namespace BootGuard

open Update

theorem mem_of_lookup {α : Type} {name : String} {a : α} {l : List (String × α)}
    (h : l.lookup name = some a) : (name, a) ∈ l := by
  obtain ⟨front, back, rfl, _⟩ := List.lookup_eq_some_iff.1 h
  exact List.mem_append_right _ List.mem_cons_self

/-- None of the options has a reserved name. -/
theorem find?_name_eq_none_iff {reserved : List String} {options : List (String × Json)} :
    (options.find? fun m => reserved.contains m.1) = none ↔ ∀ x ∈ options, x.1 ∉ reserved := by
  simp

/-! ## Boot policy manifests -/

namespace BootPolicy

/-- Setting the field of a target keeps the reserved bytes of its element. -/
def Target.KeepsReserved : Target → Prop
  | header _ => True
  | block set => ∀ v e, (set v e).rsvd2 = e.rsvd2
  | segment _ => True
  | settings set => ∀ v t, (set v t).rsvd3 = t.rsvd3

theorem keepsReserved_of_mem : ∀ x ∈ targets, x.2.KeepsReserved := by
  simp [targets, Target.KeepsReserved]

theorem keeps_ensureBlock : Keeps ReservedFit ensureBlock := by
  refine keeps_modify fun p hp => ?_
  split
  · refine ⟨fun b hb => ?_, hp.settings⟩
    rw [List.mem_singleton.1 hb]
    rfl
  · exact hp

theorem keeps_modifyFirstBlock {f : BootBlock → BootBlock} (hf : ∀ e, (f e).rsvd2 = e.rsvd2) :
    Keeps ReservedFit (modifyFirstBlock f) := by
  refine keeps_modify fun p hp => ⟨fun b hb => ?_, hp.settings⟩
  have hblocks := hp.blocks
  dsimp only at hb
  cases hl : p.bootBlocks with
  | nil =>
    rw [hl] at hb
    cases hb
  | cons e es =>
    rw [hl] at hb hblocks
    obtain rfl | hb := List.mem_cons.1 hb
    · rw [hf]
      exact hblocks e List.mem_cons_self
    · exact hblocks b (List.mem_cons_of_mem _ hb)

theorem keeps_ensureSegment : Keeps ReservedFit ensureSegment := by
  refine keeps_ensureBlock.bind fun _ => keeps_modifyFirstBlock fun e => ?_
  split <;> rfl

theorem keeps_ensureSettings : Keeps ReservedFit ensureSettings := by
  refine keeps_modify fun p hp => ⟨hp.blocks, fun t ht => ?_⟩
  cases Option.some.inj ht
  cases hsettings : p.trustedBoot with
  | none => rfl
  | some t => exact hp.settings t hsettings

theorem keeps_ensure (t : Target) : Keeps ReservedFit t.ensure := by
  cases t with
  | header _ => exact keeps_pure _
  | block _ => exact keeps_ensureBlock
  | segment _ => exact keeps_ensureSegment
  | settings _ => exact keeps_ensureSettings

theorem keeps_put {t : Target} (ht : t.KeepsReserved) (v : Int) :
    Keeps ReservedFit (t.put v) := by
  cases t with
  | header set => exact keeps_modify fun p hp => ⟨hp.blocks, hp.settings⟩
  | block set => exact keeps_modifyFirstBlock (ht v)
  | segment set => exact keeps_modifyFirstBlock fun e => rfl
  | settings set =>
    refine keeps_modify fun p hp => ⟨hp.blocks, fun t' ht' => ?_⟩
    obtain ⟨t, hsettings, rfl⟩ := Option.map_eq_some_iff.1 ht'
    rw [ht v]
    exact hp.settings t hsettings

/-- The change that an option makes keeps the number of reserved bytes. -/
theorem keeps_of_overrideWith {name : String} {value : Json} {change : Update BootPolicy Unit}
    (h : overrideWith name value = .ok change) : Keeps ReservedFit change := by
  unfold overrideWith at h
  split at h
  · obtain ⟨l, _, rfl⟩ := map_eq_ok_iff.1 h
    exact keeps_ensureBlock.bind fun _ => keeps_modifyFirstBlock fun e => rfl
  · split at h
    · cases h
    · rename_i t hlookup
      cases h
      have ht := keepsReserved_of_mem _ (mem_of_lookup hlookup)
      exact (keeps_ensure t).bind fun _ => (keeps_ofExcept _).bind fun v => keeps_put ht v

theorem keeps_overrideAll (options : List (String × Json)) :
    Keeps ReservedFit (overrideAll id options) :=
  Effect.keeps_overrideEach fun _ _ _ h => keeps_of_overrideWith h

/-- Options keep the number of reserved bytes. -/
theorem keeps_override (options : List (String × Json)) :
    Keeps ReservedFit (override id options) := by
  unfold override
  split
  · exact keeps_throw _
  · exact keeps_overrideAll options

end BootPolicy

/-! ## Key manifests -/

namespace KeyManifest

/-- The reserved bytes of the body are as many as its encoding has room for. -/
def ReservedFit (k : KeyManifest) : Prop := k.body.rsvd2.length = 3

theorem keeps_modifyBody {f : KeyManifestBody → KeyManifestBody}
    (hf : ∀ b, (f b).rsvd2 = b.rsvd2) : Keeps ReservedFit (modifyBody f) := by
  refine keeps_modify fun k hk => ?_
  unfold ReservedFit at hk ⊢
  rw [hf]
  exact hk

theorem rsvd2_of_mem_targets : ∀ x ∈ targets, ∀ v b, (x.2 v b).rsvd2 = b.rsvd2 := by
  simp [targets]

/-- The change of the body that an option makes, if its value can be used. -/
def changeOf (name : String) (value : Json) : Except Error (KeyManifestBody → KeyManifestBody) :=
  match targets.lookup name with
  | some set => do
    let v ← if name = "pkhashalg" then (Algorithm.Spec.ofJson value).resolve else value.toWhole
    return set v
  | none =>
    if name = "kmhashes" then do
      let hashes ← value.mapItems KeyHash.ofJson
      return fun b => { b with hashes := hashes }
    else .error (.badValue (.unknownKeyManifestOption name))

theorem overrideWith_eq (name : String) (value : Json) :
    overrideWith name value = (changeOf name value).map modifyBody := by
  unfold overrideWith changeOf
  cases targets.lookup name with
  | some set =>
    by_cases hname : name = "pkhashalg"
    · simp only [if_pos hname]
      cases (Algorithm.Spec.ofJson value).resolve <;> rfl
    · simp only [if_neg hname]
      cases value.toWhole <;> rfl
  | none =>
    by_cases hname : name = "kmhashes"
    · simp only [if_pos hname]
      cases value.mapItems KeyHash.ofJson <;> rfl
    · simp only [if_neg hname]
      rfl

/-- An option sets a field or the key hashes as a whole. -/
theorem changeOf_cases {name : String} {value : Json} {f : KeyManifestBody → KeyManifestBody}
    (h : changeOf name value = .ok f) : (∃ set v, (name, set) ∈ targets ∧ f = set v) ∨
      name = "kmhashes" ∧ ∃ hashes, f = fun b => { b with hashes := hashes } := by
  unfold changeOf at h
  split at h
  · rename_i set hlookup
    have hset := mem_of_lookup hlookup
    left
    dsimp only at h
    split at h
    · obtain ⟨v, _, hv⟩ := bind_eq_ok_iff.1 h
      exact ⟨set, v, hset, (Except.ok.inj hv).symm⟩
    · obtain ⟨v, _, hv⟩ := bind_eq_ok_iff.1 h
      exact ⟨set, v, hset, (Except.ok.inj hv).symm⟩
  · split at h
    · rename_i hname
      obtain ⟨hashes, _, hhashes⟩ := bind_eq_ok_iff.1 h
      exact .inr ⟨hname, hashes, (Except.ok.inj hhashes).symm⟩
    · cases h

theorem overrideWith_cases {name : String} {value : Json} {change : Update KeyManifest Unit}
    (h : overrideWith name value = .ok change) :
    (∃ set v, (name, set) ∈ targets ∧ change = modifyBody (set v)) ∨
      name = "kmhashes" ∧ ∃ hashes, change = modifyBody fun b => { b with hashes := hashes } := by
  rw [overrideWith_eq] at h
  obtain ⟨f, hf, rfl⟩ := map_eq_ok_iff.1 h
  obtain ⟨set, v, hset, rfl⟩ | ⟨hname, hashes, rfl⟩ := changeOf_cases hf
  · exact .inl ⟨set, v, hset, rfl⟩
  · exact .inr ⟨hname, hashes, rfl⟩

theorem keeps_of_overrideWith {name : String} {value : Json} {change : Update KeyManifest Unit}
    (h : overrideWith name value = .ok change) : Keeps ReservedFit change := by
  obtain ⟨set, v, hset, rfl⟩ | ⟨_, hashes, rfl⟩ := overrideWith_cases h
  · exact keeps_modifyBody (rsvd2_of_mem_targets _ hset v)
  · exact keeps_modifyBody fun b => rfl

theorem keeps_overrideAll (options : List (String × Json)) :
    Keeps ReservedFit (overrideAll id options) :=
  Effect.keeps_overrideEach fun _ _ _ h => keeps_of_overrideWith h

/-- The algorithm that is asked for the hash of a boot policy key. -/
def policyHashAlg : Option Algorithm.Spec → Except Error Int
  | none => .ok defaultPolicyHashAlg
  | some spec => spec.resolve

/-- The last steps: the fields are set, and then the key hashes are changed. -/
theorem runOn_fields_iff {options : Overrides} {asked : Option Int} {k k' : KeyManifest} :
    (do
      overrideAll id options.fields
      if let some change ← Update.ofExcept (overridePolicyKey options.policyKey asked) then
        id change : Update KeyManifest Unit).runOn k = (.ok (), k') ↔
    ∃ before change, (overrideAll id options.fields).runOn k = (.ok (), before) ∧
      overridePolicyKey options.policyKey asked = .ok change ∧
      (change.getD (pure ())).runOn before = (.ok (), k') := by
  constructor
  · intro h
    obtain ⟨⟨⟩, before, hall, h⟩ := runOn_bind_eq_ok_iff.1 h
    obtain ⟨change, _, hchange, h⟩ := runOn_bind_eq_ok_iff.1 h
    obtain ⟨hpolicyKey, rfl⟩ := runOn_ofExcept_eq_ok_iff.1 hchange
    refine ⟨_, change, hall, hpolicyKey, ?_⟩
    cases change <;> exact h
  · rintro ⟨before, change, hall, hpolicyKey, h⟩
    refine runOn_bind_eq_ok_iff.2 ⟨(), before, hall, ?_⟩
    refine runOn_bind_eq_ok_iff.2 ⟨change, before, ?_, ?_⟩
    · exact runOn_ofExcept_eq_ok_iff.2 ⟨hpolicyKey, rfl⟩
    · cases change <;> exact h

/-- The steps of setting options: names are looked at first, and before the last steps the
algorithm is resolved. -/
theorem runOn_override_steps {options : Overrides} {k k' : KeyManifest} :
    (override id options).runOn k = (.ok (), k') ↔
      (∀ x ∈ options.fields, x.1 ∉ reservedNames) ∧ ∃ asked before change,
        options.policyHashAlg.mapM Algorithm.Spec.resolve = .ok asked ∧
        (overrideAll id options.fields).runOn k = (.ok (), before) ∧
        overridePolicyKey options.policyKey asked = .ok change ∧
        (change.getD (pure ())).runOn before = (.ok (), k') := by
  unfold override
  cases hfind : options.fields.find? fun m => reservedNames.contains m.1 with
  | some m =>
    constructor
    · intro h
      cases h
    · rintro ⟨hnames, _⟩
      rw [find?_name_eq_none_iff.2 hnames] at hfind
      cases hfind
  | none =>
    simp only [and_iff_right (find?_name_eq_none_iff.1 hfind)]
    cases options.policyHashAlg with
    | none =>
      constructor
      · intro h
        obtain ⟨before, change, hall⟩ := runOn_fields_iff.1 h
        exact ⟨none, before, change, rfl, hall⟩
      · rintro ⟨asked, before, change, hasked, hall⟩
        cases hasked
        exact runOn_fields_iff.2 ⟨before, change, hall⟩
    | some spec =>
      constructor
      · intro h
        obtain ⟨asked, _, hasked, hrest⟩ := runOn_bind_eq_ok_iff.1 h
        obtain ⟨alg, _, hresolve, hpure⟩ := runOn_bind_eq_ok_iff.1 hasked
        obtain ⟨halg, rfl⟩ := runOn_ofExcept_eq_ok_iff.1 hresolve
        obtain ⟨rfl, rfl⟩ := runOn_pure_eq_ok_iff.1 hpure
        obtain ⟨before, change, hall⟩ := runOn_fields_iff.1 hrest
        exact ⟨some alg, before, change, bind_eq_ok_iff.2 ⟨alg, halg, rfl⟩, hall⟩
      · rintro ⟨asked, before, change, hasked, hall⟩
        obtain ⟨alg, halg, hsome⟩ := bind_eq_ok_iff.1 hasked
        cases hsome
        refine runOn_bind_eq_ok_iff.2 ⟨some alg, k, ?_, runOn_fields_iff.2 ⟨before, change, hall⟩⟩
        exact runOn_bind_eq_ok_iff.2 ⟨alg, k, runOn_ofExcept_eq_ok_iff.2 ⟨halg, rfl⟩, rfl⟩

/-- What options change: the fields, which leaves the manifest `before`, and then the key hashes.
With the key of the boot policy manifest its hash comes to the front, under the algorithm that
is asked for; with an algorithm alone the hashes of such keys become empty ones of it. -/
theorem override_cases {options : Overrides} {k k' : KeyManifest}
    (h : (override id options).runOn k = (.ok (), k')) :
    ∃ before, (overrideAll id options.fields).runOn k = (.ok (), before) ∧
      ((∃ key alg descriptor digest, options.policyKey = some key ∧
          policyHashAlg options.policyHashAlg = .ok alg ∧ key.describe = .ok descriptor ∧
          descriptor.dataDigest alg = .ok digest ∧
          k' = { before with body := { before.body with
            hashes := commitTo alg digest before.body.hashes } }) ∨
        (∃ spec alg hashes, options.policyKey = none ∧ options.policyHashAlg = some spec ∧
          spec.resolve = .ok alg ∧ clearHashes alg before.body.hashes = .ok hashes ∧
          k' = { before with body := { before.body with hashes := hashes } }) ∨
        options.policyKey = none ∧ options.policyHashAlg = none ∧ k' = before) := by
  obtain ⟨_, asked, before, change, hasked, hall, hchange, h⟩ := runOn_override_steps.1 h
  refine ⟨before, hall, ?_⟩
  cases hkey : options.policyKey with
  | some key =>
    left
    rw [hkey] at hchange
    simp only [overridePolicyKey, bind_eq_ok_iff, pure_eq_ok, Except.ok.injEq] at hchange
    obtain ⟨descriptor, hdescribe, digest, hdigest, rfl⟩ := hchange
    cases h
    refine ⟨key, _, descriptor, digest, rfl, ?_, hdescribe, hdigest, rfl⟩
    cases hspec : options.policyHashAlg with
    | none =>
      rw [hspec] at hasked
      cases hasked
      rfl
    | some spec =>
      rw [hspec] at hasked
      obtain ⟨alg, halg, hsome⟩ := bind_eq_ok_iff.1 hasked
      cases hsome
      exact halg
  | none =>
    right
    rw [hkey] at hchange
    cases hspec : options.policyHashAlg with
    | none =>
      rw [hspec] at hasked
      cases hasked
      cases hchange
      cases h
      exact .inr ⟨rfl, rfl, rfl⟩
    | some spec =>
      rw [hspec] at hasked
      obtain ⟨alg, halg, hsome⟩ := bind_eq_ok_iff.1 hasked
      cases hsome
      cases hchange
      rw [Option.getD_some, runOn_get_bind] at h
      obtain ⟨hashes, _, hclear, hput⟩ := runOn_bind_eq_ok_iff.1 h
      obtain ⟨hhashes, rfl⟩ := runOn_ofExcept_eq_ok_iff.1 hclear
      cases hput
      exact .inl ⟨spec, alg, hashes, rfl, rfl, halg, hhashes, rfl⟩

/-- Options with the key of the boot policy manifest set the fields first. The hash of the key
then comes to the front, under the algorithm that is asked for. -/
theorem commitTo_of_override {options : Overrides} {key : KeyMaterial} {k k' : KeyManifest}
    (hkey : options.policyKey = some key) (h : (override id options).runOn k = (.ok (), k')) :
    ∃ alg before descriptor digest, policyHashAlg options.policyHashAlg = .ok alg ∧
      (overrideAll id options.fields).runOn k = (.ok (), before) ∧
      key.describe = .ok descriptor ∧ descriptor.dataDigest alg = .ok digest ∧
      k' = { before with body := { before.body with
        hashes := commitTo alg digest before.body.hashes } } := by
  obtain ⟨before, hall, ⟨key', alg, descriptor, digest, hkey', halg, hdescribe, hdigest, hk⟩ |
    ⟨_, _, _, hnone, _⟩ | ⟨hnone, _⟩⟩ := override_cases h
  · cases hkey.symm.trans hkey'
    exact ⟨alg, before, descriptor, digest, halg, hall, hdescribe, hdigest, hk⟩
  · cases hkey.symm.trans hnone
  · cases hkey.symm.trans hnone

end KeyManifest

end BootGuard
