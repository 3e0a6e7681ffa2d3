/-
  Whether options leave a key manifest valid.

  A key manifest is valid if no two of its key hashes have the same usage and algorithm. Setting
  its fields does not touch the hashes. The hash of a boot policy key takes the place of the one
  with its usage and algorithm, so the manifest stays valid (`Distinct.commitTo`). An algorithm
  alone makes all hashes of such keys hashes of that algorithm, after which only their usages tell
  them apart (`Distinct.clearHashes_iff`).
-/
import BootGuard.Proofs.Options.Overrides

namespace BootGuard

open Update

/-- What no two key hashes of a manifest share: the usage and the algorithm. -/
def KeyHash.slot (h : KeyHash) : Int × Int := (h.usage, h.digest.hashAlg)

namespace KeyManifest

/-- No two of the key hashes have the same usage and algorithm. -/
def Distinct (hashes : List KeyHash) : Prop := (hashes.map KeyHash.slot).Nodup

theorem checkHashes_eq_ok_iff {seen : List (Int × Int)} {hashes : List KeyHash} :
    checkHashes seen hashes = .ok () ↔ Distinct hashes ∧ ∀ h ∈ hashes, h.slot ∉ seen := by
  induction hashes generalizing seen with
  | nil => simp [checkHashes, Distinct]
  | cons h hs ih =>
    have hdistinct : Distinct (h :: hs) ↔ (∀ x ∈ hs, x.slot ≠ h.slot) ∧ Distinct hs := by
      simp [Distinct, List.nodup_cons]
    rw [checkHashes, hdistinct]
    by_cases hseen : (h.usage, h.digest.hashAlg) ∈ seen
    · rw [if_pos hseen]
      simp [KeyHash.slot, hseen]
    · rw [if_neg hseen, ih]
      simp only [List.mem_cons, not_or, forall_eq_or_imp]
      constructor
      · rintro ⟨hhs, hall⟩
        exact ⟨⟨fun x hx => (hall x hx).1, hhs⟩, hseen, fun x hx => (hall x hx).2⟩
      · rintro ⟨⟨hne, hhs⟩, _, hall⟩
        exact ⟨hhs, fun x hx => ⟨hne x hx, hall x hx⟩⟩

/-- The valid key manifests are those with distinct key hashes. -/
theorem validate_eq_ok_iff {k : KeyManifest} : k.validate = .ok () ↔ Distinct k.body.hashes := by
  rw [validate, checkHashes_eq_ok_iff]
  simp

/-! ## The hash of a boot policy key -/

section CommitTo

variable (alg : Int) (digest : Bytes) (hashes : List KeyHash)

theorem commitTo_eq : commitTo alg digest hashes = ⟨KeyHash.bootPolicyUsage, ⟨alg, digest⟩⟩ ::
    hashes.filter fun h => h.slot ≠ (KeyHash.bootPolicyUsage, alg) := by
  rw [commitTo]
  congr 1
  refine List.filter_congr fun h _ => ?_
  rw [Bool.eq_iff_iff]
  simp [KeyHash.slot]

/-- It is the only one with its usage and algorithm. -/
theorem filter_commitTo :
    (commitTo alg digest hashes).filter (fun h => h.slot = (KeyHash.bootPolicyUsage, alg)) =
      [⟨KeyHash.bootPolicyUsage, ⟨alg, digest⟩⟩] := by
  have hrest : (hashes.filter fun h => h.slot ≠ (KeyHash.bootPolicyUsage, alg)).filter
      (fun h => h.slot = (KeyHash.bootPolicyUsage, alg)) = [] := by
    refine List.filter_eq_nil_iff.2 fun h hmem heq => ?_
    have hne := of_decide_eq_true (List.mem_filter.1 hmem).2
    exact hne (of_decide_eq_true heq)
  rw [commitTo_eq, List.filter_cons_of_pos (by simp [KeyHash.slot]), hrest]

variable {hashes}

theorem Distinct.commitTo (h : Distinct hashes) :
    Distinct (KeyManifest.commitTo alg digest hashes) := by
  rw [Distinct, commitTo_eq, List.map_cons, List.nodup_cons]
  constructor
  · intro hmem
    obtain ⟨x, hx, heq⟩ := List.mem_map.1 hmem
    have hne := of_decide_eq_true (List.mem_filter.1 hx).2
    exact hne heq
  · exact h.sublist (List.filter_sublist.map _)

end CommitTo

/-! ## An algorithm alone -/

/-- The usage and the algorithm of a key hash after hashes of boot policy keys have become empty
ones of an algorithm. -/
def clearedSlot (alg : Int) (h : KeyHash) : Int × Int :=
  if h.signsBootPolicy then (h.usage, alg) else h.slot

theorem map_slot_of_clearHashes {alg : Int} {hashes cleared : List KeyHash}
    (h : clearHashes alg hashes = .ok cleared) :
    cleared.map KeyHash.slot = hashes.map (clearedSlot alg) := by
  induction mapM_eq_ok_iff.1 h with
  | nil => rfl
  | @cons x y _ _ hxy hrest ih =>
    have hslot : y.slot = clearedSlot alg x := by
      unfold clearedSlot
      split at hxy
      · rename_i hbit
        obtain ⟨d, hd, rfl⟩ := map_eq_ok_iff.1 hxy
        obtain ⟨n, _, rfl⟩ := map_eq_ok_iff.1 hd
        rw [if_pos hbit]
        rfl
      · rename_i hbit
        cases hxy
        rw [if_neg hbit]
    rw [List.map_cons, List.map_cons, hslot, ih (mapM_eq_ok_iff.2 hrest)]

/-- Whether a hash is one of a boot policy key depends on its usage alone, so two hashes can only
become alike if both are. -/
theorem clearedSlot_ne_iff {alg : Int} {a b : KeyHash} (h : a.slot ≠ b.slot) :
    clearedSlot alg a ≠ clearedSlot alg b ↔
      (a.signsBootPolicy = true → b.signsBootPolicy = true → a.usage ≠ b.usage) := by
  have hbit : a.usage = b.usage → a.signsBootPolicy = b.signsBootPolicy := by
    intro husage
    rw [KeyHash.signsBootPolicy, KeyHash.signsBootPolicy, husage]
  unfold clearedSlot
  split
  · rename_i ha
    split
    · rename_i hb
      simp [ha, hb]
    · rename_i hb
      have hne : a.usage ≠ b.usage := fun husage => hb (hbit husage ▸ ha)
      simp [KeyHash.slot, hne]
  · rename_i ha
    split
    · rename_i hb
      have hne : a.usage ≠ b.usage := fun husage => ha (hbit husage ▸ hb)
      simp [KeyHash.slot, hne]
    · simp [ha, h]

/-- The hashes of boot policy keys have different usages. -/
def UsagesDistinct (hashes : List KeyHash) : Prop :=
  ((hashes.filter KeyHash.signsBootPolicy).map KeyHash.usage).Nodup

theorem Distinct.clearHashes_iff {alg : Int} {hashes cleared : List KeyHash}
    (h : Distinct hashes) (hclear : clearHashes alg hashes = .ok cleared) :
    Distinct cleared ↔ UsagesDistinct hashes := by
  rw [Distinct, map_slot_of_clearHashes hclear, UsagesDistinct, List.Nodup, List.Nodup,
    List.pairwise_map, List.pairwise_map, List.pairwise_filter]
  rw [Distinct, List.Nodup, List.pairwise_map] at h
  constructor
  · intro hne
    exact (h.and hne).imp fun hab => (clearedSlot_ne_iff hab.1).1 hab.2
  · intro hne
    exact (h.and hne).imp fun hab => (clearedSlot_ne_iff hab.1).2 hab.2

/-! ## The options -/

theorem hashes_of_mem_targets : ∀ x ∈ targets, ∀ v b, (x.2 v b).hashes = b.hashes := by
  simp [targets]

/-- Without an option for them the key hashes stay what they are while fields are set. -/
theorem hashes_of_overrideAll {options : List (String × Json)} {k k' : KeyManifest}
    (hnames : "kmhashes" ∉ options.map Prod.fst)
    (h : (overrideAll id options).runOn k = (.ok (), k')) : k'.body.hashes = k.body.hashes := by
  have hkeeps : Keeps (fun m => m.body.hashes = k.body.hashes) (overrideAll id options) := by
    refine Effect.keeps_overrideEach fun x hx change hchange => ?_
    obtain ⟨set, v, hset, rfl⟩ | ⟨hname, _⟩ := overrideWith_cases hchange
    · exact keeps_modify fun m hm => (hashes_of_mem_targets _ hset v m.body).trans hm
    · exact absurd (List.mem_map.2 ⟨x, hx, hname⟩) hnames
  have hk := hkeeps k rfl
  rw [h] at hk
  exact hk

/-- Options that do not replace the key hashes leave a valid key manifest valid, except that an
algorithm for the hash of a boot policy key, without the key, must not meet two hashes of such
keys with one usage. With the key, its hash under the algorithm comes first and is the only one
with its usage and algorithm; all others stay in their order. -/
theorem validate_of_override {options : Overrides} {k k' : KeyManifest}
    (hvalid : k.validate = .ok ()) (hnames : "kmhashes" ∉ options.fields.map Prod.fst)
    (h : (override id options).runOn k = (.ok (), k')) :
    (k'.validate = .ok () ↔ options.policyKey ≠ none ∨ options.policyHashAlg = none ∨
      UsagesDistinct k.body.hashes) ∧
    ∀ key, options.policyKey = some key → ∃ alg descriptor digest,
      policyHashAlg options.policyHashAlg = .ok alg ∧ key.describe = .ok descriptor ∧
      descriptor.dataDigest alg = .ok digest ∧
      k'.body.hashes = ⟨KeyHash.bootPolicyUsage, ⟨alg, digest⟩⟩ ::
        k.body.hashes.filter (fun h => h.slot ≠ (KeyHash.bootPolicyUsage, alg)) ∧
      k'.body.hashes.filter (fun h => h.slot = (KeyHash.bootPolicyUsage, alg)) =
        [⟨KeyHash.bootPolicyUsage, ⟨alg, digest⟩⟩] := by
  rw [validate_eq_ok_iff] at hvalid ⊢
  obtain ⟨before, hall, hcases⟩ := override_cases h
  rw [← hashes_of_overrideAll hnames hall] at hvalid ⊢
  obtain ⟨key, alg, descriptor, digest, hkey, halg, hdescribe, hdigest, rfl⟩ |
    ⟨spec, alg, hashes, hkey, hspec, _, hclear, rfl⟩ | ⟨hkey, hspec, rfl⟩ := hcases
  · refine ⟨iff_of_true (hvalid.commitTo alg digest) (.inl ?_), ?_⟩
    · rw [hkey]
      exact Option.some_ne_none key
    · intro key' hkey'
      cases hkey.symm.trans hkey'
      exact ⟨alg, descriptor, digest, halg, hdescribe, hdigest, commitTo_eq _ _ _,
        filter_commitTo _ _ _⟩
  · refine ⟨?_, fun key hkey' => by cases hkey.symm.trans hkey'⟩
    rw [hvalid.clearHashes_iff hclear, hkey, hspec]
    simp
  · exact ⟨iff_of_true hvalid (.inr (.inl hspec)), fun key hkey' => by cases hkey.symm.trans hkey'⟩

/-- A key manifest with two hashes of boot policy keys, under different algorithms. -/
def twofoldKeys : KeyManifest where
  body := { hashes := [
    ⟨KeyHash.bootPolicyUsage, ⟨Algorithm.sha256, Bytes.zeros 32⟩⟩,
    ⟨KeyHash.bootPolicyUsage, ⟨Algorithm.sha384, Bytes.zeros 48⟩⟩] }

/-- An algorithm alone. -/
def clearingOptions : Overrides where
  policyHashAlg := some (.id Algorithm.sha512)

/-- A boot policy key with the algorithm of one of the hashes. -/
def committingOptions : Overrides where
  policyKey := some (.rsaPublic 0xBB 3)
  policyHashAlg := some (.id Algorithm.sha384)

/-- With an algorithm alone the two hashes become the same; with a key one of them is replaced. -/
theorem validate_of_override_sample : twofoldKeys.validate = .ok () ∧
    (∃ k', (override id clearingOptions).runOn twofoldKeys = (.ok (), k') ∧
      k'.validate ≠ .ok ()) ∧
    ∃ k', (override id committingOptions).runOn twofoldKeys = (.ok (), k') ∧
      k'.validate = .ok () ∧ k'.body.hashes.length = 2 := by
  have hvalid : twofoldKeys.validate = .ok () := eq_ok_of_toOption (by decide +kernel)
  have hclear := Update.runOn_of_isOk () (u := override id clearingOptions) (s := twofoldKeys)
    (by decide +kernel)
  have hcommit := Update.runOn_of_isOk () (u := override id committingOptions) (s := twofoldKeys)
    (by decide +kernel)
  have hsame : ¬ UsagesDistinct twofoldKeys.body.hashes := by
    unfold UsagesDistinct
    decide
  refine ⟨hvalid, ⟨_, hclear, fun hvalid' => ?_⟩, _, hcommit, ?_, ?_⟩
  · have hiff := (validate_of_override hvalid List.not_mem_nil hclear).1
    obtain hkey | hnone | husages := hiff.1 hvalid'
    · exact hkey rfl
    · cases hnone
    · exact hsame husages
  · exact (validate_of_override hvalid List.not_mem_nil hcommit).1.2
      (.inl (Option.some_ne_none _))
  · obtain ⟨_, _, _, halg, _, _, hhashes, _⟩ :=
      (validate_of_override hvalid List.not_mem_nil hcommit).2 _ rfl
    cases halg
    rw [hhashes, List.length_cons]
    rfl

end KeyManifest

end BootGuard
