/-
  Whether the key hashes of a key manifest agree with the key of a boot policy manifest.

  A key manifest is made with the hash of that key in front, in the place of hashes of the same
  algorithm that are for keys of boot policy manifests and nothing else. Computing digests anew
  goes by the lowest bit of the usage and renews every hash for such keys. What the latter does
  to the former is decided by the hashes that were there before (`rehash_of_generateKeys`).
-/
import BootGuard.Proofs.Measure.Renewal
import BootGuard.Proofs.Options.Generate

namespace BootGuard

/-- The key hash is that of the key if it is for keys of boot policy manifests. -/
def KeyHash.Follows (h : KeyHash) (key : KeyDescriptor) : Prop :=
  h.signsBootPolicy = true → key.dataDigest h.digest.hashAlg = .ok h.digest.buffer

namespace Measure

/-- A hash that follows the key of a boot policy manifest is left as it is, and no other is. -/
theorem renewHash_eq_self_iff {policy : Manifest} {key : KeyDescriptor}
    (hkey : policyKey policy = .ok key) {h : KeyHash} :
    renewHash policy h = .ok h ↔ h.Follows key := by
  unfold renewHash KeyHash.Follows
  by_cases hbit : h.signsBootPolicy = true
  · rw [if_pos hbit, hkey, ok_bind, bind_eq_ok_iff]
    constructor
    · intro hall _
      obtain ⟨d, hd, hsame⟩ := hall
      have hbuffer : d = h.digest.buffer :=
        congrArg (fun h => h.digest.buffer) (Except.ok.inj hsame)
      rw [← hbuffer]
      exact hd
    · intro hd
      exact ⟨_, hd hbit, rfl⟩
  · simp [hbit]

/-- The step for an assembled key manifest leaves it as it is exactly if its hashes follow the key
of the boot policy manifest. -/
theorem KeysStep.eq_self_iff {p : BootPolicy} {key : KeyDescriptor} {algs : Option (List Int)}
    {k k' : KeyManifest} {b : Bytes} {results : List (String × Outcome)}
    (hasm : KeyManifest.assemble.runOn k = (.ok b, k))
    (hkey : policyKey (.bootPolicy p) = .ok key) (h : KeysStep (some p) algs k k' results) :
    k' = k ↔ ∀ hash ∈ k.body.hashes, hash.Follows key := by
  obtain ⟨k1, ds, hk1, ⟨region, _, hregion, _, hk', _⟩, _⟩ := h
  obtain ⟨hashes, hhashes, rfl⟩ := map_eq_ok_iff.1 hk1
  have hfollow : k.body.hashes.mapM (renewHash (.bootPolicy p)) = .ok k.body.hashes ↔
      ∀ hash ∈ k.body.hashes, hash.Follows key := by
    rw [mapM_eq_ok_iff, List.forall₂_same]
    exact forall_congr' fun hash => forall_congr' fun _ => renewHash_eq_self_iff hkey
  rw [← hfollow]
  constructor
  · intro hsame
    have hbody : k'.body.hashes = hashes := by
      cases hk'
      rfl
    rw [hsame] at hbody
    rw [hhashes, hbody]
  · intro hsame
    cases hsame.symm.trans hhashes
    obtain ⟨region0, _, hregion0, _, _, hself⟩ :=
      KeyManifest.assemble_eq_ok_iff_signedRegion.1 hasm
    cases hregion.symm.trans hregion0
    exact (Manifest.keyManifest.inj hk').trans hself.symm

/-- Computing digests anew leaves an assembled key manifest as it is exactly if its hashes follow
the key of the boot policy manifest. -/
theorem rehash_keys_eq_self_iff {k : KeyManifest} {b : Bytes} {p : BootPolicy}
    {key : KeyDescriptor} {image : Option Bytes} {algs : Option (List Algorithm.Spec)}
    {results : List (String × Outcome)} {s : Slots}
    (hasm : KeyManifest.assemble.runOn k = (.ok b, k))
    (hkey : policyKey (.bootPolicy p) = .ok key)
    (h : rehash (.keyManifest k) image algs (some (.bootPolicy p)) = (.ok results, s)) :
    s.keys = some (.keyManifest k) ↔ ∀ hash ∈ k.body.hashes, hash.Follows key := by
  have hall : (rehashAll none algs).runOn (slots (some p) (some k)) = (.ok results, s) := h
  obtain ⟨_, _, _, _, _, _, _, _, hp, hk, rfl, _⟩ := rehashAll_eq_ok_iff_steps.1 hall
  cases hp with
  | @some _ p' _ hp =>
    cases hk with
    | @some _ k' _ hk =>
      -- The step for the boot policy manifest changes no more than its kept offset.
      have hkey' : policyKey (.bootPolicy p') = .ok key := by
        obtain ⟨es, _, hes, ⟨_, _, _, _, hp', _⟩, _⟩ := hp
        cases hp'
        exact hkey
      rw [← hk.eq_self_iff hasm hkey']
      simp [slots]

end Measure

namespace Options

open BootGuard.Measure

/-- A key manifest that was made for the key of a boot policy manifest holds the hash of that key
under the algorithm that is asked for, and the other hashes that were there before but for those
of this algorithm with the usage of boot policy keys alone. Computing the digests anew for a
manifest with that key then leaves it as it is exactly if each of the hashes for keys of boot
policy manifests was replaced or was the hash of the key before. -/
theorem rehash_of_generateKeys {o : Options} {key policyKey : KeyMaterial}
    {alg : Option Algorithm.Spec} {overrides : List (String × Json)} {k : KeyManifest}
    (h : generateKeys o key (some policyKey) alg overrides = .ok k) :
    ∃ start before asked descriptor digest, o.keys = some start ∧
      (KeyManifest.overrideAll id overrides).runOn start = (.ok (), before) ∧
      KeyManifest.policyHashAlg alg = .ok asked ∧ policyKey.describe = .ok descriptor ∧
      descriptor.dataDigest asked = .ok digest ∧
      k.body.hashes = KeyManifest.commitTo asked digest before.body.hashes ∧
      ∀ (p : BootPolicy) (s : KeySignature) (image : Option Bytes)
        (algs : Option (List Algorithm.Spec)) (results : List (String × Outcome)) (left : Slots),
        p.keySignature = some s → s.key = descriptor →
        rehash (.keyManifest k) image algs (some (.bootPolicy p)) = (.ok results, left) →
        (left.keys = some (.keyManifest k) ↔
          ∀ hash ∈ before.body.hashes, hash.signsBootPolicy = true →
            (hash.usage = KeyHash.bootPolicyUsage ∧ hash.digest.hashAlg = asked) ∨
              descriptor.dataDigest hash.digest.hashAlg = .ok hash.digest.buffer) := by
  obtain ⟨start, before, asked, descriptor, digest, bound, b, hstart, hbefore, hasked, hdescribe,
    hdigest, hasm⟩ := generateKeys_steps h
  refine ⟨start, before, asked, descriptor, digest, hstart, hbefore, hasked, hdescribe, hdigest,
    ?_, fun p s image algs results left hs hkey hrehash => ?_⟩
  · obtain ⟨_, _, _, _, _, _, rfl⟩ := KeyManifest.assemble_eq_ok_iff.1 hasm
    rfl
  · have hpolicyKey : Measure.policyKey (.bootPolicy p) = .ok descriptor := by
      have hpopulated : descriptor.populated = true := by
        unfold KeyDescriptor.dataDigest at hdigest
        split at hdigest
        · assumption
        · cases hdigest
      unfold Measure.policyKey
      rw [Manifest.keySignature, hs]
      dsimp only
      rw [hkey, if_pos hpopulated]
    have hself : KeyManifest.assemble.runOn k = (.ok b, k) :=
      Manifest.assemble_keyManifest_iff.1
        (Manifest.assemble_idem (Manifest.assemble_keyManifest_iff.2 hasm))
    rw [rehash_keys_eq_self_iff hself hpolicyKey hrehash]
    obtain ⟨_, _, _, _, _, _, rfl⟩ := KeyManifest.assemble_eq_ok_iff.1 hasm
    simp only [KeyManifest.commitTo, List.forall_mem_cons, List.mem_filter, KeyHash.Follows]
    constructor
    · intro hall hash hmem hbit
      by_cases hreplaced : hash.usage = KeyHash.bootPolicyUsage ∧ hash.digest.hashAlg = asked
      · exact .inl hreplaced
      · have hkept : (!(hash.usage == KeyHash.bootPolicyUsage && hash.digest.hashAlg == asked)) =
            true := by
          simpa [-not_and, not_and_or] using hreplaced
        exact .inr (hall.2 hash ⟨hmem, hkept⟩ hbit)
    · intro hall
      refine ⟨fun _ => hdigest, fun hash hmem hbit => ?_⟩
      obtain ⟨hmem, hkept⟩ := hmem
      obtain hreplaced | hfollows := hall hash hmem hbit
      · simp [hreplaced.1, hreplaced.2] at hkept
      · exact hfollows

/-- Options with one key hash, for keys of boot policy manifests and another use. -/
def leftoverOptions : Options where
  keys := some { body := { hashes := [⟨3, ⟨Algorithm.sha256, Bytes.zeros 32⟩⟩] } }

def leftoverPolicyKey : KeyMaterial := .rsaPublic 0xBB 3

def leftoverKey : KeyMaterial := .rsaPublic 0xFD 3

/-- What a boot policy manifest says of its key. -/
def leftoverDescriptor : KeyDescriptor where
  keyAlg := Algorithm.rsa
  keySize := 8
  data := [0x03, 0x00, 0x00, 0x00, 0xBB]

/-- A boot policy manifest with the key. -/
def leftoverPolicy : BootPolicy :=
  samplePolicy.withKeySignature (some { key := leftoverDescriptor })

/-- The key manifest that is made: the hash that was there is still one of zeros. -/
def leftoverKeys : KeyManifest :=
  (generateKeys leftoverOptions leftoverKey (some leftoverPolicyKey) none []).toOption.getD {}

def leftoverGraph : Graph Task := ⟨taskNodes 0 true true⟩

theorem order_leftoverGraph : leftoverGraph.order Graph.recursionLimit = .ok ["bpm", "km"] := by cbv

theorem rehash_leftoverKeys : ∃ results left,
    rehash (.keyManifest leftoverKeys) none none (some (.bootPolicy leftoverPolicy)) =
      (.ok results, left) := by
  have hrun := Update.runOn_of_isOk []
    (u := leftoverGraph.runAll (run none none) ["bpm", "km"])
    (s := slots (some leftoverPolicy) (some leftoverKeys)) (by decide +kernel)
  have hgraph : graph false (slots (some leftoverPolicy) (some leftoverKeys)) =
      .ok leftoverGraph := rfl
  have hall : (rehashAll none none).runOn (slots (some leftoverPolicy) (some leftoverKeys)) =
      (.ok _, _) :=
    rehashAll_eq_ok_iff.2 ⟨none, leftoverGraph, rfl, hgraph,
      Graph.walk_eq_ok_iff.2 ⟨_, order_leftoverGraph, hrun⟩⟩
  exact ⟨_, _, hall⟩

/-- The hash for two uses is neither replaced nor that of the key, so the key manifest does not
stay as it was made. -/
theorem rehash_of_generateKeys_sample : ∃ results left,
    generateKeys leftoverOptions leftoverKey (some leftoverPolicyKey) none [] =
      .ok leftoverKeys ∧
    rehash (.keyManifest leftoverKeys) none none (some (.bootPolicy leftoverPolicy)) =
      (.ok results, left) ∧
    left.keys ≠ some (.keyManifest leftoverKeys) := by
  have hgenerate := eq_ok_of_isOk {}
    (x := generateKeys leftoverOptions leftoverKey (some leftoverPolicyKey) none [])
    (by decide +kernel)
  have hdescribe : leftoverPolicyKey.describe = .ok leftoverDescriptor :=
    eq_ok_of_toOption (by decide +kernel)
  obtain ⟨results, left, hrehash⟩ := rehash_leftoverKeys
  refine ⟨results, left, hgenerate, hrehash, fun hsame => ?_⟩
  obtain ⟨_, _, _, _, _, ⟨⟩, hbefore, _, hdescribe', _, _, hiff⟩ :=
    rehash_of_generateKeys hgenerate
  cases hbefore
  cases hdescribe.symm.trans hdescribe'
  have hall := (hiff leftoverPolicy _ none none results left rfl rfl hrehash).1 hsame
  obtain ⟨husage, _⟩ | hdigest := hall _ List.mem_cons_self rfl
  · revert husage
    decide
  · have hother : leftoverDescriptor.dataDigest Algorithm.sha256 ≠ .ok (Bytes.zeros 32) := by
      intro h
      have := congrArg Except.toOption h
      revert this
      decide +kernel
    exact hother hdigest

end Options

end BootGuard
