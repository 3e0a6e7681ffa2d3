/-
  Manifests that are made from options.

  A boot policy manifest is made with true digests (`generatePolicy_spec`), a key manifest with
  the hash of the key that is to sign it (`generateKeys_spec`).
-/
import BootGuard.Options.Generate
import BootGuard.Proofs.Manifest.KeyManifest
import BootGuard.Proofs.Measure.Rehash
import BootGuard.Proofs.Options.Overrides

namespace BootGuard

open Update

/-- The key manifest commits to a key: one of its hashes for boot policy keys is that of the
key. -/
def KeyManifest.CommitsTo (k : KeyManifest) (key : KeyDescriptor) : Prop :=
  ∃ hash ∈ k.body.hashes, hash.usage = KeyHash.bootPolicyUsage ∧
    key.dataDigest hash.digest.hashAlg = .ok hash.digest.buffer

namespace Options

/-- The reserved bytes in all manifests are as many as their encodings have room for. -/
structure ReservedFit (o : Options) : Prop where
  policy : ∀ p ∈ o.policy, p.ReservedFit
  keys : ∀ k ∈ o.keys, k.ReservedFit

/-- The steps of making a boot policy manifest. -/
theorem generatePolicy_eq_ok_iff {o : Options} {image : Option Bytes}
    {algs : Option (List Algorithm.Spec)} {overrides : List (String × Json)} {p : BootPolicy} :
    generatePolicy o image algs overrides = .ok p ↔
      refuseNames ["options", "bios", "algorithms"] (overrides.map Prod.fst) = .ok () ∧
      ∃ p0 p1 results s p2, o.policy = some p0 ∧
        (BootPolicy.override id overrides).result p0 = .ok p1 ∧
        Measure.rehash (.bootPolicy p1) image algs none = (.ok results, s) ∧
        s.policy = some (.bootPolicy p2) ∧ BootPolicy.assemble.result p2 = .ok p := by
  rw [generatePolicy, bind_eq_ok_iff]
  constructor
  · intro hall
    obtain ⟨⟨⟩, hnames, h⟩ := hall
    refine ⟨hnames, ?_⟩
    cases hpolicy : o.policy with
    | none =>
      rw [hpolicy] at h
      cases h
    | some p0 =>
      rw [hpolicy] at h
      obtain ⟨p1, hoverride, h⟩ := bind_eq_ok_iff.1 h
      refine ⟨p0, p1, ?_⟩
      split at h
      · rename_i results p2 keys hrehash
        exact ⟨results, _, p2, rfl, hoverride, hrehash, rfl, h⟩
      · cases h
      · cases h
  · intro hall
    obtain ⟨hnames, p0, p1, results, ⟨_, keys⟩, p2, hpolicy, hoverride, hrehash, rfl, hasm⟩ := hall
    refine ⟨(), hnames, ?_⟩
    simp only [hpolicy, hoverride, ok_bind, hrehash, hasm]

/-- A boot policy manifest is made with digests of what it measures in the image. -/
theorem generatePolicy_spec {o : Options} {image : Bytes} {algs : Option (List Algorithm.Spec)}
    {overrides : List (String × Json)} {p : BootPolicy} (ho : o.ReservedFit)
    (h : generatePolicy o (some image) algs overrides = .ok p) :
    p.ReservedFit ∧ ∀ e ∈ p.bootBlocks, e.MeasuredIn image := by
  obtain ⟨_, p0, p1, results, s, p2, hpolicy, hoverride, hrehash, hp2, hasm⟩ :=
    generatePolicy_eq_ok_iff.1 h
  obtain ⟨_, hoverride⟩ := result_eq_ok_iff.1 hoverride
  have hfit := BootPolicy.keeps_override overrides p0 (ho.policy p0 hpolicy)
  rw [hoverride] at hfit
  obtain ⟨p2', hp2', hwithout, hmeasured⟩ := Measure.measuredIn_of_rehash hrehash
  rw [hp2] at hp2'
  cases hp2'
  obtain ⟨b, hasm⟩ := result_eq_ok_iff.1 hasm
  obtain ⟨_, _, _, _, _, _, _, _, _, rfl⟩ := BootPolicy.assemble_eq_ok_iff.1 hasm
  have hfit2 := BootPolicy.ReservedFit.of_withoutDigests hwithout hfit
  exact ⟨⟨hfit2.blocks, hfit2.settings⟩, hmeasured⟩

/-- The steps of making a key manifest that is told the key of the boot policy manifest. -/
theorem generateKeys_steps {o : Options} {key policyKey : KeyMaterial}
    {alg : Option Algorithm.Spec} {overrides : List (String × Json)} {k : KeyManifest}
    (h : generateKeys o key (some policyKey) alg overrides = .ok k) :
    ∃ start before asked descriptor digest bound b, o.keys = some start ∧
      (KeyManifest.overrideAll id overrides).runOn start = (.ok (), before) ∧
      KeyManifest.policyHashAlg alg = .ok asked ∧ policyKey.describe = .ok descriptor ∧
      descriptor.dataDigest asked = .ok digest ∧
      KeyManifest.assemble.runOn { before with
        body := { before.body with
          hashes := KeyManifest.commitTo asked digest before.body.hashes }
        keySignature := some bound } = (.ok b, k) := by
  unfold generateKeys at h
  obtain ⟨_, _, h⟩ := bind_eq_ok_iff.1 h
  cases hkeys : o.keys with
  | none =>
    rw [hkeys] at h
    cases h
  | some start =>
    rw [hkeys] at h
    obtain ⟨_, _, h⟩ := bind_eq_ok_iff.1 h
    obtain ⟨k1, hoverride, h⟩ := bind_eq_ok_iff.1 h
    obtain ⟨⟨⟩, hoverride⟩ := result_eq_ok_iff.1 hoverride
    obtain ⟨asked, before, descriptor, digest, hasked, hbefore, hdescribe, hdigest, rfl⟩ :=
      KeyManifest.commitTo_of_override rfl hoverride
    obtain ⟨bound, _, h⟩ := bind_eq_ok_iff.1 h
    obtain ⟨b, hasm⟩ := result_eq_ok_iff.1 h
    exact ⟨start, before, asked, descriptor, digest, bound, b, rfl, hbefore, hasked, hdescribe,
      hdigest, hasm⟩

/-- A key manifest that is told the key of the boot policy manifest commits to it. -/
theorem generateKeys_spec {o : Options} {key policyKey : KeyMaterial}
    {alg : Option Algorithm.Spec} {overrides : List (String × Json)} {k : KeyManifest}
    (ho : o.ReservedFit) (h : generateKeys o key (some policyKey) alg overrides = .ok k) :
    k.ReservedFit ∧ ∃ descriptor, policyKey.describe = .ok descriptor ∧
      k.CommitsTo descriptor := by
  obtain ⟨start, before, asked, descriptor, digest, _, _, hstart, hbefore, _, hdescribe, hdigest,
    hasm⟩ := generateKeys_steps h
  have hfit := KeyManifest.keeps_overrideAll overrides start (ho.keys start hstart)
  rw [hbefore] at hfit
  obtain ⟨_, _, _, _, _, _, rfl⟩ := KeyManifest.assemble_eq_ok_iff.1 hasm
  exact ⟨hfit, descriptor, hdescribe, _, List.mem_cons_self, rfl, hdigest⟩

end Options

end BootGuard
