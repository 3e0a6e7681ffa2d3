/-
  Provisioning an image.

  Both manifests are made from options, signed and stitched into an image that has none. What
  is read back are the signed manifests: their signatures are accepted, the key manifest
  commits to the key of the boot policy manifest, and the digests are true of the image they
  are now in (`ofImage_of_provisioned`).
-/
import BootGuard.Proofs.Crypto.Rsa
import BootGuard.Proofs.Crypto.Standard
import BootGuard.Proofs.Fit.Manifests
import BootGuard.Proofs.Manifest.RoundTrip
import BootGuard.Proofs.Options.Generate
import BootGuard.Proofs.Signing.Manifest
import Mathlib.NumberTheory.LucasLehmer

namespace BootGuard

open Fit

/-! ## Reading signed manifests -/

namespace Manifest

theorem Signed.ofBytes_bootPolicy {lib : Crypto.Primitives} {p : BootPolicy} {b : Bytes}
    (hfit : p.ReservedFit) (h : (bootPolicy p).Signed lib b) (strict : Bool) :
    ofBytes strict b = .ok (bootPolicy p) := by
  have hstrict := ofBytes_of_assemble_bootPolicy hfit (assemble_bootPolicy_iff.1 h.assemble)
  cases strict with
  | true => exact hstrict
  | false =>
    rw [ofBytes_eq_bootPolicy_iff] at hstrict ⊢
    exact BootPolicy.ofBytes_of_strict hstrict

theorem Signed.ofBytes_keyManifest {lib : Crypto.Primitives} {k : KeyManifest} {b : Bytes}
    (hfit : k.ReservedFit) (h : (keyManifest k).Signed lib b) (strict : Bool) :
    ofBytes strict b = .ok (keyManifest k) :=
  ofBytes_of_assemble_keyManifest strict hfit (assemble_keyManifest_iff.1 h.assemble)

end Manifest

/-! ## The way of a manifest into an image -/

/-- A key that manifests can be signed with, and that accepts what it signs. -/
structure KeyMaterial.Usable (lib : Crypto.Primitives) (key : KeyMaterial) : Prop where
  supported : key.Supported
  accepts : key.AcceptsOwn lib

/-- An RSA key can be used if its modulus is the product of two odd primes modulo which its
exponents undo each other, and is not too long to verify with. -/
theorem KeyMaterial.usable_of_keyPair {p q e d : Nat} (h : Crypto.Rsa.KeyPair p q e d)
    (hpublic : Crypto.Rsa.isPublicKey (p * q) e = true)
    (hbits : Crypto.bitLength (p * q) ≤ Crypto.Rsa.maxModulusBits) :
    (rsaPrivate (p * q) e d).Usable .standard where
  supported := hpublic
  accepts := fun _ _ _ hs => Crypto.Rsa.verify_of_sign h hbits hs

namespace Options

/-- The boot policy manifest `p` was made for an image, and is `b` with a signature. -/
def PolicySigned (lib : Crypto.Primitives) (o : Options) (image : Bytes) (key : KeyMaterial)
    (p : BootPolicy) (b : Bytes) : Prop :=
  ∃ algs fields asked m, generatePolicy o (some image) algs fields = .ok p ∧
    (Signing.signManifest lib key asked).runOn (.bootPolicy p) = (.ok b, m)

/-- A key manifest was made for the key of a boot policy manifest, and is `b` with a
signature. -/
def KeysSigned (lib : Crypto.Primitives) (o : Options) (policyKey key : KeyMaterial) (b : Bytes) :
    Prop :=
  ∃ bound policyPublic alg fields asked k m, policyPublic.toPublic = policyKey.toPublic ∧
    generateKeys o bound (some policyPublic) alg fields = .ok k ∧
    (Signing.signManifest lib key asked).runOn (.keyManifest k) = (.ok b, m)

variable {lib : Crypto.Primitives} {o : Options} {image out policyBytes keyBytes : Bytes}
  {policyKey key : KeyMaterial} {p0 : BootPolicy}

/-- What is known of a signed boot policy manifest. -/
theorem PolicySigned.spec (hlib : lib.Lawful) (ho : o.ReservedFit) (hkey : key.Usable lib)
    (h : o.PolicySigned lib image key p0 policyBytes) :
    ∃ p s, p.ReservedFit ∧ (Manifest.bootPolicy p).Signed lib policyBytes ∧
      p.keySignature = some s ∧ key.describe = .ok s.key ∧ p.bootBlocks = p0.bootBlocks ∧
      ∀ e ∈ p0.bootBlocks, e.MeasuredIn image := by
  obtain ⟨_, _, _, m, hgenerate, hsign⟩ := h
  obtain ⟨hfit, hmeasured⟩ := generatePolicy_spec ho hgenerate
  obtain ⟨hsigned, s, hs, hdescribe⟩ :=
    Signing.signed_of_signManifest hlib hkey.supported hkey.accepts hsign
  obtain ⟨p, rfl, hblocks, hsettings⟩ := Signing.bootPolicy_of_signManifest hsign
  refine ⟨p, s, ⟨?_, ?_⟩, hsigned, hs, hdescribe, hblocks, hmeasured⟩
  · rw [hblocks]
    exact hfit.blocks
  · rw [hsettings]
    exact hfit.settings

/-- What is known of a signed key manifest. -/
theorem KeysSigned.spec (hlib : lib.Lawful) (ho : o.ReservedFit) (hkey : key.Usable lib)
    (h : o.KeysSigned lib policyKey key keyBytes) :
    ∃ k descriptor, k.ReservedFit ∧ (Manifest.keyManifest k).Signed lib keyBytes ∧
      policyKey.describe = .ok descriptor ∧ k.CommitsTo descriptor := by
  obtain ⟨_, policyPublic, _, _, _, k0, m, hpublic, hgenerate, hsign⟩ := h
  obtain ⟨hfit, descriptor, hdescribe, hcommits⟩ := generateKeys_spec ho hgenerate
  obtain ⟨hsigned, _⟩ := Signing.signed_of_signManifest hlib hkey.supported hkey.accepts hsign
  obtain ⟨k, rfl, hbody⟩ := Signing.keyManifest_of_signManifest hsign
  refine ⟨k, descriptor, ?_, hsigned, ?_, ?_⟩
  · rw [KeyManifest.ReservedFit, hbody]
    exact hfit
  · rw [KeyMaterial.describe, ← hpublic]
    exact hdescribe
  · rw [KeyManifest.CommitsTo, hbody]
    exact hcommits

theorem PolicySigned.length (h : o.PolicySigned lib image key p0 policyBytes) :
    policyBytes ≠ [] ∧ policyBytes.length < 0x1000000 := by
  obtain ⟨_, _, _, _, _, hsign⟩ := h
  exact Signing.length_of_signManifest hsign

theorem KeysSigned.length (h : o.KeysSigned lib policyKey key keyBytes) :
    keyBytes ≠ [] ∧ keyBytes.length < 0x1000000 := by
  obtain ⟨_, _, _, _, _, _, _, _, _, hsign⟩ := h
  exact Signing.length_of_signManifest hsign

/-- Provisioning ends well: whatever has been made from options, signed and stitched in is read
back, with signatures that are accepted. The key manifest commits to the key that the boot policy
manifest was signed with, and the digests are true of the new image if no boot block measures
anything of the table. -/
theorem ofImage_of_provisioned (hlib : lib.Lawful) {offset : Nat} {header : Entry} {es : List Entry}
    (ho : o.ReservedFit) (hvacant : Vacant image offset header es)
    (hpolicyKey : policyKey.Usable lib) (hkey : key.Usable lib)
    (hpolicy : o.PolicySigned lib image policyKey p0 policyBytes)
    (hkeys : o.KeysSigned lib policyKey key keyBytes)
    (hout : stitch image (manifestPayloads policyBytes keyBytes) = .ok out) :
    ∃ p k s, ofImage out true = .ok { policy := some p, keys := some k } ∧
      (Manifest.bootPolicy p).Signed lib policyBytes ∧
      (Manifest.keyManifest k).Signed lib keyBytes ∧
      p.keySignature = some s ∧ k.CommitsTo s.key ∧ p.bootBlocks = p0.bootBlocks ∧
      ((∀ e ∈ p.bootBlocks, ∀ r, e.Measures image.length r →
          Apart r (tableInterval offset es [.keyManifest, .bootPolicy])) →
        ∀ e ∈ p.bootBlocks, e.MeasuredIn out) := by
  obtain ⟨p, s, hpfit, hpsigned, hps, hdescribe, hblocks, hmeasured⟩ :=
    hpolicy.spec hlib ho hpolicyKey
  obtain ⟨k, descriptor, hkfit, hksigned, hdescribe', hcommits⟩ := hkeys.spec hlib ho hkey
  rw [hdescribe] at hdescribe'
  cases hdescribe'
  have hpne := hpolicy.length.1
  have hkne := hkeys.length.1
  obtain ⟨hs, hcount, ranges, w, table, hstitched⟩ :=
    hvacant.stitched hpolicy.length hkeys.length hout
  have hpolicyOut : extract out typeBootPolicy = .ok policyBytes :=
    hstitched.extract_of_absent hs hvacant.absent hcount .bootPolicy hpne
  have hkeysOut : extract out typeKeyManifest = .ok keyBytes :=
    hstitched.extract_of_absent hs hvacant.absent hcount .keyManifest hkne
  refine ⟨p, k, s, ?_, hpsigned, hksigned, hps, hcommits, hblocks, fun hapart e he => ?_⟩
  · rw [ofImage, hpolicyOut, hkeysOut]
    simp only [ok_bind, hpsigned.ofBytes_bootPolicy hpfit, hksigned.ofBytes_keyManifest hkfit]
    rfl
  · have hread := hpsigned.ofBytes_bootPolicy hpfit false
    have hranges := hstitched.ranges
    rw [policy_manifestPayloads, governingRanges_eq hpne hread] at hranges
    have hlocated := BootPolicy.located_of_assemble
      (Manifest.assemble_bootPolicy_iff.1 hpsigned.assemble) e he
    refine hstitched.measuredIn_out hranges he hlocated hvacant.absent ?_
      (hmeasured e (by rw [← hblocks]; exact he))
    rw [kinds_manifestPayloads hpne hkne]
    exact hapart e he

/-! ## A provisioned image -/

/-- Options for one boot block, the first 16 bytes of an image of 0x800. -/
def sampleOptions : Options where
  policy := some { defaultPolicy with
    bootBlocks := [{
      digestList := ⟨[defaultDigest]⟩
      segments := [{ base := 0xFFFFF800, size := 0x10 }] }] }
  keys := some defaultKeys

/-- An image with bytes to be measured, and a table at 0x100 that is no more than a header. -/
def sampleFlash : Bytes :=
  List.replicate 0x10 0x5A ++ Bytes.erased 0xF0 ++
  headText ++ Bytes.ofNatLe 4 1 ++ Bytes.ofNatLe 2 0x0100 ++ [0, 0] ++ Bytes.erased 0x6B0 ++
  Bytes.ofNatLe 8 0xFFFFF900 ++ Bytes.zeros 0x38

/-- A key with two Mersenne primes behind its modulus; `k` makes the division exact. -/
def mersenneKey (i j k : Nat) : KeyMaterial :=
  .rsaPrivate (mersenne i * mersenne j) 65537
    ((1 + k * ((mersenne i - 1) * (mersenne j - 1))) / 65537)

def samplePolicyKey : KeyMaterial := mersenneKey 521 127 10880

def sampleKey : KeyMaterial := mersenneKey 607 89 32811

/-- Both keys can be used: their factors are Mersenne primes. -/
theorem usable_sampleKeys : samplePolicyKey.Usable .standard ∧ sampleKey.Usable .standard := by
  constructor
  · refine KeyMaterial.usable_of_keyPair ⟨?_, ?_, ?_, ?_, ?_, ?_, ?_⟩ ?_ ?_
    · exact lucas_lehmer_sufficiency 521 (by norm_num) (by norm_num)
    · exact lucas_lehmer_sufficiency 127 (by norm_num) (by norm_num)
    · exact strictMono_mersenne.injective.ne (by decide)
    all_goals decide +kernel
  · refine KeyMaterial.usable_of_keyPair ⟨?_, ?_, ?_, ?_, ?_, ?_, ?_⟩ ?_ ?_
    · exact lucas_lehmer_sufficiency 607 (by norm_num) (by norm_num)
    · exact lucas_lehmer_sufficiency 89 (by norm_num) (by norm_num)
    · exact strictMono_mersenne.injective.ne (by decide)
    all_goals decide +kernel

theorem usable_samplePolicyKey : samplePolicyKey.Usable .standard := usable_sampleKeys.1

theorem usable_sampleKey : sampleKey.Usable .standard := usable_sampleKeys.2

/-- The boot policy manifest that the options hold. -/
def sampleStart : BootPolicy := sampleOptions.policy.getD {}

/-- The same with the digest of what it measures. -/
def samplePolicy : BootPolicy :=
  { sampleStart with
    bootBlocks := sampleStart.bootBlocks.map fun e =>
      { e with digestList := ⟨[⟨defaultAlg, HashFunction.sha256.hash (sampleFlash.take 0x10)⟩]⟩ }
    keySignatureOffset := 200 }

/-- What the digests of a boot policy manifest are computed in. -/
def sampleSlots (p : BootPolicy) : Measure.Slots := { policy := some (.bootPolicy p) }

/-- What is to be computed for it. -/
def sampleGraph : Measure.Graph Measure.Task where
  nodes := [⟨"ibb:0", .bootBlock 0, []⟩, ⟨"bpm", .policy, ["ibb:0"]⟩]

theorem order_sampleGraph :
    sampleGraph.order Measure.Graph.recursionLimit = .ok ["ibb:0", "bpm"] := by cbv

theorem generatePolicy_sample :
    generatePolicy sampleOptions (some sampleFlash) none [] = .ok samplePolicy := by
  have hrun := Update.runOn_of_isOk []
    (u := sampleGraph.runAll (Measure.run (some sampleFlash) none) ["ibb:0", "bpm"])
    (s := sampleSlots sampleStart) (by decide +kernel)
  have hslots : ((sampleGraph.runAll (Measure.run (some sampleFlash) none) ["ibb:0", "bpm"]).runOn
      (sampleSlots sampleStart)).2 = sampleSlots samplePolicy := by decide +kernel
  rw [hslots] at hrun
  have hgraph : Measure.graph true (sampleSlots sampleStart) = .ok sampleGraph := rfl
  have hrehash : (Measure.rehashAll (some sampleFlash) none).runOn (sampleSlots sampleStart) =
      (.ok _, sampleSlots samplePolicy) :=
    Measure.rehashAll_eq_ok_iff.2 ⟨none, sampleGraph, rfl, hgraph,
      Measure.Graph.walk_eq_ok_iff.2 ⟨_, order_sampleGraph, hrun⟩⟩
  refine generatePolicy_eq_ok_iff.2 ⟨rfl, sampleStart, sampleStart, _, _, samplePolicy, rfl,
    rfl, hrehash, rfl, ?_⟩
  exact eq_ok_of_toOption (by decide +kernel)

/-- The boot policy manifest with its signature. -/
def samplePolicyBytes : Bytes :=
  let u := Signing.signManifest .standard samplePolicyKey none
  (u.runOn (.bootPolicy samplePolicy)).1.toOption.getD []

theorem exists_signManifest_samplePolicy :
    ∃ m, (Signing.signManifest .standard samplePolicyKey none).runOn (.bootPolicy samplePolicy) =
      (.ok samplePolicyBytes, m) :=
  ⟨_, Update.runOn_of_isOk [] (by decide +kernel)⟩

theorem policySigned_sample :
    sampleOptions.PolicySigned .standard sampleFlash samplePolicyKey samplePolicy
      samplePolicyBytes := by
  obtain ⟨m, hsign⟩ := exists_signManifest_samplePolicy
  exact ⟨none, [], none, m, generatePolicy_sample, hsign⟩

/-- The key manifest for the key of the boot policy manifest. -/
def sampleKeys : KeyManifest :=
  (generateKeys sampleOptions sampleKey (some samplePolicyKey) none []).toOption.getD {}

/-- The key manifest with its signature. -/
def sampleKeyBytes : Bytes :=
  let u := Signing.signManifest .standard sampleKey none
  (u.runOn (.keyManifest sampleKeys)).1.toOption.getD []

theorem keysSigned_sample :
    sampleOptions.KeysSigned .standard samplePolicyKey sampleKey sampleKeyBytes := by
  have hgenerate := eq_ok_of_isOk {}
    (x := generateKeys sampleOptions sampleKey (some samplePolicyKey) none []) (by decide +kernel)
  have hsign := Update.runOn_of_isOk [] (u := Signing.signManifest .standard sampleKey none)
    (s := .keyManifest sampleKeys) (by decide +kernel)
  exact ⟨sampleKey, samplePolicyKey, none, [], none, sampleKeys, _, rfl, hgenerate, hsign⟩

def sampleHeader : Entry := Entry.decode ((sampleFlash.drop 0x100).take entrySize)

theorem vacant_sample : Vacant sampleFlash 0x100 sampleHeader [] where
  find := eq_ok_of_toOption (by decide +kernel)
  read := eq_ok_of_toOption (by decide +kernel)
  no_keys := by decide +kernel
  no_policy := by decide +kernel
  end_le := by decide +kernel
  count := by decide +kernel

/-- The run over the manifests ends with the key manifest at 0x6B0 and the boot policy manifest
at 0x530. -/
def sampleWorkspace : Workspace :=
  ((startWorkspace sampleFlash 0x100 [] [.keyManifest, .bootPolicy] [(0, 0x10)]).moved
    .keyManifest sampleKeyBytes 0x6B0).moved .bootPolicy samplePolicyBytes 0x530

theorem placeAll_sample :
    (startWorkspace sampleFlash 0x100 [] [.keyManifest, .bootPolicy] [(0, 0x10)]).placeAll
      [(.keyManifest, sampleKeyBytes), (.bootPolicy, samplePolicyBytes)] =
        .ok sampleWorkspace := by
  have hpolicy : samplePolicyBytes.length = 379 := by decide +kernel
  have hkeys : sampleKeyBytes.length = 259 := by decide +kernel
  rw [Workspace.placeAll, Workspace.place_of_absent 0x6B0 rfl, ok_bind]
  · rw [Workspace.placeAll, Workspace.place_of_absent 0x530 rfl, ok_bind]
    · rfl
    · rw [hpolicy]
      refine findFree?_below 0x680 0x6B0 0x530 ?_ ?_ ?_ ?_ ?_
      all_goals decide +kernel
  · rw [hkeys]
    refine findFree?_below 0x6F0 0x7C0 0x6B0 ?_ ?_ ?_ ?_ ?_
    all_goals decide +kernel

def sampleTable : Bytes := (encodeTable sampleHeader sampleWorkspace.entries).toOption.getD []

/-- The image with both manifests and the new table. -/
def sampleStitched : Bytes := sampleWorkspace.image.overwrite 0x100 sampleTable

theorem reservedFit_sampleOptions : sampleOptions.ReservedFit := by
  constructor
  · intro p hp
    cases hp
    exact ⟨by decide, by decide⟩
  · intro k hk
    cases hk
    rfl

theorem stitch_sample :
    stitch sampleFlash (manifestPayloads samplePolicyBytes sampleKeyBytes) =
      .ok sampleStitched := by
  have hpne := policySigned_sample.length.1
  have hkne := keysSigned_sample.length.1
  have hkinds := kinds_manifestPayloads hpne hkne
  have hlist := toList_manifestPayloads hpne hkne
  obtain ⟨p, _, hfit, hsigned, _, _, hblocks, _⟩ :=
    policySigned_sample.spec Crypto.Primitives.standard_lawful reservedFit_sampleOptions
      usable_samplePolicyKey
  have hranges : governingRanges sampleFlash [] samplePolicyBytes = .ok [(0, 0x10)] := by
    rw [governingRanges_eq hpne (hsigned.ofBytes_bootPolicy hfit false), hblocks]
    exact eq_ok_of_toOption (by decide +kernel)
  rw [stitch_eq_ok_iff vacant_sample.toTableAt, hkinds, hlist, policy_manifestPayloads]
  refine ⟨List.cons_ne_nil _ _, 0x130, [(0, 0x10)], sampleWorkspace, sampleTable, ?_, hranges,
    placeAll_sample, ?_, rfl⟩
  · exact eq_ok_of_toOption (by decide +kernel)
  · exact eq_ok_of_isOk [] (by decide +kernel)

/-- The image is provisioned: its one boot block measures nothing of the table. -/
theorem ofImage_of_provisioned_sample :
    ∃ p k s, ofImage sampleStitched true = .ok { policy := some p, keys := some k } ∧
      (Manifest.bootPolicy p).Signed .standard samplePolicyBytes ∧
      (Manifest.keyManifest k).Signed .standard sampleKeyBytes ∧
      p.keySignature = some s ∧ k.CommitsTo s.key ∧ p.bootBlocks = samplePolicy.bootBlocks ∧
      ∀ e ∈ p.bootBlocks, e.MeasuredIn sampleStitched := by
  obtain ⟨p, k, s, hread, hpolicy, hkeys, hs, hcommits, hblocks, hdigests⟩ :=
    ofImage_of_provisioned Crypto.Primitives.standard_lawful reservedFit_sampleOptions vacant_sample
      usable_samplePolicyKey usable_sampleKey policySigned_sample keysSigned_sample stitch_sample
  refine ⟨p, k, s, hread, hpolicy, hkeys, hs, hcommits, hblocks, hdigests ?_⟩
  have hsegment : ∀ e ∈ samplePolicy.bootBlocks, ∀ t ∈ e.segments,
      t = { base := 0xFFFFF800, size := 0x10 } := by decide +kernel
  have hlocate : ({ base := 0xFFFFF800, size := 0x10 } : Segment).locate sampleFlash.length =
      .ok 0 := eq_ok_of_toOption (by decide +kernel)
  intro e he r hr
  rw [hblocks] at he
  obtain ⟨t, ht, _, offset, hoffset, rfl⟩ := hr
  rw [hsegment e he t ht, hlocate] at hoffset
  cases hoffset
  rw [hsegment e he t ht]
  exact apart_of_le (by decide)

end Options

end BootGuard
