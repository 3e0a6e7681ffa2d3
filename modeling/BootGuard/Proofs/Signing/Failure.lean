/-
  What a manifest is like where signing it has failed.

  There are four steps that may fail: binding, encoding the bound manifest, signing, and encoding
  the signed one. Nothing has changed where the first one fails, and the last one never does,
  because the signature has the length that was held for it (`dataSize_of_signatureData`). Where
  the others fail, the bound key signature stays, and all else is what it was
  (`signManifest_eq_error`).
-/
import BootGuard.Proofs.Crypto.Standard
import BootGuard.Proofs.Signing.Manifest

namespace BootGuard

open Crypto

/-! ## The length of a signature -/

theorem bytesOfBits_natCast (n : Nat) : bytesOfBits n = ((n + 7) / 8 : Nat) := by
  unfold bytesOfBits
  omega

namespace Signing

variable {lib : Primitives} {material : KeyMaterial} {asked : Option Algorithm.Spec}
  {m m' : Manifest} {b : Bytes} {e : Error}

/-- A signature has the length that its scheme and the size of the key say. -/
theorem dataSize_of_signatureData (hlib : lib.Lawful) {signer : PrivateKey} {key : KeyDescriptor}
    {alg : Int} {message data : Bytes} (hsigner : material.toPrivate = .ok signer)
    (hkey : material.describe = .ok key) (h : signatureData lib signer alg message = .ok data) :
    SignatureDescriptor.dataSize key.sigScheme key.keySize = .ok data.length := by
  cases material with
  | rsaPrivate n e d =>
    cases hsigner
    obtain ⟨_, _, _, rfl⟩ := KeyMaterial.describeRsa_eq_ok_iff.1 hkey
    obtain ⟨f, s, _, hs, rfl⟩ := signatureData_rsa h
    rw [List.length_reverse, hlib.length_rsaSign? hs]
    exact congrArg Except.ok (bytesOfBits_natCast (bitLength n))
  | ecPrivate kind c secret x y =>
    cases hsigner
    obtain ⟨curve, hc, rfl⟩ := KeyMaterial.describePoint_eq_ok_iff.1 hkey
    obtain ⟨f, r, s, _, _, rfl⟩ := signatureData_ec hc h
    have hbytes : 2 * bytesOfBits (8 * curve.orderSize : Nat) =
        (curve.orderSize + curve.orderSize : Nat) := by
      rw [bytesOfBits_natCast]
      omega
    rw [List.length_append, Bytes.length_ofNatLe, Bytes.length_ofNatLe]
    exact congrArg Except.ok hbytes
  | _ => cases hsigner

/-- Whether a key signature can be encoded does not depend on the bytes of the signature. -/
theorem exists_encode_signatureOf {key : KeyDescriptor} {alg : Int} {data data' : Bytes}
    (h : (signatureOf key alg data).encode = .ok b) (hlen : data'.length = data.length) :
    ∃ b', (signatureOf key alg data').encode = .ok b' := by
  obtain ⟨version, kb, sb, hversion, hkb, hsb, rfl⟩ := KeySignature.encode_eq_ok_iff.1 h
  obtain ⟨hsize, head, hhead, rfl⟩ := SignatureDescriptor.encode_eq_ok_iff.1 hsb
  have hsize' : SignatureDescriptor.dataSize key.sigScheme key.keySize = .ok data'.length := by
    rw [hlen]
    exact hsize
  exact ⟨_, KeySignature.encode_eq_ok_iff.2 ⟨version, kb, head ++ data', hversion, hkb,
    SignatureDescriptor.encode_eq_ok_iff.2 ⟨hsize', head, hhead, rfl⟩, rfl⟩⟩

/-! ## The steps -/

/-- Signing the region changes nothing but the kept offset, also where it fails. -/
theorem withOffset_of_signRegion {bound : KeySignature} {x : Except Error KeySignature}
    (h : (signRegion lib material bound).runOn m = (x, m')) : m'.withOffset 0 = m.withOffset 0 := by
  have hkeeps : Update.Keeps (fun m1 => m1.withOffset 0 = m.withOffset 0)
      (signRegion lib material bound) :=
    (Manifest.keeps_assemble m).bind fun _ =>
      (Manifest.keeps_signedRegionEnd m).bind fun _ => Update.keeps_ofExcept _
  have hkept := hkeeps m rfl
  rwa [h] at hkept

/-- Signing the region fails where the manifest has no encoding or the key does not sign. -/
theorem signRegion_eq_error {bound : KeySignature}
    (h : (signRegion lib material bound).runOn m = (.error e, m')) :
    Manifest.assemble.runOn m = (.error e, m') ∨ ∃ region, m.signedRegion = .ok region ∧
      sign lib region material (some bound) (some (.id bound.signature.hashAlg)) = .error e := by
  rw [signRegion, Update.runOn_bind] at h
  rcases hasm : Manifest.assemble.runOn m with ⟨x, t⟩
  rw [hasm] at h
  cases x with
  | error e' =>
    cases h
    exact .inl rfl
  | ok b =>
    obtain ⟨region, held, hr, _, rfl, rfl⟩ := Manifest.assemble_eq_ok_iff.1 hasm
    dsimp only at h
    rw [Update.runOn_bind, Manifest.runOn_signedRegionEnd hr] at h
    dsimp only at h
    rw [Update.runOn_ofExcept, List.take_left] at h
    exact .inr ⟨region, hr, (Prod.mk.inj h).1⟩

/-- A manifest that was signed has an encoding. -/
theorem exists_assemble_of_signRegion (hlib : lib.Lawful) {bound s : KeySignature}
    (hbind : bind m.keySignature material asked = .ok bound)
    (h : (signRegion lib material bound).runOn (m.withKeySignature (some bound)) = (.ok s, m')) :
    ∃ b m'', Manifest.assemble.runOn (m'.withKeySignature (some s)) = (.ok b, m'') := by
  obtain ⟨region, held, hr, hheld, hsign, rfl⟩ := signRegion_eq_ok_iff.1 h
  obtain ⟨key, size, alg, hkey, hsize, _, rfl⟩ := boundKey_eq_ok_iff.1 hbind
  obtain ⟨signer, key', alg', data, hsigner, hkey', _, halg, hdata, rfl⟩ := sign_eq_ok_iff.1 hsign
  rw [hkey] at hkey'
  cases hkey'
  cases halg
  rw [Manifest.keySignature_withKeySignature] at hheld
  have hlen : data.length = (Bytes.zeros size.toNat).length := by
    rw [dataSize_of_signatureData hlib hsigner hkey hdata, Except.ok.injEq] at hsize
    rw [← hsize, Bytes.zeros, List.length_replicate, Int.toNat_natCast]
  obtain ⟨encoded, hencode⟩ := exists_encode_signatureOf hheld hlen
  refine ⟨_, _, Manifest.assemble_eq_ok_iff.2 ⟨region, encoded, ?_, ?_, rfl, rfl⟩⟩
  · rw [Manifest.signedRegion_withKeySignature, Manifest.signedRegion_withOffset_iff]
    exact hr
  · rw [Manifest.keySignature_withKeySignature]
    exact hencode

/-- Signing a manifest fails where the key cannot be bound or the bound manifest not be signed;
putting in the signature does not fail. -/
theorem step_of_signManifest_eq_error (hlib : lib.Lawful)
    (h : (signManifest lib material asked).runOn m = (.error e, m')) :
    (bind m.keySignature material asked = .error e ∧ m' = m) ∨
    ∃ bound, bind m.keySignature material asked = .ok bound ∧
      (signRegion lib material bound).runOn (m.withKeySignature (some bound)) = (.error e, m') := by
  rw [signManifest, Update.runOn_get_bind, Update.runOn_bind, Update.runOn_ofExcept] at h
  cases hbind : bind m.keySignature material asked with
  | error e' =>
    rw [hbind] at h
    cases h
    exact .inl ⟨rfl, rfl⟩
  | ok bound =>
    rw [hbind] at h
    dsimp only at h
    rw [Update.runOn_modify_bind, Update.runOn_bind] at h
    rcases hregion : (signRegion lib material bound).runOn (m.withKeySignature (some bound)) with
      ⟨x, t⟩
    rw [hregion] at h
    cases x with
    | error e' =>
      cases h
      exact .inr ⟨bound, rfl, hregion⟩
    | ok s =>
      obtain ⟨b, m'', hasm⟩ := exists_assemble_of_signRegion hlib hbind hregion
      dsimp only at h
      rw [Update.runOn_modify_bind, hasm] at h
      cases h

/-- What is left of `m` where the key was bound and not signed with: the descriptor of the key and
a signature of zeros are in `m'`, and nothing else is new, apart from the kept offset. -/
structure BoundOnly (lib : Primitives) (material : KeyMaterial) (asked : Option Algorithm.Spec)
    (m m' : Manifest) (e : Error) (key : KeyDescriptor) (alg size : Int) : Prop where
  described : material.describe = .ok key
  size_eq : SignatureDescriptor.dataSize key.sigScheme key.keySize = .ok size
  bound : bind m.keySignature material asked = .ok (signatureOf key alg (Bytes.zeros size.toNat))
  keySignature : m'.keySignature = some (signatureOf key alg (Bytes.zeros size.toNat))
  rest : m'.withOffset 0 = (m.withKeySignature m'.keySignature).withOffset 0
  cause : Manifest.assemble.runOn (m.withKeySignature m'.keySignature) = (.error e, m') ∨
    ∃ region, m.signedRegion = .ok region ∧
      sign lib region material m'.keySignature (some (.id alg)) = .error e

/-- A failure leaves the manifest as it was, if the key could not be bound, or else with the bound
key signature, whose signature is zeros. -/
theorem signManifest_eq_error (hlib : lib.Lawful)
    (h : (signManifest lib material asked).runOn m = (.error e, m')) :
    (bind m.keySignature material asked = .error e ∧ m' = m) ∨
      ∃ key alg size, BoundOnly lib material asked m m' e key alg size := by
  obtain hbind | ⟨bound, hbind, hregion⟩ := step_of_signManifest_eq_error hlib h
  · exact .inl hbind
  · obtain ⟨key, size, alg, hkey, hsize, _, rfl⟩ := boundKey_eq_ok_iff.1 hbind
    have hkept := withOffset_of_signRegion hregion
    have hsignature : m'.keySignature =
        some (signatureOf key alg (Bytes.zeros size.toNat)) := by
      have hsame := congrArg Manifest.keySignature hkept
      rwa [Manifest.keySignature_withOffset, Manifest.keySignature_withOffset,
        Manifest.keySignature_withKeySignature] at hsame
    refine .inr ⟨key, alg, size, hkey, hsize, hbind, hsignature, ?_, ?_⟩
    · rw [hsignature]
      exact hkept
    · rw [hsignature]
      obtain hasm | ⟨region, hr, hsign⟩ := signRegion_eq_error hregion
      · exact .inl hasm
      · rw [Manifest.signedRegion_withKeySignature] at hr
        exact .inr ⟨region, hr, hsign⟩

/-! ## A hash algorithm that can be bound and not be signed with -/

/-- The key on the curve P-256 whose public point is the base point. -/
def baseKey : KeyMaterial := .ecPrivate .dedicated .p256 1 Curve.p256.baseX Curve.p256.baseY

/-- What signing the default key manifest with it under SM3 leaves behind. -/
def refused : Except Error Bytes × Manifest :=
  (signManifest .standard baseKey (some (.id Algorithm.sm3))).runOn (.keyManifest {})

/-- The key refuses to sign when the manifest has another key signature already. -/
theorem refused_fails : refused.1 =
      .error (.unsupportedAlgorithm (.ecdsaSigning Algorithm.sm3)) ∧
    refused.2.keySignature ≠ (Manifest.keyManifest {}).keySignature := by
  decide +kernel

theorem refused_eq :
    refused = (.error (.unsupportedAlgorithm (.ecdsaSigning Algorithm.sm3)), refused.2) :=
  Prod.ext refused_fails.1 rfl

/-- The key is bound, and the signature is zeros. -/
theorem signManifest_eq_error_sample :
    ∃ key alg size, baseKey.describe = .ok key ∧
      refused.2.keySignature = some (signatureOf key alg (Bytes.zeros size)) ∧
      refused.2.withOffset 0 =
        ((Manifest.keyManifest {}).withKeySignature refused.2.keySignature).withOffset 0 := by
  obtain ⟨_, hsame⟩ | ⟨key, alg, size, hleft⟩ :=
    signManifest_eq_error Primitives.standard_lawful refused_eq
  · exact absurd (congrArg Manifest.keySignature hsame) refused_fails.2
  · exact ⟨key, alg, size.toNat, hleft.described, hleft.keySignature, hleft.rest⟩

/-- So it is not true that a failure leaves the key signature as it was. -/
theorem not_keySignature_of_signManifest_eq_error :
    ¬ ∀ (material : KeyMaterial) (asked : Option Algorithm.Spec) (m m' : Manifest) (e : Error),
      (signManifest .standard material asked).runOn m = (.error e, m') →
        m'.keySignature = m.keySignature := by
  intro h
  exact refused_fails.2 (h _ _ _ _ _ refused_eq)

end Signing

end BootGuard
