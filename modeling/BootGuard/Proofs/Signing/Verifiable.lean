/-
  What signing a manifest yields is verified, now and when it is read back.

  The key signature that is bound and the final one are made apart from each other, yet they
  differ in the bytes of the signature only (`signatures_of_signManifest`). So the
  manifest has its final length before it is signed, and the bytes that were signed are those in
  front of the key signature in the end (`signManifest_verifiable`).
-/
import BootGuard.Proofs.Options.Provision

namespace BootGuard

/-- Another key signature leaves the reserved bytes as they are. -/
theorem Manifest.reservedFit_withKeySignature {m : Manifest} (s : Option KeySignature)
    (hfit : ∀ p, m = .bootPolicy p → p.ReservedFit) :
    ∀ p, m.withKeySignature s = .bootPolicy p → p.ReservedFit := by
  intro p hp
  cases m with
  | bootPolicy q =>
    cases hp
    exact ⟨(hfit q rfl).blocks, (hfit q rfl).settings⟩
  | keyManifest k => cases hp

namespace Signing

variable {lib : Crypto.Primitives} {material : KeyMaterial} {asked : Option Algorithm.Spec}
  {m m' : Manifest} {b : Bytes}

/-- The bound key signature and the final one differ in the bytes of the signature only, which
are zeros in the bound one and the signature of the signed region in the final one. -/
theorem signatures_of_signManifest (h : (signManifest lib material asked).runOn m = (.ok b, m')) :
    ∃ region signer key alg data held encoded, m.signedRegion = .ok region ∧
      material.toPrivate = .ok signer ∧ material.describe = .ok key ∧
      signatureData lib signer alg region = .ok data ∧
      bind m.keySignature material asked =
        .ok (signatureOf key alg (Bytes.zeros data.length)) ∧
      sign lib region material (some (signatureOf key alg (Bytes.zeros data.length)))
        (some (.id alg)) = .ok (signatureOf key alg data) ∧
      (signatureOf key alg (Bytes.zeros data.length)).encode = .ok held ∧
      (signatureOf key alg data).encode = .ok encoded ∧ held.length = encoded.length ∧
      b = region ++ encoded ∧
      m' = (m.withKeySignature (some (signatureOf key alg data))).withOffset region.length := by
  obtain ⟨region, bound, held, s, encoded, hr, hbind, hheld, hsign, hencode, rfl, rfl⟩ :=
    signManifest_eq_ok_iff.1 h
  obtain ⟨key, size, alg, hkey, _, _, rfl⟩ := boundKey_eq_ok_iff.1 hbind
  obtain ⟨signer, key', alg', data, hsigner, hkey', _, halg, hdata, rfl⟩ := sign_eq_ok_iff.1 hsign
  rw [hkey] at hkey'
  cases hkey'
  cases halg
  obtain ⟨hlen, hheldLength⟩ := length_encode_signatureOf hheld hencode
  rw [Bytes.zeros, List.length_replicate] at hlen
  rw [hlen] at hbind hsign hheld
  exact ⟨region, signer, key, alg, data, held, encoded, hr, hsigner, hkey, hdata, hbind, hsign,
    hheld, hencode, hheldLength, rfl, rfl⟩

/-! ## The signed manifest -/

/-- A signed manifest is as long as it was with the key bound. What was handed to the primitive
are the bytes in front of the key signature, which holds the public part of the key and is
verified; it is read back with these bytes, and is verified then. -/
theorem signManifest_verifiable (hlib : lib.Lawful)
    (hfit : ∀ p, m = .bootPolicy p → p.ReservedFit)
    (hsupported : material.Supported) (haccepts : material.AcceptsOwn lib)
    (h : (signManifest lib material asked).runOn m = (.ok b, m')) :
    ∃ bound b0 m0 stop signer s, bind m.keySignature material asked = .ok bound ∧
      bound = signatureOf s.key s.signature.hashAlg (Bytes.zeros s.signature.data.length) ∧
      Manifest.assemble.runOn (m.withKeySignature (some bound)) = (.ok b0, m0) ∧
      b.length = b0.length ∧
      (signRegion lib material bound).runOn (m.withKeySignature (some bound)) = (.ok s, m0) ∧
      Manifest.signedRegionEnd.runOn m0 = (.ok stop, m0) ∧
      Manifest.signedRegionEnd.runOn m' = (.ok stop, m') ∧ b.take stop = b0.take stop ∧
      material.toPrivate = .ok signer ∧
      signatureData lib signer s.signature.hashAlg (b.take stop) = .ok s.signature.data ∧
      m'.keySignature = some s ∧ material.describe = .ok s.key ∧
      verify lib (b.take stop) m'.keySignature = .ok true ∧
      ∀ strict, ∃ m'', Manifest.ofBytes strict b = .ok m'' ∧
        Manifest.signedRegionEnd.runOn m'' = (.ok stop, m'') ∧
        m''.keySignature = m'.keySignature ∧
        verify lib (b.take stop) m''.keySignature = .ok true := by
  obtain ⟨region, signer, key, alg, data, held, encoded, hr, hsigner, hkey, hdata, hbind, hsign,
    hheld, hencode, hlen, rfl, rfl⟩ := signatures_of_signManifest h
  have hverify := verify_of_sign hlib hsupported haccepts hsign
  have hr0 : (m.withKeySignature
      (some (signatureOf key alg (Bytes.zeros data.length)))).signedRegion = .ok region := by
    rw [Manifest.signedRegion_withKeySignature]
    exact hr
  have hr1 : (m.withKeySignature (some (signatureOf key alg data))).signedRegion = .ok region := by
    rw [Manifest.signedRegion_withKeySignature]
    exact hr
  have hencode' : KeySignature.encode?
      (m.withKeySignature (some (signatureOf key alg data))).keySignature = .ok encoded := by
    rw [Manifest.keySignature_withKeySignature]
    exact hencode
  refine ⟨_, region ++ held, _, region.length, signer, signatureOf key alg data, hbind, rfl,
    Manifest.assemble_eq_ok_iff.2 ⟨region, held, hr0, ?_, rfl, rfl⟩, ?_,
    signRegion_eq_ok_iff.2 ⟨region, held, hr0, ?_, hsign, rfl⟩,
    Manifest.runOn_signedRegionEnd hr0, Manifest.runOn_signedRegionEnd hr1, ?_, hsigner, ?_, ?_,
    hkey, ?_, fun strict => ?_⟩
  · rw [Manifest.keySignature_withKeySignature]
    exact hheld
  · rw [List.length_append, List.length_append, hlen]
  · rw [Manifest.keySignature_withKeySignature]
    exact hheld
  · rw [List.take_left, List.take_left]
  · rw [List.take_left]
    exact hdata
  · rw [Manifest.keySignature_withOffset, Manifest.keySignature_withKeySignature]
  · rw [List.take_left, Manifest.keySignature_withOffset, Manifest.keySignature_withKeySignature]
    exact hverify
  · obtain ⟨m'', hread, hstop, hs⟩ := Manifest.exists_ofBytes_of_assemble strict
      (Manifest.reservedFit_withKeySignature _ hfit) hr1
      (Manifest.assemble_eq_ok_iff.2 ⟨region, encoded, hr1, hencode', rfl, rfl⟩)
    rw [Manifest.keySignature_withKeySignature] at hs
    refine ⟨m'', hread, hstop, ?_, ?_⟩
    · rw [hs, Manifest.keySignature_withOffset, Manifest.keySignature_withKeySignature]
    · rw [List.take_left, hs]
      exact hverify

/-- The sample is signed with an RSA key of 648 bits. -/
theorem signManifest_verifiable_sample :
    ∃ m' stop s, (signManifest .standard Options.samplePolicyKey none).runOn
        (.bootPolicy Options.samplePolicy) = (.ok Options.samplePolicyBytes, m') ∧
      Manifest.signedRegionEnd.runOn m' = (.ok stop, m') ∧ m'.keySignature = some s ∧
      Options.samplePolicyKey.describe = .ok s.key ∧
      verify .standard (Options.samplePolicyBytes.take stop) m'.keySignature = .ok true ∧
      ∃ m'', Manifest.ofBytes true Options.samplePolicyBytes = .ok m'' ∧
        m''.keySignature = m'.keySignature := by
  obtain ⟨m', hsign⟩ := Options.exists_signManifest_samplePolicy
  have hfit : ∀ p, Manifest.bootPolicy Options.samplePolicy = .bootPolicy p → p.ReservedFit := by
    rintro _ ⟨⟩
    exact ⟨by decide, by decide⟩
  obtain ⟨_, _, _, stop, _, s, _, _, _, _, _, _, hstop, _, _, _, hs, hkey, hverify, hread⟩ :=
    signManifest_verifiable Crypto.Primitives.standard_lawful hfit
      Options.usable_samplePolicyKey.supported
      Options.usable_samplePolicyKey.accepts hsign
  obtain ⟨m'', hm'', _, hs'', _⟩ := hread true
  exact ⟨m', stop, s, hsign, hstop, hs, hkey, hverify, m'', hm'', hs''⟩

end Signing

end BootGuard
