/-
  Signed manifests.

  A key is bound before its manifest is signed, and the signature then takes the place of the
  zeros. Neither changes the signed region (`signManifest_eq_ok`), so the signature in the final
  encoding is one of the bytes in front of it (`signed_of_signManifest`).
-/
import BootGuard.Proofs.Manifest.SignedRegion
import BootGuard.Proofs.Signing.Signature
import BootGuard.Signing.Manifest

namespace BootGuard

/-! ## Lengths of key signatures -/

/-- The length of an encoded key signature follows from the records in front of its data. -/
theorem SignatureDescriptor.length_of_encode {s : SignatureDescriptor} {b : Bytes}
    (h : s.encode = .ok b) : dataSize s.sigScheme s.keySize = .ok s.data.length ∧
      b.length = 7 + s.data.length := by
  obtain ⟨hsize, head, hhead, rfl⟩ := encode_eq_ok_iff.1 h
  have hlen : head.length = 7 := IntField.length_of_encodeAll hhead
  rw [List.length_append, hlen]
  exact ⟨hsize, rfl⟩

/-- Key signatures of the same key and algorithm have as much data, and encodings of one length. -/
theorem Signing.length_encode_signatureOf {key : KeyDescriptor} {alg : Int}
    {data data' b b' : Bytes} (h : (Signing.signatureOf key alg data).encode = .ok b)
    (h' : (Signing.signatureOf key alg data').encode = .ok b') :
    data.length = data'.length ∧ b.length = b'.length := by
  obtain ⟨version, kb, sb, hv, hk, hs, rfl⟩ := KeySignature.encode_eq_ok_iff.1 h
  obtain ⟨version', kb', sb', hv', hk', hs', rfl⟩ := KeySignature.encode_eq_ok_iff.1 h'
  obtain ⟨hsize, hlen⟩ := SignatureDescriptor.length_of_encode hs
  obtain ⟨hsize', hlen'⟩ := SignatureDescriptor.length_of_encode hs'
  have hkey : kb = kb' := Except.ok.inj (hk.symm.trans hk')
  have hdata : data.length = data'.length :=
    Int.natCast_inj.1 (Except.ok.inj (hsize.symm.trans hsize'))
  have hversion := IntField.length_of_encodeAll hv
  have hversion' := IntField.length_of_encodeAll hv'
  have hsig : sb.length = sb'.length := hlen.trans ((congrArg (7 + ·) hdata).trans hlen'.symm)
  refine ⟨hdata, ?_⟩
  rw [List.length_append, List.length_append, List.length_append, List.length_append, hversion,
    hversion', hkey, hsig]

/-! ## Signing -/

/-- The manifest is encoded as `b`, and its key signature is one of the bytes of `b` in front of
it. -/
structure Manifest.Signed (lib : Crypto.Primitives) (m : Manifest) (b : Bytes) : Prop where
  assemble : Manifest.assemble.runOn m = (.ok b, m)
  verify : ∃ stop, Manifest.signedRegionEnd.runOn m = (.ok stop, m) ∧
    Signing.verify lib (b.take stop) m.keySignature = .ok true

namespace Signing

variable {lib : Crypto.Primitives} {material : KeyMaterial} {asked : Option Algorithm.Spec}
  {m m' : Manifest} {b : Bytes}

/-- The message that is signed is the signed region. -/
theorem signRegion_eq_ok_iff {bound s : KeySignature} :
    (signRegion lib material bound).runOn m = (.ok s, m') ↔ ∃ region held,
      m.signedRegion = .ok region ∧ KeySignature.encode? m.keySignature = .ok held ∧
      sign lib region material (some bound) (some (.id bound.signature.hashAlg)) = .ok s ∧
      m' = m.withOffset region.length := by
  rw [signRegion, Update.runOn_bind_eq_ok_iff]
  constructor
  · intro h
    obtain ⟨b, m1, hasm, h⟩ := h
    obtain ⟨region, held, hr, hheld, rfl, rfl⟩ := Manifest.assemble_eq_ok_iff.1 hasm
    rw [Update.runOn_bind_eq_ok_iff, Manifest.runOn_signedRegionEnd hr] at h
    obtain ⟨_, _, ⟨⟩, h⟩ := h
    obtain ⟨hsign, rfl⟩ := Update.runOn_ofExcept_eq_ok_iff.1 h
    rw [List.take_left] at hsign
    exact ⟨region, held, hr, hheld, hsign, rfl⟩
  · intro h
    obtain ⟨region, held, hr, hheld, hsign, rfl⟩ := h
    refine ⟨region ++ held, m.withOffset region.length,
      Manifest.assemble_eq_ok_iff.2 ⟨region, held, hr, hheld, rfl, rfl⟩, ?_⟩
    rw [Update.runOn_bind_eq_ok_iff, Manifest.runOn_signedRegionEnd hr]
    refine ⟨region.length, _, rfl, Update.runOn_ofExcept_eq_ok_iff.2 ⟨?_, rfl⟩⟩
    rw [List.take_left]
    exact hsign

/-- Signing binds the key, signs the region of the manifest as it was and puts the key signature
in the place of the bound one; both have an encoding. -/
theorem signManifest_eq_ok_iff : (signManifest lib material asked).runOn m = (.ok b, m') ↔
    ∃ region bound held s encoded, m.signedRegion = .ok region ∧
      bind m.keySignature material asked = .ok bound ∧ bound.encode = .ok held ∧
      sign lib region material (some bound) (some (.id bound.signature.hashAlg)) = .ok s ∧
      s.encode = .ok encoded ∧ b = region ++ encoded ∧
      m' = (m.withKeySignature (some s)).withOffset region.length := by
  rw [signManifest, Update.runOn_get_bind, Update.runOn_bind_eq_ok_iff]
  -- the key signature takes the place of the bound one, and the kept offset is already right
  have hsigned (bound s : KeySignature) (n : Nat) :
      ((m.withKeySignature (some bound)).withOffset n).withKeySignature (some s) =
        (m.withKeySignature (some s)).withOffset n := by
    rw [Manifest.withKeySignature_withOffset, Manifest.withKeySignature_withKeySignature]
  simp only [Update.runOn_ofExcept_eq_ok_iff, Update.runOn_modify_bind,
    Update.runOn_bind_eq_ok_iff, signRegion_eq_ok_iff, Manifest.assemble_eq_ok_iff,
    Manifest.signedRegion_withKeySignature, Manifest.keySignature_withKeySignature,
    KeySignature.encode?]
  constructor
  · intro h
    obtain ⟨bound, _, ⟨hbind, rfl⟩, s, _, ⟨region, held, hr, hheld, hsign, rfl⟩, _, encoded, hr',
      hencode, rfl, rfl⟩ := h
    rw [Manifest.signedRegion_withOffset_iff, Manifest.signedRegion_withKeySignature, hr] at hr'
    cases hr'
    refine ⟨region, bound, held, s, encoded, hr, hbind, hheld, hsign, hencode, rfl, ?_⟩
    rw [hsigned, Manifest.withOffset_withOffset]
  · intro h
    obtain ⟨region, bound, held, s, encoded, hr, hbind, hheld, hsign, hencode, rfl, rfl⟩ := h
    refine ⟨bound, m, ⟨hbind, rfl⟩, s, _, ⟨region, held, hr, hheld, hsign, rfl⟩, region, encoded,
      ?_, hencode, rfl, ?_⟩
    · rw [Manifest.signedRegion_withOffset_iff, Manifest.signedRegion_withKeySignature]
      exact hr
    · rw [hsigned, Manifest.withOffset_withOffset]

/-- What signing yields: the signed region of the manifest as it was, with a key signature of
that region behind it. -/
theorem signManifest_eq_ok (h : (signManifest lib material asked).runOn m = (.ok b, m')) :
    ∃ region bound s encoded, m.signedRegion = .ok region ∧
      bind m.keySignature material asked = .ok bound ∧
      sign lib region material (some bound) (some (.id bound.signature.hashAlg)) = .ok s ∧
      s.encode = .ok encoded ∧ b = region ++ encoded ∧
      m' = (m.withKeySignature (some s)).withOffset region.length := by
  obtain ⟨region, bound, _, s, encoded, hr, hbind, _, hsign, hencode, hb, hm⟩ :=
    signManifest_eq_ok_iff.1 h
  exact ⟨region, bound, s, encoded, hr, hbind, hsign, hencode, hb, hm⟩

/-- A manifest that was signed with a key that accepts its own signatures is signed, and has the
public part of that key in it. -/
theorem signed_of_signManifest (hlib : lib.Lawful) (hsupported : material.Supported)
    (haccepts : material.AcceptsOwn lib)
    (h : (signManifest lib material asked).runOn m = (.ok b, m')) :
    m'.Signed lib b ∧ ∃ s, m'.keySignature = some s ∧ material.describe = .ok s.key := by
  obtain ⟨region, bound, s, encoded, hregion, _, hsign, hencode, rfl, rfl⟩ :=
    signManifest_eq_ok h
  have hregion' : ((m.withKeySignature (some s)).withOffset region.length).signedRegion =
      .ok region := by
    rw [Manifest.signedRegion_withOffset_iff, Manifest.signedRegion_withKeySignature]
    exact hregion
  have hend := Manifest.runOn_signedRegionEnd hregion'
  rw [Manifest.withOffset_withOffset] at hend
  constructor
  · constructor
    · refine Manifest.assemble_eq_ok_iff.2 ⟨region, encoded, hregion', ?_, rfl, ?_⟩
      · rw [Manifest.keySignature_withOffset, Manifest.keySignature_withKeySignature]
        exact hencode
      · rw [Manifest.withOffset_withOffset]
    · refine ⟨region.length, hend, ?_⟩
      rw [List.take_left, Manifest.keySignature_withOffset, Manifest.keySignature_withKeySignature]
      exact verify_of_sign hlib hsupported haccepts hsign
  · refine ⟨s, ?_, ?_⟩
    · rw [Manifest.keySignature_withOffset, Manifest.keySignature_withKeySignature]
    · obtain ⟨_, key, _, _, _, hkey, _, _, _, rfl⟩ := sign_eq_ok_iff.1 hsign
      exact hkey

/-- Signing a boot policy manifest changes nothing that is signed. -/
theorem bootPolicy_of_signManifest {p : BootPolicy}
    (h : (signManifest lib material asked).runOn (.bootPolicy p) = (.ok b, m')) :
    ∃ p', m' = .bootPolicy p' ∧ p'.bootBlocks = p.bootBlocks ∧ p'.trustedBoot = p.trustedBoot := by
  obtain ⟨_, _, _, _, _, _, _, _, _, rfl⟩ := signManifest_eq_ok h
  exact ⟨_, rfl, rfl, rfl⟩

/-- Nor does signing a key manifest. -/
theorem keyManifest_of_signManifest {k : KeyManifest}
    (h : (signManifest lib material asked).runOn (.keyManifest k) = (.ok b, m')) :
    ∃ k', m' = .keyManifest k' ∧ k'.body = k.body := by
  obtain ⟨_, _, _, _, _, _, _, _, _, rfl⟩ := signManifest_eq_ok h
  exact ⟨_, rfl, rfl⟩

/-- A signed manifest fits an entry of a table. -/
theorem length_of_signManifest (h : (signManifest lib material asked).runOn m = (.ok b, m')) :
    b ≠ [] ∧ b.length < 0x1000000 := by
  obtain ⟨region, _, s, encoded, hregion, _, _, hencode, rfl, _⟩ := signManifest_eq_ok h
  have hle := Manifest.length_signedRegion_le hregion
  have hlt := KeySignature.length_of_encode_lt hencode
  constructor
  · exact List.append_ne_nil_of_right_ne_nil _ (KeySignature.ne_nil_of_encode hencode)
  · rw [Frame.maxSize] at hle
    rw [List.length_append]
    omega

end Signing

end BootGuard
