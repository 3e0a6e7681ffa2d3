/-
  Assembling and reading undo each other.

  `Manifest.ofBytes_assemble` is the one direction: what was assembled is read back, under
  strict order too. `Manifest.assemble_ofBytes` is the other: a key manifest is assembled into
  the bytes that it was read from; a boot policy manifest that was read without strict order
  is assembled into as many bytes, and into the same ones exactly if strict order holds.
-/
import BootGuard.Proofs.Manifest.SignedRegion

namespace BootGuard

namespace Manifest

/-! ## The kind of the first element -/

theorem peekId_start {b id : Bytes} (hid : b.take 8 = id) (hlen : id.length = 8) :
    Element.peekId (Reader.start b 0) = .ok (id, Reader.start b 0) := by
  refine (Element.peekId_eq_ok_iff (Int.le_refl 0)).2 ⟨rfl, hid.symm, ?_⟩
  show 8 ≤ b.length
  rw [← hid, List.length_take] at hlen
  omega

theorem ofBytes_of_policyHeader {strict : Bool} {b : Bytes}
    (hid : b.take 8 = ElementKind.policyHeader.id) :
    ofBytes strict b = (BootPolicy.ofBytes strict b >>= fun p => .ok (bootPolicy p)) := by
  unfold ofBytes
  rw [peekId_start hid (ElementKind.length_id _), ok_bind]
  simp only [ElementKind.ofId?_id]
  rfl

theorem ofBytes_of_keyManifest {strict : Bool} {b : Bytes}
    (hid : b.take 8 = ElementKind.keyManifest.id) :
    ofBytes strict b = (KeyManifest.ofBytes b >>= fun k => .ok (keyManifest k)) := by
  unfold ofBytes
  rw [peekId_start hid (ElementKind.length_id _), ok_bind]
  simp only [ElementKind.ofId?_id]
  rfl

theorem ofBytes_eq_bootPolicy_iff {strict : Bool} {b : Bytes} {p : BootPolicy} :
    ofBytes strict b = .ok (.bootPolicy p) ↔ BootPolicy.ofBytes strict b = .ok p := by
  constructor
  · intro hall
    rw [ofBytes, bind_eq_ok_iff] at hall
    obtain ⟨⟨id, c⟩, _, h⟩ := hall
    cases hk : ElementKind.ofId? id with
    | none =>
      simp only [hk] at h
      cases h
    | some k =>
      simp only [hk] at h
      cases k with
      | policyHeader =>
        obtain ⟨q, hq, hp⟩ := bind_eq_ok_iff.1 h
        cases hp
        exact hq
      | keyManifest =>
        obtain ⟨q, _, hp⟩ := bind_eq_ok_iff.1 h
        cases hp
      | _ => cases h
  · intro h
    obtain ⟨header, rest, offset, rfl, hh, _⟩ := BootPolicy.ofBytes_eq_ok_iff.1 h
    have hw : (Element.policyHeader p.header p.keySignatureOffset).Written header := hh
    have hid : (header ++ rest).take 8 = ElementKind.policyHeader.id := by
      rw [List.take_append_of_le_length hw.eight_le]
      exact hw.take_eq_id
    rw [ofBytes_of_policyHeader hid, h]
    rfl

theorem ofBytes_eq_keyManifest_iff (strict : Bool) {b : Bytes} {k : KeyManifest} :
    ofBytes strict b = .ok (.keyManifest k) ↔ KeyManifest.ofBytes b = .ok k := by
  constructor
  · intro hall
    rw [ofBytes, bind_eq_ok_iff] at hall
    obtain ⟨⟨id, c⟩, _, h⟩ := hall
    cases hk : ElementKind.ofId? id with
    | none =>
      simp only [hk] at h
      cases h
    | some kind =>
      simp only [hk] at h
      cases kind with
      | policyHeader =>
        obtain ⟨q, _, hp⟩ := bind_eq_ok_iff.1 h
        cases hp
      | keyManifest =>
        obtain ⟨q, hq, hp⟩ := bind_eq_ok_iff.1 h
        cases hp
        exact hq
      | _ => cases h
  · intro h
    obtain ⟨hr, hasm⟩ := KeyManifest.ofBytes_eq_ok_iff.1 h
    obtain ⟨_, body, sig, hb, _, rfl, _⟩ := KeyManifest.assemble_eq_ok_iff.1 hasm
    have hw : (Element.keyManifest k.body body.length).Written body :=
      ⟨hr, KeyManifestBody.encode_eq_ok_iff_writtenAt.1 hb⟩
    have hid : (body ++ sig).take 8 = ElementKind.keyManifest.id := by
      rw [List.take_append_of_le_length hw.eight_le]
      exact hw.take_eq_id
    rw [ofBytes_of_keyManifest hid, h]
    rfl

/-! ## Reading what was assembled -/

theorem ofBytes_of_assemble_bootPolicy {p p' : BootPolicy} {b : Bytes} (hfit : p.ReservedFit)
    (hasm : BootPolicy.assemble.runOn p = (.ok b, p')) : ofBytes true b = .ok (.bootPolicy p') := by
  have hfit' : p'.ReservedFit := by
    obtain ⟨_, _, _, _, _, _, _, _, _, rfl⟩ := BootPolicy.assemble_eq_ok_iff.1 hasm
    exact ⟨hfit.blocks, hfit.settings⟩
  rw [ofBytes_eq_bootPolicy_iff, BootPolicy.ofBytes_strict_eq_ok_iff]
  exact ⟨hfit', BootPolicy.assemble_idem hasm⟩

theorem ofBytes_of_assemble_keyManifest {k k' : KeyManifest} {b : Bytes} (strict : Bool)
    (hfit : k.body.rsvd2.length = 3) (hasm : KeyManifest.assemble.runOn k = (.ok b, k')) :
    ofBytes strict b = .ok (.keyManifest k') := by
  have hidem := KeyManifest.assemble_idem hasm
  obtain ⟨_, _, _, _, _, _, rfl⟩ := KeyManifest.assemble_eq_ok_iff.1 hasm
  rw [ofBytes_eq_keyManifest_iff, KeyManifest.ofBytes_eq_ok_iff]
  exact ⟨hfit, hidem⟩

/-- The reader gets back what was assembled, also under strict order: the manifest as it is
behind the assembling, which differs from the one before it in nothing but the kept offset. -/
theorem ofBytes_assemble :
    (∀ (p p' : BootPolicy) (b : Bytes), p.ReservedFit →
      BootPolicy.assemble.runOn p = (.ok b, p') →
      ofBytes true b = .ok (.bootPolicy p') ∧
      p'.elements.map Element.withoutOffset = p.elements.map Element.withoutOffset) ∧
    (∀ (k k' : KeyManifest) (b : Bytes) (strict : Bool), k.body.rsvd2.length = 3 →
      KeyManifest.assemble.runOn k = (.ok b, k') →
      ofBytes strict b = .ok (.keyManifest k') ∧
      k'.body = k.body ∧ k'.keySignature = k.keySignature) := by
  constructor
  · intro p p' b hfit hasm
    refine ⟨ofBytes_of_assemble_bootPolicy hfit hasm, ?_⟩
    obtain ⟨_, _, _, _, _, _, _, _, _, rfl⟩ := BootPolicy.assemble_eq_ok_iff.1 hasm
    rfl
  · intro k k' b strict hfit hasm
    refine ⟨ofBytes_of_assemble_keyManifest strict hfit hasm, ?_⟩
    obtain ⟨_, _, _, _, _, _, rfl⟩ := KeyManifest.assemble_eq_ok_iff.1 hasm
    exact ⟨rfl, rfl⟩

/-- A manifest with a boot block of one segment, settings, and no key signature. -/
def samplePolicy : BootPolicy where
  header := { nemPages := 1 }
  bootBlocks := [{ segments := [{}] }]
  trustedBoot := some {}
  signature := { keySignature := none }

theorem ofBytes_assemble_sample :
    (∃ b p', BootPolicy.assemble.runOn samplePolicy = (.ok b, p') ∧
      ofBytes true b = .ok (.bootPolicy p') ∧
      p'.elements.map Element.withoutOffset = samplePolicy.elements.map Element.withoutOffset) ∧
    ∃ b k', KeyManifest.assemble.runOn { body := { hashes := [{}] } } = (.ok b, k') ∧
      ofBytes true b = .ok (.keyManifest k') ∧ k'.body = { hashes := [{}] } ∧
      k'.keySignature = some {} := by
  constructor
  · have hasm := Update.runOn_of_isOk []
      (show (BootPolicy.assemble.runOn samplePolicy).1.isOk = true by decide)
    exact ⟨_, _, hasm, ofBytes_assemble.1 _ _ _ ⟨by decide, by decide⟩ hasm⟩
  · have hasm := Update.runOn_of_isOk []
      (show (KeyManifest.assemble.runOn { body := { hashes := [{}] } }).1.isOk = true by decide)
    exact ⟨_, _, hasm, ofBytes_assemble.2 _ _ _ true (by decide) hasm⟩

/-! ## Assembling what was read -/

/-- What was read is assembled into bytes of the same number; into the same bytes if it is a key
manifest, and otherwise exactly if it is read under strict order. -/
theorem assemble_ofBytes (b : Bytes) :
    (∀ (k : KeyManifest) (strict : Bool), ofBytes strict b = .ok (.keyManifest k) →
      KeyManifest.assemble.runOn k = (.ok b, k)) ∧
    (∀ p : BootPolicy, ofBytes false b = .ok (.bootPolicy p) →
      ∃ b', BootPolicy.assemble.runOn p = (.ok b', p) ∧ b'.length = b.length ∧
        ofBytes true b' = .ok (.bootPolicy p) ∧
        (b' = b ↔ ∃ m, ofBytes true b = .ok m) ∧
        ∀ m, ofBytes true b = .ok m → m = .bootPolicy p) := by
  constructor
  · intro k strict h
    exact (KeyManifest.ofBytes_eq_ok_iff.1 ((ofBytes_eq_keyManifest_iff strict).1 h)).2
  · intro p h
    have hp := ofBytes_eq_bootPolicy_iff.1 h
    obtain ⟨hfit, b', hasm, hlen, _⟩ := BootPolicy.assemble_of_ofBytes hp
    have hread := ofBytes_of_assemble_bootPolicy hfit hasm
    have hsame : ∀ m, ofBytes true b = .ok m → m = .bootPolicy p := by
      intro m hm
      cases m with
      | bootPolicy q =>
        have hq := BootPolicy.ofBytes_of_strict (ofBytes_eq_bootPolicy_iff.1 hm)
        rw [hp] at hq
        cases hq
        rfl
      | keyManifest k =>
        have hk := (ofBytes_eq_keyManifest_iff false).2 ((ofBytes_eq_keyManifest_iff true).1 hm)
        rw [h] at hk
        cases hk
    refine ⟨b', hasm, hlen, hread, ⟨?_, ?_⟩, hsame⟩
    · rintro rfl
      exact ⟨_, hread⟩
    · intro hall
      obtain ⟨m, hm⟩ := hall
      obtain rfl := hsame m hm
      obtain ⟨_, hstrict⟩ := BootPolicy.ofBytes_strict_eq_ok_iff.1 (ofBytes_eq_bootPolicy_iff.1 hm)
      rw [hstrict] at hasm
      cases hasm
      rfl

/-- The encoding of the sample with the settings in front of the boot block. -/
def sampleSettingsFirst : Bytes :=
  (do
    let header ← samplePolicy.header.encode 164
    let settings ← BootPolicy.encodeSettings samplePolicy.trustedBoot
    let blocks ← BootPolicy.encodeBlocks samplePolicy.bootBlocks
    let signature ← samplePolicy.signature.encode
    return header ++ settings ++ blocks ++ signature : Except Error Bytes).toOption.getD []

/-- The settings in front of a boot block: the manifest is read, but assembled into other bytes,
as strict order refuses it. A key manifest is assembled into the same bytes. -/
theorem assemble_ofBytes_sample :
    (∃ b', b'.length = sampleSettingsFirst.length ∧
      ofBytes false sampleSettingsFirst =
        .ok (.bootPolicy { samplePolicy with keySignatureOffset := 164 }) ∧
      BootPolicy.assemble.runOn { samplePolicy with keySignatureOffset := 164 } =
        (.ok b', { samplePolicy with keySignatureOffset := 164 }) ∧
      b' ≠ sampleSettingsFirst) ∧
    ∃ b k, ofBytes true b = .ok (.keyManifest k) ∧ k.body.hashes = [{}] ∧
      KeyManifest.assemble.runOn k = (.ok b, k) := by
  constructor
  · have hread : ofBytes false sampleSettingsFirst =
        .ok (.bootPolicy { samplePolicy with keySignatureOffset := 164 }) :=
      eq_ok_of_toOption (by decide +kernel)
    obtain ⟨b', hasm, hlen, _, hiff, _⟩ := (assemble_ofBytes sampleSettingsFirst).2 _ hread
    refine ⟨b', hlen, hread, hasm, fun heq => ?_⟩
    obtain ⟨m, hm⟩ := hiff.1 heq
    have hrefused : (ofBytes true sampleSettingsFirst).isOk = false := by decide +kernel
    rw [hm] at hrefused
    cases hrefused
  · have hasm := Update.runOn_of_isOk []
      (show (KeyManifest.assemble.runOn { body := { hashes := [{}] } }).1.isOk = true by decide)
    have hread := ofBytes_of_assemble_keyManifest true (by decide) hasm
    refine ⟨_, _, hread, ?_, (assemble_ofBytes _).1 _ true hread⟩
    decide

/-! ## Reserved bytes of a key manifest -/

/-- The manifest with the reserved bytes of a key manifest as its encoding has them. -/
def padded : Manifest → Manifest
  | bootPolicy p => bootPolicy p
  | keyManifest k =>
    keyManifest { k with body := { k.body with rsvd2 := KeyManifestBody.reserved k.body.rsvd2 } }

@[simp] theorem keySignature_padded (m : Manifest) : m.padded.keySignature = m.keySignature := by
  cases m <;> rfl

theorem withOffset_padded (n : Nat) (m : Manifest) :
    (m.withOffset n).padded = m.padded.withOffset n := by
  cases m <;> rfl

/-- More or fewer reserved bytes make no difference to the region. -/
theorem signedRegion_padded (m : Manifest) : m.padded.signedRegion = m.signedRegion := by
  cases m with
  | bootPolicy p => rfl
  | keyManifest k =>
    simp only [padded, signedRegion, KeyManifest.signedRegion, KeyManifest.validate,
      KeyManifestBody.encode_reserved]

/-- A manifest of either kind is read back from its encoding. The reserved bytes of a key manifest
are those of the encoding then. -/
theorem ofBytes_of_assemble {m m' : Manifest} {b : Bytes} (strict : Bool)
    (hfit : ∀ p, m = .bootPolicy p → p.ReservedFit) (h : assemble.runOn m = (.ok b, m')) :
    ofBytes strict b = .ok m'.padded := by
  obtain ⟨region, signature, hr, hs, rfl, rfl⟩ := assemble_eq_ok_iff.1 h
  cases m with
  | bootPolicy p =>
    have hread := ofBytes_of_assemble_bootPolicy (hfit p rfl) (assemble_bootPolicy_iff.1 h)
    cases strict with
    | true => exact hread
    | false =>
      rw [ofBytes_eq_bootPolicy_iff] at hread
      exact ofBytes_eq_bootPolicy_iff.2 (BootPolicy.ofBytes_of_strict hread)
  | keyManifest k =>
    have hpadded := assemble_eq_ok_iff.2 ⟨region, signature,
      (signedRegion_padded (.keyManifest k)).trans hr,
      (congrArg _ (keySignature_padded (.keyManifest k))).trans hs, rfl, rfl⟩
    exact ofBytes_of_assemble_keyManifest strict (KeyManifestBody.length_reserved _)
      (assemble_keyManifest_iff.1 hpadded)

/-- What is read back has the key signature of what was assembled, behind the same region. -/
theorem exists_ofBytes_of_assemble {m m' : Manifest} {region b : Bytes} (strict : Bool)
    (hfit : ∀ p, m = .bootPolicy p → p.ReservedFit) (hr : m.signedRegion = .ok region)
    (h : assemble.runOn m = (.ok b, m')) : ∃ m'', ofBytes strict b = .ok m'' ∧
      signedRegionEnd.runOn m'' = (.ok region.length, m'') ∧
      m''.keySignature = m.keySignature := by
  have hread := ofBytes_of_assemble strict hfit h
  obtain ⟨region', _, hr', _, _, rfl⟩ := assemble_eq_ok_iff.1 h
  rw [hr] at hr'
  cases hr'
  refine ⟨_, hread, ?_, ?_⟩
  · rw [withOffset_padded]
    exact runOn_signedRegionEnd ((signedRegion_padded m).trans hr)
  · rw [keySignature_padded, keySignature_withOffset]

end Manifest

end BootGuard
