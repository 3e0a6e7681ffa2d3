/-
  The bytes that a key signature covers.

  An assembled manifest is its signed region with the key signature behind it
  (`Manifest.assemble_eq_ok_iff`). The region is derived from the other parts: neither the key
  signature nor the offset that is kept has any part in it.
-/
import BootGuard.Proofs.Manifest.BootPolicy
import BootGuard.Proofs.Manifest.KeyManifest

namespace BootGuard

/-! ## Boot policy manifests -/

namespace BootPolicy

/-- The bytes that a key signature covers, up to the head of the signature element. -/
def signedRegion (p : BootPolicy) : Except Error Bytes := do
  let (middle, offset) ← p.arrange
  let header ← p.header.encode offset
  let head ← Frame.encode .signature p.signature.structVer p.signature.var0 p.signature.rsvdSize []
  return header ++ middle ++ head

theorem signedRegion_eq_ok_iff {p : BootPolicy} {region : Bytes} :
    p.signedRegion = .ok region ↔ p.validate = .ok () ∧ ∃ middle header head,
      p.encodeMiddle = .ok middle ∧
      p.header.encode (UInt16.ofNat (offsetAfter middle.length)) = .ok header ∧
      Frame.encode .signature p.signature.structVer p.signature.var0 p.signature.rsvdSize [] =
        .ok head ∧
      offsetAfter middle.length ≤ Frame.maxSize ∧ region = header ++ middle ++ head := by
  simp only [signedRegion, bind_eq_ok_iff, pure_eq_ok, Except.ok.injEq]
  constructor
  · intro h
    obtain ⟨⟨middle, offset⟩, harr, header, hh, head, he, rfl⟩ := h
    obtain ⟨hv, hm, _, hle, rfl⟩ := arrange_eq_ok_iff.1 harr
    exact ⟨hv, middle, header, head, hm, hh, he, hle, rfl⟩
  · intro h
    obtain ⟨hv, middle, header, head, hm, hh, he, hle, rfl⟩ := h
    exact ⟨_, arrange_eq_ok_iff.2 ⟨hv, hm, PolicyHeader.encode_of_encode hh _, hle, rfl⟩, header,
      hh, head, he, rfl⟩

theorem length_head {p : BootPolicy} {head : Bytes}
    (h : Frame.encode .signature p.signature.structVer p.signature.var0 p.signature.rsvdSize [] =
      .ok head) : head.length = Frame.headSize := Frame.length_of_encode h

/-- The region ends where the encoded header says that the key signature starts. -/
theorem length_signedRegion {p : BootPolicy} {middle header head : Bytes} {offset : UInt16}
    (hh : p.header.encode offset = .ok header)
    (he : Frame.encode .signature p.signature.structVer p.signature.var0 p.signature.rsvdSize [] =
      .ok head) : (header ++ middle ++ head).length = offsetAfter middle.length := by
  rw [List.length_append, List.length_append, PolicyHeader.length_of_encode hh, length_head he,
    offsetAfter]

theorem length_signedRegion_le {p : BootPolicy} {region : Bytes} (h : p.signedRegion = .ok region) :
    region.length ≤ Frame.maxSize := by
  obtain ⟨_, middle, header, head, _, hh, he, hle, rfl⟩ := signedRegion_eq_ok_iff.1 h
  rw [length_signedRegion hh he]
  exact hle

theorem assemble_eq_ok_iff_signedRegion {p p' : BootPolicy} {b : Bytes} :
    assemble.runOn p = (.ok b, p') ↔ ∃ region signature, p.signedRegion = .ok region ∧
      KeySignature.encode? p.keySignature = .ok signature ∧ b = region ++ signature ∧
      p' = { p with keySignatureOffset := UInt16.ofNat region.length } := by
  rw [assemble_eq_ok_iff]
  simp only [signedRegion_eq_ok_iff, SignatureElement.encode_eq_ok_iff]
  constructor
  · intro h
    obtain ⟨hv, middle, header, _, hm, hh, ⟨body, hb, henc⟩, hle, rfl, rfl⟩ := h
    obtain ⟨head, he, rfl⟩ := Frame.encode_eq_ok_iff_head.1 henc
    refine ⟨_, body, ⟨hv, middle, header, head, hm, hh, he, hle, rfl⟩, hb, ?_, ?_⟩
    · simp only [List.append_assoc]
    · rw [length_signedRegion hh he]
  · intro h
    obtain ⟨region, body, ⟨hv, middle, header, head, hm, hh, he, hle, rfl⟩, hb, rfl, rfl⟩ := h
    rw [length_signedRegion hh he]
    refine ⟨hv, middle, header, head ++ body, hm, hh, ⟨body, hb, ?_⟩, hle, ?_, rfl⟩
    · exact Frame.encode_eq_ok_iff_head.2 ⟨head, he, rfl⟩
    · simp only [List.append_assoc]

theorem signedRegionEnd_of_signedRegion {p : BootPolicy} {region : Bytes}
    (h : p.signedRegion = .ok region) : p.signedRegionEnd = .ok region.length := by
  obtain ⟨_, middle, header, head, hm, hh, he, _, rfl⟩ := signedRegion_eq_ok_iff.1 h
  obtain ⟨header', hh'⟩ := PolicyHeader.encode_of_encode hh p.keySignatureOffset
  rw [length_signedRegion hh he, signedRegionEnd, signatureOffset, hm, ok_bind, offsetBehind, hh',
    ok_bind, pure_eq_ok, ok_bind, pure_eq_ok, PolicyHeader.length_of_encode hh', offsetAfter]

/-- The kept offset has no part in the region. -/
theorem signedRegion_withOffset_iff {p : BootPolicy} (offset : UInt16) {region : Bytes} :
    { p with keySignatureOffset := offset }.signedRegion = .ok region ↔
      p.signedRegion = .ok region := by
  rw [signedRegion_eq_ok_iff, signedRegion_eq_ok_iff]
  rfl

/-- Assembling changes nothing but the kept offset, also where it fails. -/
theorem keeps_assemble (p0 : BootPolicy) : Update.Keeps
    (fun p => { p with keySignatureOffset := 0 } = { p0 with keySignatureOffset := 0 })
    assemble := by
  refine Update.keeps_get.bind fun p => (Update.keeps_ofExcept _).bind fun ⟨middle, offset⟩ => ?_
  refine Update.Keeps.bind (Update.keeps_modify ?_) fun _ => ?_
  · intro p h
    exact h
  · exact Update.keeps_get.bind fun p => Update.keeps_ofExcept _

end BootPolicy

/-! ## Key manifests -/

namespace KeyManifest

/-- The bytes that a key signature covers: the body. -/
def signedRegion (k : KeyManifest) : Except Error Bytes := do
  k.validate
  k.body.encode

theorem signedRegion_eq_ok_iff {k : KeyManifest} {region : Bytes} :
    k.signedRegion = .ok region ↔ k.validate = .ok () ∧ k.body.encode = .ok region := by
  rw [signedRegion, bind_eq_ok_iff]
  constructor
  · intro h
    obtain ⟨⟨⟩, hv, hb⟩ := h
    exact ⟨hv, hb⟩
  · intro h
    obtain ⟨hv, hb⟩ := h
    exact ⟨(), hv, hb⟩

theorem assemble_eq_ok_iff_signedRegion {k k' : KeyManifest} {b : Bytes} :
    assemble.runOn k = (.ok b, k') ↔ ∃ region signature, k.signedRegion = .ok region ∧
      KeySignature.encode? k.keySignature = .ok signature ∧ b = region ++ signature ∧
      k' = { k with keySignatureOffset := region.length } := by
  rw [assemble_eq_ok_iff]
  simp only [signedRegion_eq_ok_iff]
  constructor
  · intro h
    obtain ⟨hv, region, signature, hb, hs, rfl, rfl⟩ := h
    exact ⟨region, signature, ⟨hv, hb⟩, hs, rfl, rfl⟩
  · intro h
    obtain ⟨region, signature, ⟨hv, hb⟩, hs, rfl, rfl⟩ := h
    exact ⟨hv, region, signature, hb, hs, rfl, rfl⟩

section Keeps

variable (k0 : KeyManifest)

theorem keeps_encodeBody : Update.Keeps
    (fun k => { k with keySignatureOffset := 0 } = { k0 with keySignatureOffset := 0 })
    encodeBody := by
  refine Update.keeps_get.bind fun k => (Update.keeps_ofExcept _).bind fun hashes => ?_
  refine Update.Keeps.bind (Update.keeps_modify ?_) fun _ => ?_
  · intro k h
    exact h
  · exact Update.keeps_get.bind fun k => Update.keeps_ofExcept _

theorem keeps_signedRegionEnd : Update.Keeps
    (fun k => { k with keySignatureOffset := 0 } = { k0 with keySignatureOffset := 0 })
    signedRegionEnd :=
  (keeps_encodeBody k0).bind fun _ => Update.keeps_pure _

theorem keeps_assembleWith (signature : Except Error Bytes) : Update.Keeps
    (fun k => { k with keySignatureOffset := 0 } = { k0 with keySignatureOffset := 0 })
    (assembleWith signature) := by
  unfold assembleWith
  refine Update.keeps_get.bind fun k => ?_
  refine (Update.keeps_ofExcept _).bind fun _ => ?_
  refine (keeps_encodeBody k0).bind fun body => ?_
  refine Update.keeps_get.bind fun k' => ?_
  have hrest := (Update.keeps_ofExcept (P := fun k : KeyManifest =>
    { k with keySignatureOffset := 0 } = { k0 with keySignatureOffset := 0 }) signature).bind
      fun x => Update.keeps_pure (body ++ x)
  dsimp only
  split
  · exact (Update.keeps_throw _).bind fun _ => hrest
  · exact hrest

/-- Assembling changes nothing but the kept offset, also where it fails. -/
theorem keeps_assemble : Update.Keeps
    (fun k => { k with keySignatureOffset := 0 } = { k0 with keySignatureOffset := 0 })
    assemble :=
  Update.keeps_get.bind fun _ => keeps_assembleWith k0 _

end Keeps

end KeyManifest

/-! ## Manifests of either kind -/

namespace Manifest

theorem runOn_onBootPolicy {α : Type} (u : Update BootPolicy α) (p : BootPolicy) :
    (onBootPolicy u).runOn (bootPolicy p) = ((u.runOn p).1, bootPolicy (u.runOn p).2) := by
  rw [onBootPolicy, Update.runOn_get_bind]
  simp only [Update.runOn_bind, Update.runOn_set, Update.runOn_ofExcept]

theorem runOn_onKeyManifest {α : Type} (u : Update KeyManifest α) (k : KeyManifest) :
    (onKeyManifest u).runOn (keyManifest k) = ((u.runOn k).1, keyManifest (u.runOn k).2) := by
  rw [onKeyManifest, Update.runOn_get_bind]
  simp only [Update.runOn_bind, Update.runOn_set, Update.runOn_ofExcept]

theorem assemble_bootPolicy_iff {p p' : BootPolicy} {b : Bytes} :
    assemble.runOn (bootPolicy p) = (.ok b, bootPolicy p') ↔
      BootPolicy.assemble.runOn p = (.ok b, p') := by
  rw [assemble, Update.runOn_get_bind]
  simp only [runOn_onBootPolicy, Prod.ext_iff, bootPolicy.injEq]

theorem assemble_keyManifest_iff {k k' : KeyManifest} {b : Bytes} :
    assemble.runOn (keyManifest k) = (.ok b, keyManifest k') ↔
      KeyManifest.assemble.runOn k = (.ok b, k') := by
  rw [assemble, Update.runOn_get_bind]
  simp only [runOn_onKeyManifest, Prod.ext_iff, keyManifest.injEq]

/-- The bytes that a key signature covers. -/
def signedRegion : Manifest → Except Error Bytes
  | bootPolicy p => p.signedRegion
  | keyManifest k => k.signedRegion

/-- The manifest with another kept offset. -/
def withOffset (n : Nat) : Manifest → Manifest
  | bootPolicy p => bootPolicy { p with keySignatureOffset := UInt16.ofNat n }
  | keyManifest k => keyManifest { k with keySignatureOffset := n }

@[simp] theorem keySignature_withOffset (n : Nat) (m : Manifest) :
    (m.withOffset n).keySignature = m.keySignature := by
  cases m <;> rfl

@[simp] theorem keySignature_withKeySignature (s : Option KeySignature) (m : Manifest) :
    (m.withKeySignature s).keySignature = s := by
  cases m <;> rfl

@[simp] theorem withOffset_withOffset (i j : Nat) (m : Manifest) :
    (m.withOffset i).withOffset j = m.withOffset j := by
  cases m <;> rfl

theorem withKeySignature_withOffset (s : Option KeySignature) (n : Nat) (m : Manifest) :
    (m.withOffset n).withKeySignature s = (m.withKeySignature s).withOffset n := by
  cases m <;> rfl

@[simp] theorem withKeySignature_withKeySignature (s t : Option KeySignature) (m : Manifest) :
    (m.withKeySignature s).withKeySignature t = m.withKeySignature t := by
  cases m <;> rfl

/-- The key signature has no part in the region. -/
theorem signedRegion_withKeySignature (s : Option KeySignature) (m : Manifest) :
    (m.withKeySignature s).signedRegion = m.signedRegion := by
  cases m <;> rfl

/-- The kept offset has no part in the region. -/
theorem signedRegion_withOffset_iff {n : Nat} {m : Manifest} {region : Bytes} :
    (m.withOffset n).signedRegion = .ok region ↔ m.signedRegion = .ok region := by
  cases m with
  | bootPolicy p => exact BootPolicy.signedRegion_withOffset_iff _
  | keyManifest k => exact Iff.rfl

theorem length_signedRegion_le {m : Manifest} {region : Bytes} (h : m.signedRegion = .ok region) :
    region.length ≤ Frame.maxSize := by
  cases m with
  | bootPolicy p => exact BootPolicy.length_signedRegion_le h
  | keyManifest k => exact KeyManifest.length_encode_le (KeyManifest.signedRegion_eq_ok_iff.1 h).2

/-- An assembled manifest is its signed region with the key signature behind it. -/
theorem assemble_eq_ok_iff {m m' : Manifest} {b : Bytes} :
    assemble.runOn m = (.ok b, m') ↔ ∃ region signature, m.signedRegion = .ok region ∧
      KeySignature.encode? m.keySignature = .ok signature ∧ b = region ++ signature ∧
      m' = m.withOffset region.length := by
  rw [assemble, Update.runOn_get_bind]
  cases m with
  | bootPolicy p =>
    simp only [runOn_onBootPolicy]
    constructor
    · intro h
      obtain ⟨h1, h2⟩ := Prod.mk.inj h
      obtain ⟨region, signature, hr, hs, hb, hp⟩ :=
        BootPolicy.assemble_eq_ok_iff_signedRegion.1 (Update.runOn_of_fst_eq_ok h1)
      refine ⟨region, signature, hr, hs, hb, ?_⟩
      rw [← h2, hp]
      rfl
    · intro hall
      obtain ⟨region, signature, hr, hs, hb, rfl⟩ := hall
      rw [BootPolicy.assemble_eq_ok_iff_signedRegion.2 ⟨region, signature, hr, hs, hb, rfl⟩]
      rfl
  | keyManifest k =>
    simp only [runOn_onKeyManifest]
    constructor
    · intro h
      obtain ⟨h1, h2⟩ := Prod.mk.inj h
      obtain ⟨region, signature, hr, hs, hb, hk⟩ :=
        KeyManifest.assemble_eq_ok_iff_signedRegion.1 (Update.runOn_of_fst_eq_ok h1)
      refine ⟨region, signature, hr, hs, hb, ?_⟩
      rw [← h2, hk]
      rfl
    · intro hall
      obtain ⟨region, signature, hr, hs, hb, rfl⟩ := hall
      rw [KeyManifest.assemble_eq_ok_iff_signedRegion.2 ⟨region, signature, hr, hs, hb, rfl⟩]
      rfl

/-- Assembling again changes nothing. -/
theorem assemble_idem {m m' : Manifest} {b : Bytes} (h : assemble.runOn m = (.ok b, m')) :
    assemble.runOn m' = (.ok b, m') := by
  obtain ⟨region, signature, hr, hs, rfl, rfl⟩ := assemble_eq_ok_iff.1 h
  refine assemble_eq_ok_iff.2 ⟨region, signature, signedRegion_withOffset_iff.2 hr, ?_, rfl, ?_⟩
  · rw [keySignature_withOffset]
    exact hs
  · rw [withOffset_withOffset]

/-- The end of the signed region is the length of the region; working it out changes nothing
where the kept offset is right. -/
theorem runOn_signedRegionEnd {m : Manifest} {region : Bytes} (h : m.signedRegion = .ok region) :
    signedRegionEnd.runOn (m.withOffset region.length) =
      (.ok region.length, m.withOffset region.length) := by
  rw [signedRegionEnd, Update.runOn_get_bind]
  cases m with
  | bootPolicy p =>
    have hp := (BootPolicy.signedRegion_withOffset_iff (UInt16.ofNat region.length)).2 h
    simp only [withOffset, Update.runOn_ofExcept,
      BootPolicy.signedRegionEnd_of_signedRegion hp]
  | keyManifest k =>
    obtain ⟨_, hb⟩ := KeyManifest.signedRegion_eq_ok_iff.1 h
    have hk : KeyManifest.encodeBody.runOn { k with keySignatureOffset := region.length } =
        (.ok region, { k with keySignatureOffset := region.length }) :=
      KeyManifest.encodeBody_eq_ok_iff.2 ⟨hb, rfl⟩
    simp only [withOffset, runOn_onKeyManifest]
    rw [KeyManifest.signedRegionEnd, Update.runOn_bind, hk]
    rfl

/-- Assembling changes nothing but the kept offset, also where it fails. -/
theorem keeps_assemble (m0 : Manifest) :
    Update.Keeps (fun m => m.withOffset 0 = m0.withOffset 0) assemble := by
  intro m h
  rw [assemble, Update.runOn_get_bind]
  cases m with
  | bootPolicy p =>
    rw [runOn_onBootPolicy, ← h]
    exact congrArg bootPolicy (BootPolicy.keeps_assemble p p rfl)
  | keyManifest k =>
    rw [runOn_onKeyManifest, ← h]
    exact congrArg keyManifest (KeyManifest.keeps_assemble k k rfl)

/-- The same holds of working out the end of the signed region. -/
theorem keeps_signedRegionEnd (m0 : Manifest) :
    Update.Keeps (fun m => m.withOffset 0 = m0.withOffset 0) signedRegionEnd := by
  intro m h
  rw [signedRegionEnd, Update.runOn_get_bind]
  cases m with
  | bootPolicy p =>
    simp only [Update.runOn_ofExcept]
    exact h
  | keyManifest k =>
    rw [runOn_onKeyManifest, ← h]
    exact congrArg keyManifest (KeyManifest.keeps_signedRegionEnd k k rfl)

end Manifest

end BootGuard
