/-
  Manifests that are too large.

  With integer fields that fit and consistent keys, what can still be too large is derived. The
  size of an element and the offset of the key signature of a boot policy manifest are looked at
  before they are packed. Counts of segments, lengths of digests, sizes of digest lists, and the
  offset of the key signature of a key manifest are not, so they are found out of range
  (`BootBlock.Overflows`, `TrustedBoot.Overflows`, `KeyManifest.Overflows`) where packing comes to
  them before something else is refused (`Manifest.packs_assemble`).
-/
import BootGuard.Proofs.Codec.Packing
import BootGuard.Proofs.Manifest.SignedRegion
import BootGuard.Proofs.Options.Validity
import Mathlib.Algebra.Order.BigOperators.Group.List
import Mathlib.Algebra.Order.Group.Nat

namespace BootGuard

open IntField (AllFit packs_encodeAll totalWidth)

theorem Segment.length_of_encodeItems {ss : List Segment} {b : Bytes}
    (h : encodeItems Segment.encode ss = .ok b) :
    b.length = ss.length * totalWidth Segment.fields := by
  rw [BootGuard.length_of_encodeItems (fun _ _ => IntField.length_of_encodeAll) h,
    List.map_const', List.sum_replicate_nat]

/-- The largest number of segments that an element can state. -/
def maxSegments : Nat := 0xFF

/-! ## Boot blocks -/

namespace BootBlock

/-- The integer fields of the block and of what it holds fit. -/
structure FieldsFit (e : BootBlock) : Prop where
  fields : AllFit fields e
  postIbbHash : e.postIbbHash.FieldsFit
  digestList : e.digestList.FieldsFit
  obbHash : e.obbHash.FieldsFit
  segments : ∀ s ∈ e.segments, s.FieldsFit

/-- The length of the encoding. -/
def size (e : BootBlock) : Nat :=
  Frame.headSize + (totalWidth bodyFields + e.postIbbHash.size + totalWidth entryFields +
    e.digestList.size + e.obbHash.size + e.rsvd2.length + 1 +
    e.segments.length * totalWidth Segment.fields)

/-- The block has segments, and everything that is derived can be stated. -/
structure Encodable (e : BootBlock) : Prop where
  nonempty : e.segments ≠ []
  distinct : e.digestList.algorithms.Nodup
  segments_le : e.segments.length ≤ maxSegments
  size_le : e.size ≤ Frame.maxSize

/-- A length, a size or a count is packed that does not fit. -/
def Overflows (e : BootBlock) : Prop := e.segments ≠ [] ∧
  (Frame.maxSize < e.postIbbHash.buffer.length ∨ e.digestList.algorithms.Nodup ∧
    (Frame.maxSize < e.digestList.size ∨ Frame.maxSize < e.obbHash.buffer.length ∨
      maxSegments < e.segments.length))

theorem length_of_encodeBody {e : BootBlock} {b : Bytes} (h : e.encodeBody = .ok b) :
    Frame.headSize + b.length = e.size := by
  obtain ⟨_, head, post, entry, list, obb, count, segments, h1, h2, h3, h4, h5, h6, h7, rfl⟩ :=
    encodeBody_eq_ok_iff.1 h
  simp only [List.length_append, IntField.length_of_encodeAll h1, Digest.length_of_encode h2,
    IntField.length_of_encodeAll h3, DigestList.length_of_encode h4, Digest.length_of_encode h5,
    length_of_packInt h6, Segment.length_of_encodeItems h7, size]

theorem packs_encodeBody {e : BootBlock} (h : e.FieldsFit) :
    Packs e.encodeBody (e.segments ≠ [] ∧ e.postIbbHash.buffer.length ≤ Frame.maxSize ∧
      (e.digestList.algorithms.Nodup ∧ e.digestList.size ≤ Frame.maxSize) ∧
      e.obbHash.buffer.length ≤ Frame.maxSize ∧ e.segments.length ≤ maxSegments)
      e.Overflows False := by
  have hcount : e.segments.length < Bytes.valueCount 1 ↔ e.segments.length ≤ maxSegments :=
    Nat.lt_succ_iff
  have hempty : (Error.invalidManifest .noSegments).IsStructural := trivial
  obtain ⟨hfront, hentry⟩ := h.fields.append
  rw [encodeBody, Segment.encodeAll_eq]
  refine (Packs.check hempty <| (packs_encodeAll hfront.append.2).bind fun head _ =>
    (Digest.packs_encode h.postIbbHash).bind fun post _ => (packs_encodeAll hentry).bind
    fun entry _ => (DigestList.packs_encode h.digestList).bind fun list _ =>
    (Digest.packs_encode h.obbHash).bind fun obb _ => (packs_packInt 1 e.segments.length).bind
    fun count _ => (Segment.packs_encodeItems h.segments).bind fun segments _ =>
    packs_pure _).congr ?_ ?_ ?_
  · rw [hcount, List.isEmpty_iff]
    tauto
  · rw [hcount, List.isEmpty_iff]
    simp only [Overflows, ← Nat.not_le]
    tauto
  · simp

theorem length_of_encode {e : BootBlock} {b : Bytes} (h : e.encode = .ok b) :
    b.length = e.size := by
  obtain ⟨body, hbody, hframe⟩ := encode_eq_ok_iff.1 h
  rw [Frame.length_of_encode hframe, length_of_encodeBody hbody]

theorem packs_encode {e : BootBlock} (h : e.FieldsFit) :
    Packs e.encode e.Encodable e.Overflows (Text.isWritable e.size = false) := by
  have hhead := h.fields.append.1.append.1
  refine ((packs_encodeBody h).bind fun body hbody => Frame.packs_encodeSized
    (hhead _ List.mem_cons_self) (hhead _ (List.mem_cons_of_mem _ List.mem_cons_self))
    (length_of_encodeBody hbody)).congr ?_ ?_ ?_
  · constructor
    · rintro ⟨⟨hne, _, ⟨hnodup, _⟩, _, hle⟩, hsize⟩
      exact ⟨hne, hnodup, hle, hsize⟩
    · rintro ⟨hne, hnodup, hle, hsize⟩
      have hparts := hsize
      rw [size, Digest.size, Digest.size] at hparts
      exact ⟨⟨hne, by omega, ⟨hnodup, by omega⟩, by omega, hle⟩, hsize⟩
  · rw [and_false, or_false]
  · rw [false_or]
    exact id

end BootBlock

/-! ## Settings of the measured launch -/

namespace TrustedBoot

/-- The integer fields of the settings and of what they hold fit. -/
structure FieldsFit (e : TrustedBoot) : Prop where
  fields : AllFit fields e
  digestList : e.digestList.FieldsFit
  segments : ∀ s ∈ e.segments, s.FieldsFit

/-- The length of the encoding. -/
def size (e : TrustedBoot) : Nat :=
  Frame.headSize + (totalWidth bodyFields + e.digestList.size + e.rsvd3.length + 1 +
    e.segments.length * totalWidth Segment.fields)

/-- Everything that is derived can be stated. -/
structure Encodable (e : TrustedBoot) : Prop where
  distinct : e.digestList.algorithms.Nodup
  segments_le : e.segments.length ≤ maxSegments
  size_le : e.size ≤ Frame.maxSize

/-- A size or a count is packed that does not fit. -/
def Overflows (e : TrustedBoot) : Prop := e.digestList.algorithms.Nodup ∧
  (Frame.maxSize < e.digestList.size ∨ maxSegments < e.segments.length)

theorem length_of_encodeBody {e : TrustedBoot} {b : Bytes} (h : e.encodeBody = .ok b) :
    Frame.headSize + b.length = e.size := by
  obtain ⟨head, list, count, segments, h1, h2, h3, h4, rfl⟩ := encodeBody_eq_ok_iff.1 h
  simp only [List.length_append, IntField.length_of_encodeAll h1, DigestList.length_of_encode h2,
    length_of_packInt h3, Segment.length_of_encodeItems h4, size]

theorem packs_encodeBody {e : TrustedBoot} (h : e.FieldsFit) :
    Packs e.encodeBody ((e.digestList.algorithms.Nodup ∧ e.digestList.size ≤ Frame.maxSize) ∧
      e.segments.length ≤ maxSegments) e.Overflows False := by
  have hcount : e.segments.length < Bytes.valueCount 1 ↔ e.segments.length ≤ maxSegments :=
    Nat.lt_succ_iff
  rw [encodeBody, Segment.encodeAll_eq]
  refine ((packs_encodeAll h.fields.append.2).bind fun head _ =>
    (DigestList.packs_encode h.digestList).bind fun list _ =>
    (packs_packInt 1 e.segments.length).bind fun count _ =>
    (Segment.packs_encodeItems h.segments).bind fun segments _ => packs_pure _).congr ?_ ?_ ?_
  · rw [hcount]
    tauto
  · rw [hcount]
    simp only [Overflows, ← Nat.not_le]
    tauto
  · simp

theorem length_of_encode {e : TrustedBoot} {b : Bytes} (h : e.encode = .ok b) :
    b.length = e.size := by
  obtain ⟨body, hbody, hframe⟩ := encode_eq_ok_iff.1 h
  rw [Frame.length_of_encode hframe, length_of_encodeBody hbody]

theorem packs_encode {e : TrustedBoot} (h : e.FieldsFit) :
    Packs e.encode e.Encodable e.Overflows (Text.isWritable e.size = false) := by
  have hhead := h.fields.append.1
  refine ((packs_encodeBody h).bind fun body hbody => Frame.packs_encodeSized
    (hhead _ List.mem_cons_self) (hhead _ (List.mem_cons_of_mem _ List.mem_cons_self))
    (length_of_encodeBody hbody)).congr ?_ ?_ ?_
  · constructor
    · rintro ⟨⟨⟨hnodup, _⟩, hle⟩, hsize⟩
      exact ⟨hnodup, hle, hsize⟩
    · rintro ⟨hnodup, hle, hsize⟩
      have hparts := hsize
      rw [size] at hparts
      exact ⟨⟨⟨hnodup, by omega⟩, hle⟩, hsize⟩
  · rw [and_false, or_false]
  · rw [false_or]
    exact id

end TrustedBoot

/-! ## Boot policy manifests -/

theorem PolicyHeader.exists_encode {h : PolicyHeader} (hfit : AllFit fields h)
    (offset : UInt16) : ∃ b, h.encode offset = .ok b := by
  obtain ⟨hhead, hbody⟩ := hfit.append
  obtain ⟨body, hb⟩ := IntField.exists_encodeAll hbody
  have hlen : Frame.headSize + (Bytes.ofNatLe 2 offset.toNat ++ body).length = 20 := by
    rw [List.length_append, Bytes.length_ofNatLe, IntField.length_of_encodeAll hb]
    rfl
  have hframe : ∃ b, Frame.encodeSized .policyHeader h.structVer h.var0
      (Bytes.ofNatLe 2 offset.toNat ++ body) = .ok b :=
    (Frame.packs_encodeSized (hhead _ List.mem_cons_self)
      (hhead _ (List.mem_cons_of_mem _ List.mem_cons_self)) hlen).ok_iff.2 (by decide)
  rwa [encode, hb, ok_bind]

theorem SignatureElement.exists_encode {e : SignatureElement} (hfit : AllFit fields e)
    (hkey : ∀ k ∈ e.keySignature, k.Consistent) : ∃ b, e.encode = .ok b := by
  obtain ⟨body, hbody⟩ := (KeySignature.packs_encode? hkey).ok_iff.2 trivial
  obtain ⟨b, hframe⟩ := (Frame.packs_encode (hfit _ List.mem_cons_self)
    (hfit _ (List.mem_cons_of_mem _ List.mem_cons_self))
    (hfit _ (List.mem_cons_of_mem _ (List.mem_cons_of_mem _ List.mem_cons_self)))).ok_iff.2 trivial
  exact ⟨b, encode_eq_ok_iff.2 ⟨body, hbody, hframe⟩⟩

namespace BootPolicy

/-- The integer fields of all parts fit, and the key and the signature are consistent. -/
structure FieldsFit (p : BootPolicy) : Prop where
  header : AllFit PolicyHeader.fields p.header
  bootBlocks : ∀ b ∈ p.bootBlocks, b.FieldsFit
  trustedBoot : ∀ t ∈ p.trustedBoot, t.FieldsFit
  signature : AllFit SignatureElement.fields p.signature
  keySignature : ∀ k ∈ p.signature.keySignature, k.Consistent

/-- The length of what stands between the header and the signature element. -/
def middleSize (p : BootPolicy) : Nat :=
  (p.bootBlocks.map BootBlock.size).sum + (p.trustedBoot.map TrustedBoot.size).getD 0

/-- The manifest obeys the rules, and everything that is derived can be stated. -/
structure Encodable (p : BootPolicy) : Prop where
  valid : p.validate = .ok ()
  bootBlocks : ∀ b ∈ p.bootBlocks, b.Encodable
  trustedBoot : ∀ t ∈ p.trustedBoot, t.Encodable
  offset_le : offsetAfter p.middleSize ≤ Frame.maxSize

/-- A valid manifest has a block that overflows behind blocks that can be encoded, or settings that
overflow behind all blocks. -/
def Overflows (p : BootPolicy) : Prop := p.validate = .ok () ∧
  (FirstOverflow BootBlock.Encodable BootBlock.Overflows p.bootBlocks ∨
    (∀ b ∈ p.bootBlocks, b.Encodable) ∧ ∃ t ∈ p.trustedBoot, t.Overflows)

/-- The size of a block or of the settings has more digits than a numeral can have. -/
def Vast (p : BootPolicy) : Prop := (∃ b ∈ p.bootBlocks, Text.isWritable b.size = false) ∨
  ∃ t ∈ p.trustedBoot, Text.isWritable t.size = false

theorem packs_validate (p : BootPolicy) : Packs p.validate (p.validate = .ok ()) False False := by
  cases h : p.validate with
  | ok u => exact (packs_of_eq_ok rfl).congr (by simp) Iff.rfl id
  | error e =>
    have he : e.IsStructural := by
      unfold validate at h
      repeat' split at h
      all_goals cases h
      all_goals trivial
    exact (packs_error he).congr (by simp) Iff.rfl id

theorem packs_encodeSettings {s : Option TrustedBoot} (h : ∀ t ∈ s, t.FieldsFit) :
    Packs (encodeSettings s) (∀ t ∈ s, t.Encodable) (∃ t ∈ s, t.Overflows)
      (∃ t ∈ s, Text.isWritable t.size = false) := by
  cases s with
  | none => exact (packs_of_eq_ok rfl).congr (by simp) (by simp) False.elim
  | some t => exact (TrustedBoot.packs_encode (h t rfl)).congr (by simp) (by simp) (by simp)

theorem packs_encodeMiddle {p : BootPolicy} (h : p.FieldsFit) :
    Packs p.encodeMiddle ((∀ b ∈ p.bootBlocks, b.Encodable) ∧ ∀ t ∈ p.trustedBoot, t.Encodable)
      (FirstOverflow BootBlock.Encodable BootBlock.Overflows p.bootBlocks ∨
        (∀ b ∈ p.bootBlocks, b.Encodable) ∧ ∃ t ∈ p.trustedBoot, t.Overflows) p.Vast := by
  have hblocks := packs_encodeItems fun b hb => BootBlock.packs_encode (h.bootBlocks b hb)
  rw [encodeMiddle, encodeBlocks_eq]
  refine (hblocks.bind fun blocks _ => (packs_encodeSettings h.trustedBoot).bind fun settings _ =>
    packs_pure (blocks ++ settings)).congr ?_ ?_ ?_
  · rw [and_true]
  · rw [and_false, or_false]
  · rw [or_false]
    exact id

theorem length_of_encodeMiddle {p : BootPolicy} {middle : Bytes}
    (h : p.encodeMiddle = .ok middle) : middle.length = p.middleSize := by
  obtain ⟨blocks, settings, hblocks, hsettings, rfl⟩ := encodeMiddle_eq_ok_iff.1 h
  rw [List.length_append, length_of_encodeItems (fun _ _ => BootBlock.length_of_encode) hblocks,
    middleSize]
  congr 1
  cases ht : p.trustedBoot with
  | none =>
    rw [ht] at hsettings
    cases hsettings
    rfl
  | some t =>
    rw [ht] at hsettings
    exact TrustedBoot.length_of_encode hsettings

theorem packs_arrange {p : BootPolicy} (h : p.FieldsFit) :
    Packs p.arrange p.Encodable p.Overflows p.Vast := by
  obtain ⟨header, hheader⟩ := PolicyHeader.exists_encode h.header p.keySignatureOffset
  have hlarge : (Error.invalidManifest (.policyTooLarge (offsetAfter p.middleSize))).IsStructural :=
    trivial
  rw [arrange]
  refine ((packs_validate p).bind fun _ _ => (packs_encodeMiddle h).bind fun middle hmiddle =>
    (?_ : Packs _ (offsetAfter p.middleSize ≤ Frame.maxSize) False False)).congr ?_ ?_ ?_
  · rw [offsetBehind, hheader, ok_bind, PolicyHeader.length_of_encode hheader,
      length_of_encodeMiddle hmiddle, pure_eq_ok, ok_bind]
    refine (Packs.check (f := fun _ => pure (middle, UInt16.ofNat (offsetAfter p.middleSize)))
      hlarge (packs_pure _)).congr ?_ ?_ id
    · rw [Nat.not_lt, and_true]
      rfl
    · rw [and_false]
  · constructor
    · rintro ⟨hvalid, ⟨hblocks, hsettings⟩, hle⟩
      exact ⟨hvalid, hblocks, hsettings, hle⟩
    · rintro ⟨hvalid, hblocks, hsettings, hle⟩
      exact ⟨hvalid, ⟨hblocks, hsettings⟩, hle⟩
  · rw [and_false, or_false, false_or]
    rfl
  · rw [or_false, false_or]
    exact id

theorem fst_runOn_assemble (p : BootPolicy) : (assemble.runOn p).1 = p.arrange >>= fun a =>
    ({ p with keySignatureOffset := a.2 } : BootPolicy).encodeAround a.1 := by
  rw [assemble, Update.runOn_get_bind, Update.runOn_bind, Update.runOn_ofExcept]
  cases p.arrange with
  | error e => rfl
  | ok a =>
    dsimp only
    rw [Update.runOn_modify_bind, Update.runOn_get_bind, Update.runOn_ofExcept]
    rfl

theorem packs_runOn_assemble {p : BootPolicy} (h : p.FieldsFit) :
    Packs (assemble.runOn p).1 p.Encodable p.Overflows p.Vast := by
  rw [fst_runOn_assemble]
  obtain ⟨signature, hsignature⟩ := SignatureElement.exists_encode h.signature h.keySignature
  have haround : ∀ a : Bytes × UInt16, Packs
      (({ p with keySignatureOffset := a.2 } : BootPolicy).encodeAround a.1) True False False := by
    intro a
    obtain ⟨header, hheader⟩ := PolicyHeader.exists_encode h.header a.2
    refine packs_of_eq_ok (a := header ++ a.1 ++ signature) ?_
    rw [encodeAround, hheader, ok_bind, hsignature, ok_bind, pure_eq_ok]
  refine ((packs_arrange h).bind fun a _ => haround a).congr ?_ ?_ ?_
  · rw [and_true]
  · rw [and_false, or_false]
  · rw [or_false]
    exact id

end BootPolicy

/-! ## Key manifests -/

namespace KeyManifest

/-- The integer fields of all parts fit, and the key and the signature are consistent. -/
structure FieldsFit (k : KeyManifest) : Prop where
  body : AllFit KeyManifestBody.fields k.body
  hashes : ∀ h ∈ k.body.hashes, h.FieldsFit
  keySignature : ∀ s ∈ k.keySignature, s.Consistent

/-- The length of the encoded body, which is the offset of the key signature. -/
def bodySize (k : KeyManifest) : Nat :=
  KeyManifestBody.offsetFor (k.body.hashes.map KeyHash.size).sum

/-- The manifest is valid, and the offset of its key signature can be stated. -/
structure Encodable (k : KeyManifest) : Prop where
  distinct : Distinct k.body.hashes
  size_le : k.bodySize ≤ Frame.maxSize

/-- The manifest is valid, but the offset of its key signature cannot be stated. -/
structure Overflows (k : KeyManifest) : Prop where
  distinct : Distinct k.body.hashes
  lt_size : Frame.maxSize < k.bodySize

theorem checkHashes_structural {seen : List (Int × Int)} {hashes : List KeyHash} {e : Error}
    (h : checkHashes seen hashes = .error e) : e.IsStructural := by
  induction hashes generalizing seen with
  | nil => cases h
  | cons x xs ih =>
    rw [checkHashes] at h
    split at h
    · cases h
      trivial
    · exact ih h

theorem packs_validate (k : KeyManifest) :
    Packs k.validate (Distinct k.body.hashes) False False := by
  cases h : k.validate with
  | ok u => exact (packs_of_eq_ok rfl).congr (by simp [validate_eq_ok_iff.1 h]) Iff.rfl id
  | error e =>
    have hdistinct : ¬ Distinct k.body.hashes := by
      rw [← validate_eq_ok_iff, h]
      simp
    exact (packs_error (checkHashes_structural h)).congr (by simp [hdistinct]) Iff.rfl id

/-- A body whose size can be stated has no digest and no count that cannot. -/
theorem le_of_bodySize_le {k : KeyManifest} (h : k.bodySize ≤ Frame.maxSize) :
    k.body.hashes.length ≤ Frame.maxSize ∧
      ∀ x ∈ k.body.hashes, x.digest.buffer.length ≤ Frame.maxSize := by
  rw [bodySize, KeyManifestBody.offsetFor] at h
  constructor
  · have hpos : ∀ n ∈ k.body.hashes.map KeyHash.size, 1 ≤ n := by
      intro n hn
      obtain ⟨x, _, rfl⟩ := List.mem_map.1 hn
      rw [KeyHash.size, Digest.size]
      omega
    have hle := List.length_le_sum_of_one_le _ hpos
    rw [List.length_map] at hle
    omega
  · intro x hx
    have hle := List.single_le_sum (fun _ _ => Nat.zero_le _) _
      (List.mem_map_of_mem (f := KeyHash.size) hx)
    rw [KeyHash.size, Digest.size] at hle
    omega

theorem packs_encode_body {k : KeyManifest} (h : k.FieldsFit) :
    Packs k.body.encode (k.bodySize ≤ Frame.maxSize) (Frame.maxSize < k.bodySize) False := by
  have hparts := le_of_bodySize_le (k := k)
  have hitems := packs_encodeItems fun x hx => KeyHash.packs_encode (h.hashes x hx)
  obtain ⟨hhead, hbody⟩ := h.body.append
  have hframe : ∀ bytes : Bytes, Packs (Frame.encode .keyManifest k.body.structVer k.body.var0
      k.body.rsvdSize bytes) True False False := fun _ =>
    Frame.packs_encode (hhead _ List.mem_cons_self)
      (hhead _ (List.mem_cons_of_mem _ List.mem_cons_self))
      (hhead _ (List.mem_cons_of_mem _ (List.mem_cons_of_mem _ List.mem_cons_self)))
  have hlt : ∀ n, n < Bytes.valueCount 2 ↔ n ≤ Frame.maxSize := fun n => Nat.lt_succ_iff
  rw [KeyManifestBody.encode, KeyHash.encodeAll_eq]
  -- The size of the whole decides alone: a part that cannot be stated makes it too large.
  refine (hitems.bind fun hashes hhashes => (?_ : Packs _ (k.bodySize ≤ Frame.maxSize)
    (¬ k.bodySize ≤ Frame.maxSize) False)).congr ?_ ?_ ?_
  · have hlen : KeyManifestBody.offsetFor hashes.length = k.bodySize := by
      rw [length_of_encodeItems (fun _ _ => KeyHash.length_of_encode) hhashes, bodySize]
    rw [KeyManifestBody.encodeWith, hlen]
    refine ((packs_packInt 2 k.bodySize).bind fun offset _ => (packs_encodeAll hbody).bind
      fun fixed _ => (packs_packInt 2 k.body.hashes.length).bind fun count _ =>
      hframe _).congr ?_ ?_ ?_
    · rw [hlt, hlt]
      tauto
    · rw [hlt, hlt]
      tauto
    · simp
  · tauto
  · rw [firstOverflow_not_iff, ← Nat.not_le]
    tauto
  · simp

theorem fst_runOn_encodeBody (k : KeyManifest) : (encodeBody.runOn k).1 = k.body.encode := by
  rw [encodeBody, Update.runOn_get_bind, Update.runOn_bind, Update.runOn_ofExcept,
    KeyManifestBody.encode]
  cases KeyHash.encodeAll k.body.hashes with
  | error e => rfl
  | ok hashes =>
    rw [ok_bind]
    dsimp only
    rw [Update.runOn_modify_bind, Update.runOn_get_bind, Update.runOn_ofExcept]

/-- The offset is packed as part of the body, so the check of it that follows finds nothing. -/
theorem fst_runOn_assemble (k : KeyManifest) : (assemble.runOn k).1 = (do
    k.validate
    let body ← k.body.encode
    let signature ← KeySignature.encode? k.keySignature
    return body ++ signature) := by
  rw [assemble, Update.runOn_get_bind, assembleWith, Update.runOn_get_bind, Update.runOn_bind,
    Update.runOn_ofExcept]
  cases k.validate with
  | error e => rfl
  | ok u =>
    dsimp only
    rw [ok_bind, Update.runOn_bind]
    have hbody := fst_runOn_encodeBody k
    rcases hr : encodeBody.runOn k with ⟨x, k'⟩
    rw [hr] at hbody
    dsimp only at hbody
    rw [← hbody]
    cases x with
    | error e => rfl
    | ok body =>
      have hle := length_encode_le hbody.symm
      obtain ⟨_, rfl⟩ := encodeBody_eq_ok_iff.1 hr
      dsimp only
      rw [ok_bind, Update.runOn_get_bind, if_neg (Nat.not_lt.2 hle), Update.runOn_bind,
        Update.runOn_ofExcept]
      cases KeySignature.encode? k.keySignature <;> rfl

theorem packs_runOn_assemble {k : KeyManifest} (h : k.FieldsFit) :
    Packs (assemble.runOn k).1 k.Encodable k.Overflows False := by
  rw [fst_runOn_assemble]
  refine ((packs_validate k).bind fun _ _ => (packs_encode_body h).bind fun body _ =>
    (KeySignature.packs_encode? h.keySignature).bind fun signature _ =>
    packs_pure (body ++ signature)).congr ?_ ?_ ?_
  · rw [true_and, and_true]
    exact ⟨fun hk => ⟨hk.1, hk.2⟩, fun hk => ⟨hk.1, hk.2⟩⟩
  · simp only [false_or, and_false, or_false]
    exact ⟨fun hk => ⟨hk.1, hk.2⟩, fun hk => ⟨hk.1, hk.2⟩⟩
  · simp

end KeyManifest

/-! ## Manifests of either kind -/

namespace Manifest

/-- The integer fields of all parts fit, and the key and the signature are consistent. -/
def FieldsFit : Manifest → Prop
  | bootPolicy p => p.FieldsFit
  | keyManifest k => k.FieldsFit

/-- The manifest obeys the rules, and everything that is derived can be stated. -/
def Encodable : Manifest → Prop
  | bootPolicy p => p.Encodable
  | keyManifest k => k.Encodable

/-- Packing comes to something derived that does not fit before anything is refused. -/
def Overflows : Manifest → Prop
  | bootPolicy p => p.Overflows
  | keyManifest k => k.Overflows

/-- The size of an element has more digits than a numeral can have. -/
def Vast : Manifest → Prop
  | bootPolicy p => p.Vast
  | keyManifest _ => False

/-- With fields that fit and consistent keys a manifest is assembled exactly if everything that is
derived can be stated. Else a rule is broken, and the manifest is refused for it, or something is
packed without a look at it and does not fit: the number of segments of an element, the length of a
digest, the size of a list of digests, or the offset of the key signature of a key manifest, which
is so for all key manifests that are valid and too large. -/
theorem packs_assemble {m : Manifest} (h : m.FieldsFit) :
    Packs (assemble.runOn m).1 m.Encodable m.Overflows m.Vast := by
  cases m with
  | bootPolicy p =>
    rw [assemble, Update.runOn_get_bind, runOn_onBootPolicy]
    exact BootPolicy.packs_runOn_assemble h
  | keyManifest k =>
    rw [assemble, Update.runOn_get_bind, runOn_onKeyManifest]
    exact KeyManifest.packs_runOn_assemble h

end Manifest

/-- A key manifest with one hash of `n` bytes. -/
def singleHash (n : Nat) : KeyManifest where
  body := { hashes := [⟨0, ⟨Algorithm.sha256, Bytes.zeros n⟩⟩] }
  keySignature := none

theorem bodySize_singleHash (n : Nat) : (singleHash n).bodySize = 36 + n := by
  have hlen : (Bytes.zeros n).length = n := List.length_replicate
  show 24 + (8 + (4 + (Bytes.zeros n).length) + 0) = 36 + n
  rw [hlen]
  omega

theorem fieldsFit_singleHash (n : Nat) : (singleHash n).FieldsFit := by
  refine ⟨?_, ?_, by simp [singleHash]⟩
  · simp [singleHash, AllFit, IntField.Fits, KeyManifestBody.fields, KeyManifestBody.headFields,
      KeyManifestBody.bodyFields, Bytes.valueCount, Algorithm.sha256]
  · simp [singleHash, AllFit, IntField.Fits, KeyHash.FieldsFit, KeyHash.fields, Digest.FieldsFit,
      Digest.fields, Bytes.valueCount, Algorithm.sha256]

/-- One hash of 65500 bytes brings the body to 64 KiB. -/
theorem Manifest.packs_assemble_sample : (keyManifest (singleHash 65500)).FieldsFit ∧
    (assemble.runOn (keyManifest (singleHash 65500))).1 = .error .fieldRange := by
  have hfit : (keyManifest (singleHash 65500)).FieldsFit := fieldsFit_singleHash 65500
  have hlarge : Frame.maxSize < (singleHash 65500).bodySize := by
    rw [bodySize_singleHash]
    decide
  have hvalid : ((singleHash 65500).body.hashes.map KeyHash.slot).Nodup :=
    List.nodup_cons.2 ⟨List.not_mem_nil, .nil⟩
  exact ⟨hfit, (packs_assemble hfit).range_iff.2 ⟨hvalid, hlarge⟩⟩

end BootGuard
