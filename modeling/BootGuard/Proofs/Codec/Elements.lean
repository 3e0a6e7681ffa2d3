/-
  Elements are read exactly as they are written.

  `Element.Written e b` says that `b` is the encoding of `e`, with the offset of the key
  signature that `e` carries, and that the reserved bytes of `e` are as many as the encoding
  has room for: a reader cannot tell shorter ones from the padding. `Element.read_eq_ok_iff` is
  the codec law of all kinds together.
-/
import BootGuard.Proofs.Codec.Frames
import BootGuard.Proofs.Codec.Records
import BootGuard.Element

namespace BootGuard

open Reader

/-! ## Policy headers -/

namespace PolicyHeader

theorem bodyFields_lawful : IntField.Lawful bodyFields := by simp [bodyFields, IntField.Lawful]

theorem encode_eq_ok_iff {h : PolicyHeader} {offset : UInt16} {b : Bytes} :
    h.encode offset = .ok b ↔ ∃ body, IntField.encodeAll bodyFields h = .ok body ∧
      Frame.encodeSized .policyHeader h.structVer h.var0
        (Bytes.ofNatLe 2 offset.toNat ++ body) = .ok b := by
  simp only [encode, bind_eq_ok_iff]

/-- The length of an encoded header: the head, the offset and the fields. -/
theorem length_of_encode {h : PolicyHeader} {offset : UInt16} {b : Bytes}
    (hb : h.encode offset = .ok b) : b.length = 20 := by
  obtain ⟨body, hbody, henc⟩ := encode_eq_ok_iff.1 hb
  rw [Frame.length_of_encode henc, List.length_append, Bytes.length_ofNatLe,
    IntField.length_of_encodeAll hbody]
  rfl

/-- A header is encoded with any offset if it is with one. -/
theorem encode_of_encode {h : PolicyHeader} {offset : UInt16} {b : Bytes}
    (hb : h.encode offset = .ok b) (offset' : UInt16) : ∃ b', h.encode offset' = .ok b' := by
  obtain ⟨body, hbody, henc⟩ := encode_eq_ok_iff.1 hb
  rw [Frame.encodeSized, List.length_append, Bytes.length_ofNatLe] at henc
  obtain ⟨head, hhead, _⟩ := Frame.encode_eq_ok_iff_head.1 henc
  refine ⟨head ++ (Bytes.ofNatLe 2 offset'.toNat ++ body), encode_eq_ok_iff.2 ⟨body, hbody, ?_⟩⟩
  rw [Frame.encodeSized, List.length_append, Bytes.length_ofNatLe]
  exact Frame.encode_eq_ok_iff_head.2 ⟨head, hhead, rfl⟩

theorem ofNatLe_toUInt16 (b : Bytes) (h : b.length = 2) :
    Bytes.ofNatLe 2 (UInt16.ofNat b.toNatLe).toNat = b := by
  have hlt : b.toNatLe < 65536 := by
    have := Bytes.toNatLe_lt b
    rw [h] at this
    exact this
  rw [UInt16.toNat_ofNat_of_lt' hlt, ← h, Bytes.ofNatLe_toNatLe]

theorem toUInt16_ofNatLe (v : UInt16) :
    UInt16.ofNat (Bytes.toNatLe (Bytes.ofNatLe 2 v.toNat)) = v := by
  have hlt : v.toNat < Bytes.valueCount 2 := v.toNat_lt
  rw [Bytes.toNatLe_ofNatLe, Nat.mod_eq_of_lt hlt, UInt16.ofNat_toNat]

theorem reads_readBody (h : PolicyHeader) : (readBody h).Reads fun p b =>
    (p.1.structVer = h.structVer ∧ p.1.var0 = h.var0) ∧
      ∃ body, IntField.encodeAll bodyFields p.1 = .ok body ∧
        b = Bytes.ofNatLe 2 p.2.toNat ++ body := by
  refine (reads_bind (reads_take 8 _) fun b => reads_pure (IntField.decodeAll bodyFields
    (b.drop 2) h, UInt16.ofNat (Bytes.toNatLe (b.take 2)))).congr fun p b => ?_
  constructor
  · intro hall
    obtain ⟨x, b1, b2, ⟨rfl, hlen⟩, ⟨rfl, rfl⟩, rfl⟩ := hall
    have hbody : (b1.drop 2).length = IntField.totalWidth bodyFields := by
      rw [List.length_drop, hlen]
      rfl
    obtain ⟨henc, hcopy⟩ := (IntField.eq_decodeAll_iff bodyFields_lawful).1 ⟨hbody, rfl⟩
    refine ⟨⟨rfl, rfl⟩, b1.drop 2, henc, ?_⟩
    rw [ofNatLe_toUInt16 _ (by rw [List.length_take, hlen]; rfl), List.take_append_drop,
      List.append_nil]
  · intro hall
    obtain ⟨⟨hsv, hv0⟩, body, henc, rfl⟩ := hall
    have h2 : (Bytes.ofNatLe 2 p.2.toNat).length = 2 := Bytes.length_ofNatLe _ _
    have htake : (Bytes.ofNatLe 2 p.2.toNat ++ body).take 2 = Bytes.ofNatLe 2 p.2.toNat := by
      rw [List.take_left' h2]
    have hdrop : (Bytes.ofNatLe 2 p.2.toNat ++ body).drop 2 = body := by
      rw [List.drop_left' h2]
    refine ⟨_, _, [], ⟨rfl, ?_⟩, ⟨?_, rfl⟩, (List.append_nil _).symm⟩
    · rw [List.length_append, h2, IntField.length_of_encodeAll henc]
      rfl
    · rw [htake, hdrop, toUInt16_ofNatLe, IntField.decodeAll_of_encodeAll henc]
      obtain ⟨⟨_, _, _, _, _, _, _⟩, _⟩ := p
      cases hsv
      cases hv0
      rfl

theorem reads_read : read.Reads fun p b => p.1.encode p.2 = .ok b := by
  refine (Frame.reads_framed .policyHeader fun head => reads_readBody
    { structVer := head.structVer, var0 := head.var0 }).congr fun p b => ?_
  rw [encode_eq_ok_iff]
  constructor
  · intro h
    obtain ⟨x, ⟨body, hbody, rfl⟩, henc⟩ := h
    exact ⟨body, hbody, henc⟩
  · intro h
    obtain ⟨body, hbody, henc⟩ := h
    exact ⟨_, ⟨body, hbody, rfl⟩, henc⟩

end PolicyHeader

/-! ## Boot blocks -/

namespace BootBlock

theorem bodyFields_lawful : IntField.Lawful bodyFields := by simp [bodyFields, IntField.Lawful]

theorem entryFields_lawful : IntField.Lawful entryFields := by
  simp [entryFields, IntField.Lawful]

theorem encodeBody_eq_ok_iff {e : BootBlock} {b : Bytes} :
    e.encodeBody = .ok b ↔ e.segments ≠ [] ∧ ∃ head post entry list obb count segments,
      IntField.encodeAll bodyFields e = .ok head ∧ e.postIbbHash.encode = .ok post ∧
      IntField.encodeAll entryFields e = .ok entry ∧ e.digestList.encode = .ok list ∧
      e.obbHash.encode = .ok obb ∧ packInt 1 e.segments.length = .ok count ∧
      encodeItems Segment.encode e.segments = .ok segments ∧
      b = head ++ post ++ entry ++ list ++ obb ++ e.rsvd2 ++ count ++ segments := by
  simp only [encodeBody, bind_eq_ok_iff, ite_throw_eq_ok_iff, pure_eq_ok, Except.ok.injEq,
    Segment.encodeAll_eq, List.isEmpty_iff]
  constructor
  · intro h
    obtain ⟨hne, head, h1, post, h2, entry, h3, list, h4, obb, h5, count, h6, segments, h7, rfl⟩ :=
      h
    exact ⟨hne, head, post, entry, list, obb, count, segments, h1, h2, h3, h4, h5, h6, h7, rfl⟩
  · intro h
    obtain ⟨hne, head, post, entry, list, obb, count, segments, h1, h2, h3, h4, h5, h6, h7, rfl⟩ :=
      h
    exact ⟨hne, head, h1, post, h2, entry, h3, list, h4, obb, h5, count, h6, segments, h7, rfl⟩

theorem encode_eq_ok_iff {e : BootBlock} {b : Bytes} :
    e.encode = .ok b ↔ ∃ body, e.encodeBody = .ok body ∧
      Frame.encodeSized .bootBlock e.structVer e.var0 body = .ok b := by
  simp only [encode, bind_eq_ok_iff]

theorem reads_readBody (base : BootBlock) : (readBody base).Reads fun e b =>
    (e.structVer = base.structVer ∧ e.var0 = base.var0) ∧
      e.rsvd2.length = 3 ∧ e.encodeBody = .ok b := by
  have htail (e : BootBlock) (post : Digest) (list : DigestList) (obb : Digest) (rsvd2 : Bytes)
      (count : Nat) := reads_unless (p := count = 0) (.invalidManifest .zeroSegmentCount)
    (reads_bind (reads_items Segment.reads_read count) fun segments =>
      reads_pure { e with
        postIbbHash := post
        digestList := list
        obbHash := obb
        rsvd2 := rsvd2
        segments := segments })
  refine (reads_bind (reads_fields bodyFields_lawful _ base) fun e1 =>
    reads_bind Digest.reads_read fun post =>
    reads_bind (reads_fields entryFields_lawful _ e1) fun e2 =>
    reads_bind DigestList.reads_read fun list =>
    reads_bind Digest.reads_read fun obb =>
    reads_bind (reads_take 3 _) fun rsvd2 =>
    reads_bind (reads_number 1 _) fun count =>
    htail e2 post list obb rsvd2 count).congr fun e b => ?_
  rw [encodeBody_eq_ok_iff]
  constructor
  · intro h
    obtain ⟨e1, head, _, ⟨h1, hc1⟩, ⟨post, postB, _, h2, ⟨e2, entryB, _, ⟨h3, hc2⟩, ⟨list, listB,
      _, h4, ⟨obb, obbB, _, h5, ⟨rsvd2, rsvdB, _, ⟨rfl, hr⟩, ⟨count, countB, _, h6, ⟨hne,
      ⟨segments, segmentsB, _, ⟨hl, h7⟩, ⟨rfl, rfl⟩, rfl⟩⟩, rfl⟩, rfl⟩, rfl⟩, rfl⟩, rfl⟩, rfl⟩,
      rfl⟩ := h
    rw [hc2] at h3 ⊢
    rw [hc1] at h1 ⊢
    refine ⟨⟨rfl, rfl⟩, hr, ?_, head, postB, entryB, listB, obbB, countB, segmentsB, h1, h2, h3,
      h4, h5, ?_, h7, by simp⟩
    · rintro rfl
      exact hne hl.symm
    · exact hl ▸ h6
  · intro h
    obtain ⟨⟨hsv, hv0⟩, hr, hne, head, post, entry, list, obb, count, segments, h1, h2, h3, h4,
      h5, h6, h7, rfl⟩ := h
    refine ⟨IntField.copyAll bodyFields e base, head, _, ⟨h1, rfl⟩, ⟨e.postIbbHash, post, _, h2,
      ⟨IntField.copyAll entryFields e (IntField.copyAll bodyFields e base), entry, _, ⟨h3, rfl⟩,
      ⟨e.digestList, list, _, h4, ⟨e.obbHash, obb, _, h5, ⟨e.rsvd2, e.rsvd2, _, ⟨rfl, hr⟩,
      ⟨e.segments.length, count, _, h6, ⟨?_, ⟨e.segments, segments, [], ⟨rfl, h7⟩, ⟨?_, rfl⟩,
      rfl⟩⟩, rfl⟩, rfl⟩, rfl⟩, rfl⟩, rfl⟩, rfl⟩, by simp⟩
    · rwa [List.length_eq_zero_iff]
    · obtain ⟨_, _, _, _, _, _, _, _, _, _, _, _, _, _, _, _, _, _, _⟩ := e
      cases hsv
      cases hv0
      rfl

theorem reads_read : read.Reads fun e b => e.rsvd2.length = 3 ∧ e.encode = .ok b := by
  refine (Frame.reads_framed .bootBlock fun head => reads_readBody
    { structVer := head.structVer, var0 := head.var0 }).congr fun e b => ?_
  rw [encode_eq_ok_iff]
  constructor
  · intro h
    obtain ⟨x, ⟨hr, hbody⟩, henc⟩ := h
    exact ⟨hr, x, hbody, henc⟩
  · intro h
    obtain ⟨hr, x, hbody, henc⟩ := h
    exact ⟨x, ⟨hr, hbody⟩, henc⟩

end BootBlock

/-! ## Settings of the measured launch -/

namespace TrustedBoot

theorem bodyFields_lawful : IntField.Lawful bodyFields := by simp [bodyFields, IntField.Lawful]

theorem encodeBody_eq_ok_iff {e : TrustedBoot} {b : Bytes} :
    e.encodeBody = .ok b ↔ ∃ head list count segments,
      IntField.encodeAll bodyFields e = .ok head ∧ e.digestList.encode = .ok list ∧
      packInt 1 e.segments.length = .ok count ∧
      encodeItems Segment.encode e.segments = .ok segments ∧
      b = head ++ list ++ e.rsvd3 ++ count ++ segments := by
  simp only [encodeBody, bind_eq_ok_iff, pure_eq_ok, Except.ok.injEq, Segment.encodeAll_eq]
  constructor
  · intro h
    obtain ⟨head, h1, list, h2, count, h3, segments, h4, rfl⟩ := h
    exact ⟨head, list, count, segments, h1, h2, h3, h4, rfl⟩
  · intro h
    obtain ⟨head, list, count, segments, h1, h2, h3, h4, rfl⟩ := h
    exact ⟨head, h1, list, h2, count, h3, segments, h4, rfl⟩

theorem encode_eq_ok_iff {e : TrustedBoot} {b : Bytes} :
    e.encode = .ok b ↔ ∃ body, e.encodeBody = .ok body ∧
      Frame.encodeSized .trustedBoot e.structVer e.var0 body = .ok b := by
  simp only [encode, bind_eq_ok_iff]

theorem reads_readBody (base : TrustedBoot) : (readBody base).Reads fun e b =>
    (e.structVer = base.structVer ∧ e.var0 = base.var0) ∧
      e.rsvd3.length = 3 ∧ e.encodeBody = .ok b := by
  have htail (e : TrustedBoot) (list : DigestList) (rsvd3 : Bytes) (count : Nat) :=
    reads_bind (reads_items Segment.reads_read count) fun segments =>
      reads_pure { e with digestList := list, rsvd3 := rsvd3, segments := segments }
  refine (reads_bind (reads_fields bodyFields_lawful _ base) fun e1 =>
    reads_bind DigestList.reads_read fun list =>
    reads_bind (reads_take 3 _) fun rsvd3 =>
    reads_bind (reads_number 1 _) fun count =>
    htail e1 list rsvd3 count).congr fun e b => ?_
  rw [encodeBody_eq_ok_iff]
  constructor
  · intro h
    obtain ⟨e1, head, _, ⟨h1, hc1⟩, ⟨list, listB, _, h2, ⟨rsvd3, rsvdB, _, ⟨rfl, hr⟩, ⟨count,
      countB, _, h3, ⟨segments, segmentsB, _, ⟨hl, h4⟩, ⟨rfl, rfl⟩, rfl⟩, rfl⟩, rfl⟩, rfl⟩, rfl⟩ :=
      h
    rw [hc1] at h1 ⊢
    exact ⟨⟨rfl, rfl⟩, hr, head, listB, countB, segmentsB, h1, h2, hl ▸ h3, h4, by simp⟩
  · intro h
    obtain ⟨⟨hsv, hv0⟩, hr, head, list, count, segments, h1, h2, h3, h4, rfl⟩ := h
    refine ⟨IntField.copyAll bodyFields e base, head, _, ⟨h1, rfl⟩, ⟨e.digestList, list, _, h2,
      ⟨e.rsvd3, e.rsvd3, _, ⟨rfl, hr⟩, ⟨e.segments.length, count, _, h3, ⟨e.segments, segments, [],
      ⟨rfl, h4⟩, ⟨?_, rfl⟩, rfl⟩, rfl⟩, rfl⟩, rfl⟩, by simp⟩
    obtain ⟨_, _, _, _, _, _, _, _, _, _, _, _, _, _, _, _⟩ := e
    cases hsv
    cases hv0
    rfl

theorem reads_read : read.Reads fun e b => e.rsvd3.length = 3 ∧ e.encode = .ok b := by
  refine (Frame.reads_framed .trustedBoot fun head => reads_readBody
    { structVer := head.structVer, var0 := head.var0 }).congr fun e b => ?_
  rw [encode_eq_ok_iff]
  constructor
  · intro h
    obtain ⟨x, ⟨hr, hbody⟩, henc⟩ := h
    exact ⟨hr, x, hbody, henc⟩
  · intro h
    obtain ⟨hr, x, hbody, henc⟩ := h
    exact ⟨x, ⟨hr, hbody⟩, henc⟩

end TrustedBoot

/-! ## Signature elements -/

namespace SignatureElement

theorem encode_eq_ok_iff {e : SignatureElement} {b : Bytes} :
    e.encode = .ok b ↔ ∃ body, KeySignature.encode? e.keySignature = .ok body ∧
      Frame.encode .signature e.structVer e.var0 e.rsvdSize body = .ok b := by
  simp only [encode, bind_eq_ok_iff]

-- Whether there is a key signature shows in nothing but the end of the input, so this is no
-- instance of `Reads`: an element without one is read at the end only.
theorem read_eq_ok_iff {e : SignatureElement} {c c' : Cursor} (hc : 0 ≤ c.pos) :
    read c = .ok (e, c') ↔ (∃ b, e.encode = .ok b ∧ c.Passes b c') ∧
      (e.keySignature = none → c'.rest = []) := by
  have hhead := Frame.reads_readHead .signature
  rw [read, Reader.bind_eq_ok_iff]
  simp only [encode_eq_ok_iff]
  constructor
  · intro h
    obtain ⟨head, m, h1, h2⟩ := h
    obtain ⟨b1, henc, hp⟩ := (hhead c head m hc).1 h1
    rw [Reader.bind_eq_ok_iff] at h2
    obtain ⟨stop, m', h3, h4⟩ := h2
    cases h3
    cases hstop : m.rest.isEmpty with
    | true =>
      rw [hstop, if_pos rfl] at h4
      cases h4
      refine ⟨⟨b1, ⟨[], rfl, henc⟩, hp⟩, fun _ => List.isEmpty_iff.1 hstop⟩
    | false =>
      rw [hstop, if_neg (by simp), Reader.bind_eq_ok_iff] at h4
      obtain ⟨k, m', h5, h6⟩ := h4
      cases h6
      obtain ⟨b2, hk, hp2⟩ := (KeySignature.reads_read m k c' (hp.pos_nonneg hc)).1 h5
      refine ⟨⟨b1 ++ b2, ⟨b2, hk, ?_⟩, hp.trans hp2⟩, by simp⟩
      exact Frame.encode_eq_ok_iff_head.2 ⟨b1, henc, rfl⟩
  · intro h
    obtain ⟨⟨b, ⟨body, hbody, henc⟩, hp⟩, hend⟩ := h
    obtain ⟨b1, hb1, rfl⟩ := Frame.encode_eq_ok_iff_head.1 henc
    obtain ⟨m, hp1, hp2⟩ := Cursor.passes_append_iff.1 hp
    have hsize := Frame.size_nonneg_of_encode hb1
    obtain ⟨structVer, var0, rsvdSize, keySignature⟩ := e
    obtain ⟨size, rfl⟩ := Int.eq_ofNat_of_zero_le hsize
    refine ⟨⟨structVer, var0, size⟩, m, (hhead c _ m hc).2 ⟨b1, hb1, hp1⟩, ?_⟩
    rw [Reader.bind_eq_ok_iff]
    refine ⟨m.rest.isEmpty, m, rfl, ?_⟩
    cases keySignature with
    | none =>
      cases hbody
      obtain rfl := Cursor.passes_nil_iff.1 hp2
      rw [if_pos (List.isEmpty_iff.2 (hend rfl))]
      rfl
    | some k =>
      have hne : m.rest ≠ [] := by
        rw [hp2.rest]
        exact List.append_ne_nil_of_left_ne_nil (KeySignature.ne_nil_of_encode hbody) _
      rw [if_neg (by rwa [List.isEmpty_iff]), Reader.bind_eq_ok_iff]
      exact ⟨k, c', (KeySignature.reads_read m k c' (hp1.pos_nonneg hc)).2 ⟨body, hbody, hp2⟩,
        rfl⟩

end SignatureElement

/-! ## Bodies of key manifests -/

namespace KeyManifestBody

theorem bodyFields_lawful : IntField.Lawful bodyFields := by simp [bodyFields, IntField.Lawful]

/-- The bytes `bytes` are the body with `offset` in the place of the offset of the key
signature. -/
def WrittenAt (b : KeyManifestBody) (offset : Nat) (bytes : Bytes) : Prop :=
  ∃ off fixed count hashes, packInt 2 offset = .ok off ∧
    IntField.encodeAll bodyFields b = .ok fixed ∧ packInt 2 b.hashes.length = .ok count ∧
    encodeItems KeyHash.encode b.hashes = .ok hashes ∧
    Frame.encode .keyManifest b.structVer b.var0 b.rsvdSize
      (off ++ reserved b.rsvd2 ++ fixed ++ count ++ hashes) = .ok bytes

theorem length_reserved (b : Bytes) : (reserved b).length = 3 := by
  rw [reserved, List.length_append, List.length_take, Bytes.zeros, List.length_replicate]
  omega

theorem reserved_eq_self {b : Bytes} (h : b.length = 3) : reserved b = b := by
  rw [reserved, ← h, Nat.sub_self, List.take_length]
  exact List.append_nil b

theorem encodeWith_eq_ok_iff {b : KeyManifestBody} {hashes bytes : Bytes} :
    b.encodeWith hashes = .ok bytes ↔ ∃ off fixed count,
      packInt 2 (offsetFor hashes.length) = .ok off ∧
      IntField.encodeAll bodyFields b = .ok fixed ∧ packInt 2 b.hashes.length = .ok count ∧
      Frame.encode .keyManifest b.structVer b.var0 b.rsvdSize
        (off ++ reserved b.rsvd2 ++ fixed ++ count ++ hashes) = .ok bytes := by
  simp only [encodeWith, bind_eq_ok_iff]
  constructor
  · intro h
    obtain ⟨off, h1, fixed, h2, count, h3, h4⟩ := h
    exact ⟨off, fixed, count, h1, h2, h3, h4⟩
  · intro h
    obtain ⟨off, fixed, count, h1, h2, h3, h4⟩ := h
    exact ⟨off, h1, fixed, h2, count, h3, h4⟩

/-- The offset of the key signature is the length of the body. -/
theorem length_of_encodeWith {b : KeyManifestBody} {hashes bytes : Bytes}
    (h : b.encodeWith hashes = .ok bytes) : bytes.length = offsetFor hashes.length := by
  obtain ⟨off, fixed, count, h1, h2, h3, h4⟩ := encodeWith_eq_ok_iff.1 h
  have hfixed : fixed.length = 5 := IntField.length_of_encodeAll h2
  rw [Frame.length_of_encode h4]
  simp only [List.length_append, length_of_packInt h1, length_reserved, hfixed,
    length_of_packInt h3, offsetFor, fixedSize]
  omega

theorem encode_eq_ok_iff {b : KeyManifestBody} {bytes : Bytes} :
    b.encode = .ok bytes ↔ ∃ hashes, encodeItems KeyHash.encode b.hashes = .ok hashes ∧
      b.encodeWith hashes = .ok bytes := by
  simp only [encode, bind_eq_ok_iff, KeyHash.encodeAll_eq]

/-- A body is encoded with the offset that is its own length. -/
theorem encode_eq_ok_iff_writtenAt {b : KeyManifestBody} {bytes : Bytes} :
    b.encode = .ok bytes ↔ b.WrittenAt bytes.length bytes := by
  rw [encode_eq_ok_iff]
  constructor
  · intro h
    obtain ⟨hashes, hh, henc⟩ := h
    obtain ⟨off, fixed, count, h1, h2, h3, h4⟩ := encodeWith_eq_ok_iff.1 henc
    rw [← length_of_encodeWith henc] at h1
    exact ⟨off, fixed, count, hashes, h1, h2, h3, hh, h4⟩
  · intro h
    obtain ⟨off, fixed, count, hashes, h1, h2, h3, hh, h4⟩ := h
    have hfixed : fixed.length = 5 := IntField.length_of_encodeAll h2
    have hlen : bytes.length = offsetFor hashes.length := by
      rw [Frame.length_of_encode h4]
      simp only [List.length_append, length_of_packInt h1, length_reserved, hfixed,
        length_of_packInt h3, offsetFor, fixedSize]
      omega
    rw [hlen] at h1
    exact ⟨hashes, hh, encodeWith_eq_ok_iff.2 ⟨off, fixed, count, h1, h2, h3, h4⟩⟩

/-- The encoding of a body does not tell its reserved bytes from three that they are filled up or
cut off to. -/
theorem encode_reserved (b : KeyManifestBody) :
    ({ b with rsvd2 := reserved b.rsvd2 } : KeyManifestBody).encode = b.encode := by
  have hreserved : reserved (reserved b.rsvd2) = reserved b.rsvd2 :=
    reserved_eq_self (length_reserved b.rsvd2)
  simp only [encode, encodeWith, hreserved]
  rfl

/-- The parts of the fixed bytes behind the head: the offset, the reserved bytes, the fields and
the number of key hashes. -/
theorem fixed_parts {off rsvd fixed : Bytes} (h1 : off.length = 2) (h2 : rsvd.length = 3)
    (h3 : fixed.length = 5) (count : Bytes) :
    (off ++ (rsvd ++ (fixed ++ count))).take 2 = off ∧
      ((off ++ (rsvd ++ (fixed ++ count))).drop 2).take 3 = rsvd ∧
      (off ++ (rsvd ++ (fixed ++ count))).drop 5 = fixed ++ count ∧
      (off ++ (rsvd ++ (fixed ++ count))).drop 10 = count := by
  have hdrop2 : (off ++ (rsvd ++ (fixed ++ count))).drop 2 = rsvd ++ (fixed ++ count) :=
    List.drop_left' h1
  have hdrop5 : (off ++ (rsvd ++ (fixed ++ count))).drop 5 = fixed ++ count := by
    rw [← List.drop_drop (i := 3) (j := 2), hdrop2, List.drop_left' h2]
  refine ⟨List.take_left' h1, by rw [hdrop2, List.take_left' h2], hdrop5, ?_⟩
  rw [← List.drop_drop (i := 5) (j := 5), hdrop5, List.drop_left' h3]

theorem exists_parts {b : Bytes} (h : b.length = 12) : ∃ off rsvd fixed count : Bytes,
    b = off ++ (rsvd ++ (fixed ++ count)) ∧ off.length = 2 ∧ rsvd.length = 3 ∧
      fixed.length = 5 ∧ count.length = 2 := by
  refine ⟨b.take 2, (b.drop 2).take 3, ((b.drop 2).drop 3).take 5, ((b.drop 2).drop 3).drop 5, ?_⟩
  refine ⟨by simp only [List.take_append_drop], ?_, ?_, ?_, ?_⟩ <;>
    simp [h]

theorem reads_read : read.Reads fun p bytes =>
    p.1.rsvd2.length = 3 ∧ p.1.WrittenAt p.2 bytes := by
  have htail (head : Frame.Head) (b : Bytes) (hashes : List KeyHash) :=
    reads_pure (IntField.decodeAll bodyFields (b.drop 5)
      { structVer := head.structVer
        var0 := head.var0
        rsvdSize := head.size
        rsvd2 := (b.drop 2).take 3
        hashes := hashes }, Bytes.toNatLe (b.take 2))
  refine (reads_bind (Frame.reads_readHead .keyManifest) fun head =>
    reads_bind (reads_take fixedSize _) fun b =>
    reads_bind (reads_items KeyHash.reads_read (Bytes.toNatLe (List.drop 10 b))) fun hashes =>
    htail head b hashes).congr fun p bytes => ?_
  constructor
  · intro h
    obtain ⟨head, headB, _, hhead, ⟨b, _, _, ⟨rfl, hlen⟩, ⟨hashes, hashesB, _, ⟨hl, hh⟩,
      ⟨hp, rfl⟩, rfl⟩, rfl⟩, rfl⟩ := h
    obtain ⟨off, rsvd, fixed, count, rfl, hlo, hlr, hlf, hlc⟩ := exists_parts hlen
    obtain ⟨hoff, hrsvd, hdrop5, hdrop10⟩ := fixed_parts hlo hlr hlf count
    rw [hoff, hrsvd, hdrop5, IntField.decodeAll_append hlf] at hp
    rw [hdrop10] at hl
    obtain ⟨henc, hcopy⟩ := (IntField.eq_decodeAll_iff bodyFields_lawful).1 ⟨hlf, rfl⟩
    obtain rfl := hp
    refine ⟨hlr, off, fixed, count, hashesB, packInt_eq_ok_iff_toNatLe.2 ⟨hlo, rfl⟩, henc,
      packInt_eq_ok_iff_toNatLe.2 ⟨hlc, by exact_mod_cast hl⟩, hh, ?_⟩
    refine Frame.encode_eq_ok_iff_head.2 ⟨headB, hhead, ?_⟩
    have hres : reserved rsvd = rsvd := reserved_eq_self hlr
    show _ = headB ++ (off ++ reserved rsvd ++ fixed ++ count ++ hashesB)
    rw [hres]
    simp only [List.append_assoc, List.append_nil]
  · intro h
    obtain ⟨hr, off, fixed, count, hashes, h1, h2, h3, hh, henc⟩ := h
    obtain ⟨hlo, hvo⟩ := packInt_eq_ok_iff_toNatLe.1 h1
    obtain ⟨hlc, hvc⟩ := packInt_eq_ok_iff_toNatLe.1 h3
    have hlf := IntField.length_of_encodeAll h2
    obtain ⟨hoff, hrsvd, hdrop5, hdrop10⟩ := fixed_parts hlo hr hlf count
    obtain ⟨headB, hhead, rfl⟩ := Frame.encode_eq_ok_iff_head.1 henc
    obtain ⟨size, hsize⟩ := Int.eq_ofNat_of_zero_le (Frame.size_nonneg_of_encode hhead)
    rw [hsize] at hhead
    refine ⟨⟨p.1.structVer, p.1.var0, size⟩, headB, _, hhead,
      ⟨off ++ (p.1.rsvd2 ++ (fixed ++ count)), _, hashes, ⟨rfl, ?_⟩,
      ⟨p.1.hashes, hashes, [], ⟨?_, hh⟩, ⟨?_, rfl⟩, (List.append_nil _).symm⟩, rfl⟩, ?_⟩
    · rw [List.length_append, List.length_append, List.length_append, hlo, hr, hlf, hlc]
      rfl
    · rw [hdrop10]
      exact_mod_cast hvc
    · rw [hoff, hrsvd, hdrop5, IntField.decodeAll_append hlf, IntField.decodeAll_of_encodeAll h2,
        ← Int.natCast_inj.1 hvo]
      obtain ⟨⟨_, _, _, _, _, _, _, _, _⟩, _⟩ := p
      cases hsize
      rfl
    · rw [reserved_eq_self hr]
      simp only [List.append_assoc]

end KeyManifestBody

/-! ## Elements of every kind -/

namespace Element

/-- The bytes `b` are the encoding of the element, with the offset that it carries. -/
def Written : Element → Bytes → Prop
  | policyHeader h offset, b => h.encode offset = .ok b
  | bootBlock e, b => e.rsvd2.length = 3 ∧ e.encode = .ok b
  | trustedBoot e, b => e.rsvd3.length = 3 ∧ e.encode = .ok b
  | signature e, b => e.encode = .ok b
  | keyManifest k offset, b => k.rsvd2.length = 3 ∧ k.WrittenAt offset b

/-- The element is one that only stands at the end of the input. -/
def EndsInput : Element → Prop
  | signature e => e.keySignature = none
  | _ => False

/-- The encoding of an element starts with the ID of its kind, however many reserved bytes it
has. -/
theorem take_of_encode {e : Element} {b : Bytes} (h : e.encode = .ok b) :
    b.take 8 = e.kind.id := by
  cases e with
  | policyHeader p offset =>
    obtain ⟨body, _, henc⟩ := PolicyHeader.encode_eq_ok_iff.1 h
    exact Frame.take_of_encode henc
  | bootBlock e =>
    obtain ⟨body, _, henc⟩ := BootBlock.encode_eq_ok_iff.1 h
    exact Frame.take_of_encode henc
  | trustedBoot e =>
    obtain ⟨body, _, henc⟩ := TrustedBoot.encode_eq_ok_iff.1 h
    exact Frame.take_of_encode henc
  | signature e =>
    obtain ⟨body, _, henc⟩ := SignatureElement.encode_eq_ok_iff.1 h
    exact Frame.take_of_encode henc
  | keyManifest k offset =>
    obtain ⟨off, fixed, count, hashes, _, _, _, _, henc⟩ :=
      KeyManifestBody.encode_eq_ok_iff_writtenAt.1 h
    exact Frame.take_of_encode henc

theorem Written.take_eq_id {e : Element} {b : Bytes} (h : e.Written b) :
    b.take 8 = e.kind.id := by
  cases e with
  | policyHeader p offset => exact take_of_encode (e := .policyHeader p offset) h
  | bootBlock e => exact take_of_encode (e := .bootBlock e) h.2
  | trustedBoot e => exact take_of_encode (e := .trustedBoot e) h.2
  | signature e => exact take_of_encode (e := .signature e) h
  | keyManifest k offset =>
    -- The offset need not be the one that `encode` derives.
    obtain ⟨_, off, fixed, count, hashes, _, _, _, _, henc⟩ := h
    exact Frame.take_of_encode henc

/-- There is room for the structure ID. -/
theorem Written.eight_le {e : Element} {b : Bytes} (h : e.Written b) : 8 ≤ b.length := by
  have hlen := congrArg List.length h.take_eq_id
  rw [List.length_take, e.kind.length_id] at hlen
  omega

theorem Written.ne_nil {e : Element} {x : Bytes} (h : e.Written x) : x ≠ [] := by
  have hlen := h.eight_le
  rintro rfl
  cases hlen

/-- A written element is encoded as it is written. The body of a key manifest is if it has the
offset that encoding derives, its own length. -/
theorem Written.encode_eq_iff {e : Element} {x : Bytes} (h : e.Written x) :
    e.encode = .ok x ↔ ∀ body offset, e = .keyManifest body offset → offset = x.length := by
  cases e with
  | policyHeader p offset => exact iff_of_true h nofun
  | bootBlock e => exact iff_of_true h.2 nofun
  | trustedBoot e => exact iff_of_true h.2 nofun
  | signature e => exact iff_of_true h nofun
  | keyManifest k offset =>
    obtain ⟨hfit, hw⟩ := h
    rw [encode, KeyManifestBody.encode_eq_ok_iff_writtenAt]
    constructor
    · rintro henc _ _ ⟨⟩
      have hsame : (k, offset) = (k, x.length) :=
        KeyManifestBody.reads_read.inj ⟨hfit, hw⟩ ⟨hfit, henc⟩
      exact congrArg Prod.snd hsame
    · intro hoffset
      rw [← hoffset k offset rfl]
      exact hw

theorem peekId_eq_ok_iff {c c' : Cursor} {id : Bytes} (hc : 0 ≤ c.pos) :
    peekId c = .ok (id, c') ↔ c' = c ∧ id = c.rest.take 8 ∧ 8 ≤ c.rest.length := by
  unfold peekId
  constructor
  · intro h
    cases ht : take 8 .structureId c with
    | error e =>
      rw [ht] at h
      cases h
    | ok p =>
      rw [ht] at h
      cases h
      obtain ⟨b, ⟨rfl, hlen⟩, hp⟩ := (reads_take 8 _ c _ p.2 hc).1 ht
      refine ⟨rfl, ?_, by rw [hp.length_rest]; omega⟩
      rw [hp.rest, List.take_left' hlen]
  · intro hall
    obtain ⟨rfl, rfl, hlen⟩ := hall
    have ht : take 8 .structureId c' = .ok (c'.rest.take 8, ⟨c'.pos + 8, c'.rest.drop 8⟩) := by
      refine (reads_take 8 _ c' _ _ hc).2 ⟨_, ⟨rfl, ?_⟩, ?_⟩
      · rw [List.length_take]
        omega
      · refine ⟨(List.take_append_drop 8 _).symm, ?_⟩
        rw [List.length_take, Nat.min_eq_left hlen]
        rfl
    rw [ht]

/-- A reader of records, of which `f` makes the elements of a kind that may be followed by
others. -/
theorem map_eq_ok_iff_of_kind {α : Type} {r : Reader α} {W : α → Bytes → Prop} (hr : r.Reads W)
    {f : α → Element} {k : ElementKind} {e : Element} {c c' : Cursor} (hc : 0 ≤ c.pos)
    (hkind : e.kind = k ↔ ∃ x, e = f x) (hwritten : ∀ x b, (f x).Written b ↔ W x b)
    (hends : ∀ x, ¬ (f x).EndsInput) : (f <$> r) c = .ok (e, c') ↔
      e.kind = k ∧ (∃ b, e.Written b ∧ c.Passes b c') ∧ (e.EndsInput → c'.rest = []) := by
  rw [reads_map hr f c e c' hc, hkind]
  constructor
  · intro h
    obtain ⟨b, ⟨x, hx, rfl⟩, hpass⟩ := h
    exact ⟨⟨x, rfl⟩, ⟨b, (hwritten x b).2 hx, hpass⟩, fun hend => absurd hend (hends x)⟩
  · intro h
    obtain ⟨⟨x, rfl⟩, ⟨b, hw, hpass⟩, _⟩ := h
    exact ⟨b, ⟨x, (hwritten x b).1 hw, rfl⟩, hpass⟩

/-- An element of a given kind is read exactly as it is written. -/
theorem readKind_eq_ok_iff {k : ElementKind} {e : Element} {c c' : Cursor} (hc : 0 ≤ c.pos) :
    readKind k c = .ok (e, c') ↔
      e.kind = k ∧ (∃ b, e.Written b ∧ c.Passes b c') ∧ (e.EndsInput → c'.rest = []) := by
  cases k with
  | policyHeader =>
    refine map_eq_ok_iff_of_kind PolicyHeader.reads_read hc ?_ (fun _ _ => Iff.rfl) (fun _ => id)
    cases e <;> simp [kind]
  | bootBlock =>
    refine map_eq_ok_iff_of_kind BootBlock.reads_read hc ?_ (fun _ _ => Iff.rfl) (fun _ => id)
    cases e <;> simp [kind]
  | trustedBoot =>
    refine map_eq_ok_iff_of_kind TrustedBoot.reads_read hc ?_ (fun _ _ => Iff.rfl) (fun _ => id)
    cases e <;> simp [kind]
  | signature =>
    rw [readKind, Reader.map_eq_ok_iff]
    constructor
    · intro h
      obtain ⟨x, hx, rfl⟩ := h
      obtain ⟨hw, hend⟩ := (SignatureElement.read_eq_ok_iff hc).1 hx
      exact ⟨rfl, hw, hend⟩
    · intro h
      obtain ⟨hk, hw, hend⟩ := h
      cases e with
      | signature x => exact ⟨x, (SignatureElement.read_eq_ok_iff hc).2 ⟨hw, hend⟩, rfl⟩
      | _ => cases hk
  | keyManifest =>
    refine map_eq_ok_iff_of_kind KeyManifestBody.reads_read hc ?_ (fun _ _ => Iff.rfl)
      (fun _ => id)
    cases e <;> simp [kind]

/-- Which reader reads the element is decided by the first eight bytes. -/
theorem read_of_take_eq_id {c : Cursor} {k : ElementKind} (hc : 0 ≤ c.pos)
    (h : c.rest.take 8 = k.id) : read c = readKind k c := by
  have hlen := congrArg List.length h
  rw [List.length_take, k.length_id] at hlen
  unfold read
  rw [Reader.bind_of_eq_ok rfl, Reader.bind_of_eq_ok
    ((peekId_eq_ok_iff hc).2 ⟨rfl, h.symm, by omega⟩), ElementKind.ofId?_id]

/-- An element is read exactly as it is written. -/
theorem read_eq_ok_iff {e : Element} {c c' : Cursor} (hc : 0 ≤ c.pos) :
    read c = .ok (e, c') ↔
      (∃ b, e.Written b ∧ c.Passes b c') ∧ (e.EndsInput → c'.rest = []) := by
  constructor
  · intro h
    rw [read, Reader.bind_eq_ok_iff] at h
    obtain ⟨start, m, h1, h2⟩ := h
    cases h1
    obtain ⟨id, m, hid, h3⟩ := Reader.bind_eq_ok_iff.1 h2
    obtain ⟨rfl, rfl, _⟩ := (peekId_eq_ok_iff hc).1 hid
    cases hk : ElementKind.ofId? (m.rest.take 8) with
    | none =>
      rw [hk] at h3
      cases h3
    | some k =>
      rw [hk] at h3
      exact ((readKind_eq_ok_iff hc).1 h3).2
  · intro h
    obtain ⟨⟨b, hw, hp⟩, hend⟩ := h
    have htake : c.rest.take 8 = e.kind.id := by
      rw [hp.rest, List.take_append_of_le_length hw.eight_le, hw.take_eq_id]
    rw [read_of_take_eq_id hc htake]
    exact (readKind_eq_ok_iff hc).2 ⟨rfl, ⟨b, hw, hp⟩, hend⟩

end Element

end BootGuard
