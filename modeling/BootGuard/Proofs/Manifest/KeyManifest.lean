/-
  Key manifests are read exactly as they are assembled.

  The offset of the key signature is the length of the body, so the manifest that is read from
  some bytes is one that assembling leaves as it is (`ofBytes_eq_ok_iff`).
-/
import BootGuard.Proofs.Codec.Elements
import BootGuard.Manifest.Reading

namespace BootGuard

namespace KeyManifest

/-! ## Assembling -/

theorem encodeBody_eq_ok_iff {k k' : KeyManifest} {b : Bytes} :
    encodeBody.runOn k = (.ok b, k') ↔
      k.body.encode = .ok b ∧ k' = { k with keySignatureOffset := b.length } := by
  rw [KeyManifestBody.encode_eq_ok_iff, encodeBody, Update.runOn_get_bind,
    Update.runOn_bind_eq_ok_iff, KeyHash.encodeAll_eq]
  constructor
  · intro h
    obtain ⟨hashes, m, h1, h2⟩ := h
    obtain ⟨hh, rfl⟩ := Update.runOn_ofExcept_eq_ok_iff.1 h1
    rw [Update.runOn_modify_bind, Update.runOn_get_bind] at h2
    obtain ⟨henc, rfl⟩ := Update.runOn_ofExcept_eq_ok_iff.1 h2
    refine ⟨⟨hashes, hh, henc⟩, ?_⟩
    rw [KeyManifestBody.length_of_encodeWith henc]
  · intro h
    obtain ⟨⟨hashes, hh, henc⟩, rfl⟩ := h
    refine ⟨hashes, k, Update.runOn_ofExcept_eq_ok_iff.2 ⟨hh, rfl⟩, ?_⟩
    rw [Update.runOn_modify_bind, Update.runOn_get_bind, KeyManifestBody.length_of_encodeWith henc]
    exact Update.runOn_ofExcept_eq_ok_iff.2 ⟨henc, rfl⟩

/-- A body that can be encoded is not too large for its offset. -/
theorem length_encode_le {b : KeyManifestBody} {bytes : Bytes} (h : b.encode = .ok bytes) :
    bytes.length ≤ Frame.maxSize := by
  obtain ⟨off, fixed, count, hashes, hoff, _⟩ := KeyManifestBody.encode_eq_ok_iff_writtenAt.1 h
  have hlt : (bytes.length : Int) < 0x10000 := (packInt_eq_ok_iff.1 hoff).1.2
  rw [Frame.maxSize]
  omega

theorem assembleWith_eq_ok_iff {signature : Except Error Bytes} {k k' : KeyManifest}
    {b : Bytes} : (assembleWith signature).runOn k = (.ok b, k') ↔
      k.validate = .ok () ∧ ∃ body sig, k.body.encode = .ok body ∧ signature = .ok sig ∧
        b = body ++ sig ∧ k' = { k with keySignatureOffset := body.length } := by
  rw [assembleWith, Update.runOn_get_bind, Update.runOn_bind_eq_ok_iff]
  simp only [Update.runOn_ofExcept_eq_ok_iff, Update.runOn_bind_eq_ok_iff, encodeBody_eq_ok_iff,
    Update.runOn_get_bind, Update.runOn_ite_throw_eq_ok_iff, Update.runOn_pure_eq_ok_iff]
  constructor
  · intro h
    obtain ⟨⟨⟩, _, ⟨hv, rfl⟩, body, _, ⟨hb, rfl⟩, _, sig, _, ⟨hs, rfl⟩, rfl, rfl⟩ := h
    exact ⟨hv, body, sig, hb, hs, rfl, rfl⟩
  · intro h
    obtain ⟨hv, body, sig, hb, hs, rfl, rfl⟩ := h
    exact ⟨(), k, ⟨hv, rfl⟩, body, _, ⟨hb, rfl⟩, Nat.not_lt.2 (length_encode_le hb), sig, _,
      ⟨hs, rfl⟩, rfl, rfl⟩

theorem assemble_eq_ok_iff {k k' : KeyManifest} {b : Bytes} :
    assemble.runOn k = (.ok b, k') ↔ k.validate = .ok () ∧ ∃ body sig,
      k.body.encode = .ok body ∧ KeySignature.encode? k.keySignature = .ok sig ∧
      b = body ++ sig ∧ k' = { k with keySignatureOffset := body.length } := by
  rw [assemble, Update.runOn_get_bind, assembleWith_eq_ok_iff]

/-! ## Reading -/

/-- What is left to do when the body has been read: the key signature, unless the input has
ended. -/
def finish (k : KeyManifest) (c : Cursor) : Except Error KeyManifest := do
  if c.rest.isEmpty then return { k with keySignature := none }
  let (signature, c) ← KeySignature.read c
  if !c.rest.isEmpty then throw (.invalidManifest (.afterKeySignature c.rest.length))
  return { k with keySignature := some signature }

theorem finish_eq_ok_iff {base k : KeyManifest} {c : Cursor} (hc : 0 ≤ c.pos) :
    finish base c = .ok k ↔ ∃ signature, KeySignature.encode? signature = .ok c.rest ∧
      k = { base with keySignature := signature } := by
  rw [finish]
  constructor
  · intro h
    cases hend : c.rest.isEmpty with
    | true =>
      rw [hend, if_pos rfl] at h
      cases h
      refine ⟨none, ?_, rfl⟩
      rw [List.isEmpty_iff.1 hend]
      rfl
    | false =>
      rw [hend, if_neg (by simp)] at h
      simp only [bind_eq_ok_iff, ite_throw_eq_ok_iff] at h
      obtain ⟨⟨signature, c'⟩, hs, hrest, hk⟩ := h
      cases hk
      obtain ⟨x, hx, hp⟩ := (KeySignature.reads_read c signature c' hc).1 hs
      refine ⟨some signature, ?_, rfl⟩
      have hnil : c'.rest = [] := by simpa using hrest
      rw [hp.rest, hnil, List.append_nil]
      exact hx
  · intro hall
    obtain ⟨signature, hs, rfl⟩ := hall
    cases signature with
    | none =>
      have hnil : c.rest = [] := (Except.ok.inj hs).symm
      rw [hnil]
      rfl
    | some k =>
      have hend : c.rest.isEmpty = false := by
        rw [List.isEmpty_eq_false_iff]
        exact KeySignature.ne_nil_of_encode hs
      rw [hend, if_neg (by simp)]
      simp only [bind_eq_ok_iff, ite_throw_eq_ok_iff]
      refine ⟨(k, ⟨c.pos + c.rest.length, []⟩), ?_, by simp, rfl⟩
      exact (KeySignature.reads_read c k _ hc).2 ⟨c.rest, hs, (List.append_nil _).symm, rfl⟩

theorem ofBytes_eq (b : Bytes) : ofBytes b = (do
    let ((body, offset), c) ← KeyManifestBody.read (Reader.start b 0)
    if (offset : Int) ≠ c.pos then
      throw (.invalidManifest (.keyManifestOffset offset c.pos.toNat))
    let k : KeyManifest := { body := body, keySignatureOffset := offset }
    k.validate
    finish k c) := rfl

/-- The manifests that are read from some bytes are those that are assembled into them, and
whose offset is the one that assembling derives. -/
theorem ofBytes_eq_ok_iff {b : Bytes} {k : KeyManifest} :
    ofBytes b = .ok k ↔ k.body.rsvd2.length = 3 ∧ assemble.runOn k = (.ok b, k) := by
  rw [assemble_eq_ok_iff, ofBytes_eq]
  simp only [bind_eq_ok_iff, ite_throw_eq_ok_iff]
  have h0 : 0 ≤ (Reader.start b 0).pos := Int.le_refl 0
  constructor
  · intro h
    obtain ⟨⟨⟨body, offset⟩, c⟩, hread, hpos, ⟨⟩, hv, hfin⟩ := h
    obtain ⟨x, ⟨hr, hw⟩, hp⟩ := (KeyManifestBody.reads_read _ _ _ h0).1 hread
    obtain ⟨signature, hs, rfl⟩ := (finish_eq_ok_iff (hp.pos_nonneg h0)).1 hfin
    have hoff : offset = x.length := by
      have hc := Decidable.of_not_not hpos
      rw [hp.pos, Reader.start, Int.zero_add] at hc
      exact Int.natCast_inj.1 hc
    subst hoff
    exact ⟨hr, hv, x, c.rest, KeyManifestBody.encode_eq_ok_iff_writtenAt.2 hw, hs, hp.rest, rfl⟩
  · intro h
    obtain ⟨hr, hv, body, sig, hb, hs, rfl, hk⟩ := h
    have hp : (Reader.start (body ++ sig) 0).Passes body ⟨body.length, sig⟩ := by
      refine ⟨rfl, ?_⟩
      simp [Reader.start]
    have hw := KeyManifestBody.encode_eq_ok_iff_writtenAt.1 hb
    refine ⟨((k.body, body.length), ⟨body.length, sig⟩),
      (KeyManifestBody.reads_read _ _ _ h0).2 ⟨body, ⟨hr, hw⟩, hp⟩, not_not_intro rfl, (), hv, ?_⟩
    exact (finish_eq_ok_iff (Int.natCast_nonneg _)).2 ⟨k.keySignature, hs, hk⟩

/-- Assembling again changes nothing. -/
theorem assemble_idem {k k' : KeyManifest} {b : Bytes}
    (h : assemble.runOn k = (.ok b, k')) : assemble.runOn k' = (.ok b, k') := by
  rw [assemble_eq_ok_iff] at h ⊢
  obtain ⟨hv, body, sig, hb, hs, rfl, rfl⟩ := h
  exact ⟨hv, body, sig, hb, hs, rfl, rfl⟩

end KeyManifest

end BootGuard
