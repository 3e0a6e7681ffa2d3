/-
  Options are read back from their text.

  The text says all that a manifest encodes. It does not say which offset a manifest keeps, nor
  that a key manifest has no key signature: null stands for an unbound key signature there,
  while in a signature element it stands for none. So options are read back up to the kept
  offsets if and only if their key manifest has a key signature (`ofText_text`).
-/
import BootGuard.Options
import BootGuard.Proofs.Json.Records
import BootGuard.Proofs.Manifest.Offsets

namespace BootGuard

open Json

/-! ## Manifests -/

namespace BootPolicy

/-- No list of digests in the manifest has two digests of one algorithm. -/
def DistinctDigests (p : BootPolicy) : Prop :=
  (∀ e ∈ p.bootBlocks, e.digestList.algorithms.Nodup) ∧
    ∀ e ∈ p.trustedBoot, e.digestList.algorithms.Nodup

theorem keys : Keys ["bpmh", "ibb", "txt", "pmse"] := by decide

/-- A boot policy manifest is what its document describes, but for the offset that it keeps. -/
theorem describes {p : BootPolicy} (h : p.DistinctDigests) :
    Describes ofJson p.toJson { p with keySignatureOffset := 0 } := by
  have hheader := p.header.describes
  have hblocks : Describes (mapItems BootBlock.ofJson) _ p.bootBlocks :=
    describes_items fun e he => BootBlock.describes (h.1 e he)
  have hsettings : ∀ e ∈ p.trustedBoot, Describes TrustedBoot.ofJson e.toJson (id e) :=
    fun e he => TrustedBoot.describes (h.2 e he)
  have hsignature : ∀ e ∈ some p.signature, Describes SignatureElement.ofJson e.toJson (id e) :=
    fun e _ => e.describes
  refine ⟨isPlain_obj keys ?_, ?_⟩
  · exact List.forall_iff_forall_mem.1 ⟨hheader.plain, hblocks.plain,
      isPlain_part fun e he => (hsettings e he).plain, p.signature.describes.plain⟩
  · have hbpmh : p.toJson.get? "bpmh" = .ok (some p.header.toJson) := get?_obj keys 0 rfl
    have hibb : p.toJson.get? "ibb" = .ok (some (.arr (p.bootBlocks.map BootBlock.toJson))) :=
      get?_obj keys 1 rfl
    have htxt : p.toJson.part? "txt" TrustedBoot.ofJson = .ok (p.trustedBoot.map id) :=
      part?_obj keys 2 rfl hsettings fun _ _ => nofun
    have hpmse : p.toJson.part? "pmse" SignatureElement.ofJson =
        .ok ((some p.signature).map id) := part?_obj keys 3 rfl hsignature fun _ _ => nofun
    rw [ofJson, hbpmh, ok_bind, Option.getD_some, hheader.read_eq, ok_bind, hibb, ok_bind,
      Option.getD_some, hblocks.read_eq, ok_bind, htxt, ok_bind, hpmse, ok_bind, Option.map_id]
    rfl

/-- The offset that a manifest keeps has no part in its encoding. -/
theorem assemble_of_kept {p q : BootPolicy} {b : Bytes} (h : assemble.runOn p = (.ok b, q)) :
    assemble.runOn { p with keySignatureOffset := 0 } = (.ok b, q) := by
  have hsame : (Manifest.bootPolicy p).withOffset 0 =
      (Manifest.bootPolicy { p with keySignatureOffset := 0 }).withOffset 0 := rfl
  rw [← Manifest.assemble_bootPolicy_iff] at h ⊢
  exact Manifest.assemble_congr hsame h

end BootPolicy

namespace KeyManifest

theorem keys : Keys ["body", "key_signature"] := by decide

/-- A key manifest is what its document describes, but for the offset that it keeps and for a key
signature where it has none. -/
theorem describes (k : KeyManifest) : Describes ofJson k.toJson
    { k with keySignature := some (k.keySignature.getD {}), keySignatureOffset := 0 } := by
  have hbody := k.body.describes
  have hsignature : ∀ s ∈ k.keySignature, Describes KeySignature.ofJson s.toJson (id s) :=
    fun s _ => s.describes
  refine ⟨isPlain_obj keys ?_, ?_⟩
  · exact List.forall_iff_forall_mem.1
      ⟨hbody.plain, (KeySignature.describes? k.keySignature).plain⟩
  · have hpart : k.toJson.get? "body" = .ok (some k.body.toJson) := get?_obj keys 0 rfl
    have hoptional : k.toJson.part? "key_signature" KeySignature.ofJson =
        .ok (k.keySignature.map id) := by
      refine part?_obj keys 1 ?_ hsignature fun _ _ => nofun
      rw [← KeySignature.toJson?_eq]
      rfl
    rw [ofJson, hpart, ok_bind, Option.getD_some, hbody.read_eq, ok_bind, hoptional, ok_bind,
      Option.map_id]
    rfl

/-- With an unbound key signature in the place of a missing one, a key manifest has another
encoding, and only then. -/
theorem assemble_of_completed {k q : KeyManifest} {b : Bytes}
    (h : assemble.runOn k = (.ok b, q)) : ∃ c r, assemble.runOn { k with
      keySignature := some (k.keySignature.getD {}), keySignatureOffset := 0 } = (.ok c, r) ∧
      (c = b ↔ k.keySignature ≠ none) := by
  obtain ⟨hvalid, body, signature, hbody, hsignature, rfl, rfl⟩ := assemble_eq_ok_iff.1 h
  cases hk : k.keySignature with
  | some s =>
    rw [hk] at hsignature
    exact ⟨_, _, assemble_eq_ok_iff.2 ⟨hvalid, body, signature, hbody, hsignature, rfl, rfl⟩,
      by simp⟩
  | none =>
    rw [hk] at hsignature
    cases hsignature
    have hunbound : KeySignature.encode? (some {}) =
        .ok [0x10, 0, 0, 0x10, 0, 0, 0, 0, 0x10, 0, 0, 0, 0] := rfl
    exact ⟨_, _, assemble_eq_ok_iff.2 ⟨hvalid, body, _, hbody, hunbound, rfl, rfl⟩, by simp⟩

end KeyManifest

/-! ## Options -/

namespace Options

/-- No list of digests in the options has two digests of one algorithm. -/
def DistinctDigests (o : Options) : Prop := ∀ p ∈ o.policy, p.DistinctDigests

theorem keys_toJson : Keys ["bpm", "km"] := by decide

theorem ofText_text_eq {o : Options} (h : o.DistinctDigests) :
    ofText o.text = .ok
      { policy := o.policy.map fun p => { p with keySignatureOffset := 0 }
        keys := o.keys.map fun k =>
          { k with keySignature := some (k.keySignature.getD {}), keySignatureOffset := 0 } } := by
  have hpolicy := fun p hp => BootPolicy.describes (h p hp)
  have hkeys := fun k (_ : k ∈ o.keys) => k.describes
  have hplain : o.toJson.IsPlain := by
    refine isPlain_obj keys_toJson (List.forall_iff_forall_mem.1 ⟨?_, ?_⟩)
    · exact isPlain_part fun p hp => (hpolicy p hp).plain
    · exact isPlain_part fun k hk => (hkeys k hk).plain
  have hbpm : o.toJson.part? "bpm" BootPolicy.ofJson = .ok (o.policy.map _) :=
    part?_obj keys_toJson 0 rfl hpolicy fun _ _ => nofun
  have hkm : o.toJson.part? "km" KeyManifest.ofJson = .ok (o.keys.map _) :=
    part?_obj keys_toJson 1 rfl hkeys fun _ _ => nofun
  rw [ofText, text, parse_render Layout.isBlank_indented hplain, ok_bind, ofJson, hbpm, ok_bind,
    hkm, ok_bind]
  rfl

/-- Options are read back from their text with every element of both manifests as it was, and a
boot policy manifest has its encoding again. A key manifest has its key signature and its encoding
again if and only if it has a key signature: one that is missing comes back unbound. -/
theorem ofText_text {o : Options} (h : o.DistinctDigests) :
    ∃ o', ofText o.text = .ok o' ∧
      o'.policy = o.policy.map (fun p => { p with keySignatureOffset := 0 }) ∧
      o'.keys = o.keys.map (fun k =>
        { k with keySignature := some (k.keySignature.getD {}), keySignatureOffset := 0 }) ∧
      (∀ p ∈ o.policy, ∃ p' ∈ o'.policy, ∀ b q,
        BootPolicy.assemble.runOn p = (.ok b, q) → BootPolicy.assemble.runOn p' = (.ok b, q)) ∧
      (∀ k ∈ o.keys, ∃ k' ∈ o'.keys, (k'.keySignature = k.keySignature ↔ k.keySignature ≠ none) ∧
        ∀ b q, KeyManifest.assemble.runOn k = (.ok b, q) →
          ∃ c r, KeyManifest.assemble.runOn k' = (.ok c, r) ∧
            (c = b ↔ k.keySignature ≠ none)) := by
  refine ⟨_, ofText_text_eq h, rfl, rfl, fun p hp => ?_, fun k hk => ?_⟩
  · exact ⟨_, Option.mem_map_of_mem _ hp, fun b q hpq => BootPolicy.assemble_of_kept hpq⟩
  · refine ⟨_, Option.mem_map_of_mem _ hk, ?_, fun b q hkq => KeyManifest.assemble_of_completed hkq⟩
    cases k.keySignature <;> simp

/-- A boot policy manifest of one block and a key manifest without its key signature. -/
def storedOptions : Options where
  policy := some
    { header := { nemPages := 4, bpmSvn := -1 }
      bootBlocks := [{ digestList := ⟨[⟨Algorithm.sha256, [1, 2, 3]⟩, ⟨Algorithm.sha384, []⟩]⟩ }]
      signature := { keySignature := none }
      keySignatureOffset := 164 }
  keys := some { body := { hashes := [{ usage := 2 ^ 70 }] }, keySignature := none }

theorem ofText_text_sample : storedOptions.DistinctDigests ∧
    ∃ o', ofText storedOptions.text = .ok o' ∧
      o'.policy = storedOptions.policy.map (fun p => { p with keySignatureOffset := 0 }) ∧
      o'.keys = storedOptions.keys.map (fun k => { k with keySignature := some {} }) := by
  have hdistinct : storedOptions.DistinctDigests := by
    intro p hp
    cases hp
    exact ⟨by decide, by simp⟩
  obtain ⟨o', hread, hpolicy, hkeys, _⟩ := ofText_text hdistinct
  exact ⟨hdistinct, o', hread, hpolicy, hkeys⟩

end Options

end BootGuard
