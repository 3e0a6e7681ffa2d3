/-
  The order in which the elements of a boot policy manifest are given.

  Whatever the order is, the boot blocks come first and keep theirs, then the settings and the
  signature element (`InOrder`). The parts of a manifest depend on the records of one type
  alone, so `encodeParts_eq_ok_iff` has no more of the list in it than what is left of it for
  each type, and this is the same for the settings and for the signature element in whatever
  order they come, as there is at most one. Records that do not make up a manifest
  (`MakeUpPolicy`) are refused wherever in the list the fault is (`build_eq_error`).
-/
import BootGuard.Proofs.Manifest.Building

namespace BootGuard

/-- What a list of at most one item leaves is the same behind every permutation. -/
theorem filterMap_eq_of_perm {α β : Type} {f : α → Option β} {as as' : List α}
    (hperm : as.Perm as') (hle : (as.filterMap f).length ≤ 1) :
    as.filterMap f = as'.filterMap f := by
  have h := hperm.filterMap f
  obtain ⟨o, ho⟩ := exists_toList_of_length_le hle
  rw [← ho] at h ⊢
  cases o with
  | none => exact h.nil_eq
  | some x => exact h.singleton_eq

namespace BootPolicy

/-! ## Records that make up a manifest -/

/-- The records are of types that stand behind a header, with settings at most once and one
signature element. -/
structure MakeUpPolicy (records : List Record) : Prop where
  belong : ∀ r ∈ records, r.BelongsInPolicy
  settings_le : (records.filterMap Record.settings?).length ≤ 1
  signature_eq : (records.filterMap Record.signature?).length = 1

theorem makeUpPolicy_iff_of_perm {records records' : List Record} (h : records.Perm records') :
    MakeUpPolicy records ↔ MakeUpPolicy records' := by
  have himp {rs rs' : List Record} (h : rs.Perm rs') (hm : MakeUpPolicy rs) :
      MakeUpPolicy rs' := by
    refine ⟨fun r hr => hm.belong r (h.mem_iff.2 hr), ?_, ?_⟩
    · rw [← (h.filterMap _).length_eq]
      exact hm.settings_le
    · rw [← (h.filterMap _).length_eq]
      exact hm.signature_eq
  exact ⟨himp h, himp h.symm⟩

theorem exists_build_iff {header : PolicyHeader} {offset : UInt16} {records : List Record} :
    (∃ p, build header offset records = .ok p) ↔ MakeUpPolicy records := by
  constructor
  · intro h
    obtain ⟨p, hp⟩ := h
    obtain ⟨hbelong, _, hs, hg, _⟩ := build_eq_ok_iff.1 hp
    refine ⟨hbelong, ?_, ?_⟩
    · rw [hs]
      exact Option.length_toList_le
    · rw [hg, List.length_singleton]
  · intro h
    obtain ⟨settings, hs⟩ := exists_toList_of_length_le h.settings_le
    obtain ⟨signature, hg⟩ := List.length_eq_one_iff.1 h.signature_eq
    exact ⟨⟨header, records.filterMap Record.block?, settings, signature, offset⟩,
      build_eq_ok_iff.2 ⟨h.belong, rfl, hs.symm, hg, rfl, rfl⟩⟩

theorem Parts.add_eq_error {parts : Parts} {r : Record} {e : Error} (h : parts.add r = .error e) :
    ∃ cause, e = .invalidManifest cause := by
  unfold add at h
  split at h
  · cases h
  · split at h
    · cases h
      exact ⟨_, rfl⟩
    · cases h
  · split at h
    · cases h
      exact ⟨_, rfl⟩
    · cases h
  · cases h
    exact ⟨_, rfl⟩

theorem Parts.foldlM_add_eq_error {records : List Record} {parts : Parts} {e : Error}
    (h : records.foldlM Parts.add parts = .error e) : ∃ cause, e = .invalidManifest cause := by
  induction records generalizing parts with
  | nil => cases h
  | cons r rs ih =>
    rw [List.foldlM_cons] at h
    obtain h | ⟨parts', _, h⟩ := bind_eq_error_iff.1 h
    · exact add_eq_error h
    · exact ih h

theorem build_eq_error (header : PolicyHeader) (offset : UInt16) {records : List Record}
    (h : ¬ MakeUpPolicy records) :
    ∃ cause, build header offset records = .error (.invalidManifest cause) := by
  cases hb : build header offset records with
  | ok p => exact absurd (exists_build_iff.1 ⟨p, hb⟩) h
  | error e =>
    obtain hfold | ⟨parts, _, hsig⟩ := bind_eq_error_iff.1 hb
    · obtain ⟨cause, rfl⟩ := Parts.foldlM_add_eq_error hfold
      exact ⟨cause, rfl⟩
    · split at hsig
      · cases hsig
        exact ⟨_, rfl⟩
      · cases hsig

/-! ## The order of the encoding -/

/-- The bytes are the encodings of the header, of the boot blocks in the order of the records, of
the settings and of the signature element. -/
def InOrder (header : PolicyHeader) (records : List Record) (b : Bytes) : Prop :=
  ∃ head blocks settings signature,
    encodeItems BootBlock.encode (records.filterMap Record.block?) = .ok blocks ∧
    encodeItems TrustedBoot.encode (records.filterMap Record.settings?) = .ok settings ∧
    encodeItems SignatureElement.encode (records.filterMap Record.signature?) = .ok signature ∧
    offsetAfter (blocks ++ settings).length ≤ Frame.maxSize ∧
    header.encode (UInt16.ofNat (offsetAfter (blocks ++ settings).length)) = .ok head ∧
    b = head ++ blocks ++ settings ++ signature

theorem assemble_eq_ok_iff_inOrder {header : PolicyHeader} {offset : UInt16}
    {records : List Record} {p : BootPolicy} {b : Bytes}
    (hp : build header offset records = .ok p) :
    (assemble.runOn p).1 = .ok b ↔ p.validate = .ok () ∧ InOrder header records b := by
  obtain ⟨_, hblocks, hsettings, hsignature, rfl, rfl⟩ := build_eq_ok_iff.1 hp
  unfold InOrder
  rw [hblocks, hsettings, hsignature, ← encodeSettings_eq, encodeItems_singleton]
  constructor
  · intro h
    obtain ⟨hv, middle, head, signature, hm, hh, hs, hle, rfl, hp'⟩ :=
      assemble_eq_ok_iff.1 (Update.runOn_of_fst_eq_ok h)
    obtain ⟨blocks, settings, hb, ht, rfl⟩ := encodeMiddle_eq_ok_iff.1 hm
    rw [hp'] at hh
    refine ⟨hv, head, blocks, settings, signature, hb, ht, hs, hle, hh, ?_⟩
    rw [← List.append_assoc head]
  · intro h
    obtain ⟨hv, head, blocks, settings, signature, hb, ht, hs, hle, hh, rfl⟩ := h
    have hm := encodeMiddle_eq_ok_iff.2 ⟨blocks, settings, hb, ht, rfl⟩
    have hasm : assemble.runOn p = (.ok (head ++ (blocks ++ settings) ++ signature),
        { p with
          keySignatureOffset := UInt16.ofNat (offsetAfter (blocks ++ settings).length) }) := by
      rw [assemble_eq_ok_iff]
      exact ⟨hv, blocks ++ settings, head, signature, hm, hh, hs, hle, rfl, rfl⟩
    rw [hasm, ← List.append_assoc head]

end BootPolicy

namespace Manifest

open BootPolicy

/-- Records are assembled behind a header exactly if they make up a manifest, this obeys the
structural rules, and its parts can be encoded. -/
theorem encodeParts_eq_ok_iff {header : PolicyHeader} {offset : UInt16} {records : List Record}
    {b : Bytes} : encodeParts (.element (.policyHeader header offset)) records = .ok b ↔
      MakeUpPolicy records ∧
      ({ header := header, bootBlocks := records.filterMap Record.block? } :
        BootPolicy).validate = .ok () ∧ InOrder header records b := by
  have hvalid {p : BootPolicy} (hp : build header offset records = .ok p) :
      ({ header := header, bootBlocks := records.filterMap Record.block? } :
        BootPolicy).validate = p.validate := by
    obtain ⟨_, hblocks, _, _, hheader, _⟩ := build_eq_ok_iff.1 hp
    rw [BootPolicy.validate, BootPolicy.validate, hheader, hblocks]
  rw [encodeParts, bind_eq_ok_iff]
  constructor
  · intro h
    obtain ⟨p, hp, hb⟩ := h
    rw [hvalid hp]
    exact ⟨exists_build_iff.1 ⟨p, hp⟩, (assemble_eq_ok_iff_inOrder hp).1 hb⟩
  · intro h
    obtain ⟨hmake, hb⟩ := h
    obtain ⟨p, hp⟩ := exists_build_iff.2 hmake
    rw [hvalid hp] at hb
    exact ⟨p, hp, (assemble_eq_ok_iff_inOrder hp).2 hb⟩

/-- The order in which elements are given does not show in what is assembled from them, as long as
the boot blocks keep theirs, and neither does the offset that the header has been left with. The
bytes are those of the header, of the boot blocks as they come, of the settings and of the
signature element. A second element of either of these types, a missing signature element or a
record of another type is refused wherever it is in the list. -/
theorem encodeParts_perm (header : PolicyHeader) (offset offset' : UInt16)
    {records records' : List Record} (hperm : records.Perm records')
    (hblocks : records.filterMap Record.block? = records'.filterMap Record.block?) :
    (∀ b, encodeParts (.element (.policyHeader header offset)) records = .ok b ↔
      encodeParts (.element (.policyHeader header offset')) records' = .ok b) ∧
    (∀ b, encodeParts (.element (.policyHeader header offset)) records = .ok b →
      InOrder header records b) ∧
    (1 < (records.filterMap Record.settings?).length ∨
        (records.filterMap Record.signature?).length ≠ 1 ∨
        (∃ r ∈ records, ¬ r.BelongsInPolicy) →
      ∃ cause, encodeParts (.element (.policyHeader header offset)) records =
        .error (.invalidManifest cause)) := by
  refine ⟨fun b => ?_, fun b h => (encodeParts_eq_ok_iff.1 h).2.2, fun hfault => ?_⟩
  · rw [encodeParts_eq_ok_iff, encodeParts_eq_ok_iff, ← makeUpPolicy_iff_of_perm hperm, ← hblocks]
    refine and_congr_right fun hmake => and_congr_right fun _ => ?_
    unfold InOrder
    rw [← hblocks, ← filterMap_eq_of_perm hperm hmake.settings_le,
      ← filterMap_eq_of_perm hperm (Nat.le_of_eq hmake.signature_eq)]
  · have hmake : ¬ MakeUpPolicy records := by
      intro hmake
      obtain hs | hg | ⟨r, hr, hforeign⟩ := hfault
      · exact absurd hmake.settings_le (Nat.not_le.2 hs)
      · exact hg hmake.signature_eq
      · exact hforeign (hmake.belong r hr)
    obtain ⟨cause, hcause⟩ := build_eq_error header offset hmake
    refine ⟨cause, ?_⟩
    rw [encodeParts, hcause, error_bind]

/-- Two boot blocks between which a signature element and settings stand. -/
def sampleRecords : List Record :=
  [.element (.signature {}), .element (.bootBlock { segments := [{}] }),
    .element (.trustedBoot {}), .element (.bootBlock { setType := 1, segments := [{}] })]

/-- The sample is assembled as in canonical order; with settings once more at its end and a
digest in front it is refused. -/
theorem encodeParts_perm_sample :
    (∃ b, encodeParts (.element (.policyHeader { nemPages := 1 } 0)) sampleRecords = .ok b ∧
      encodeParts (.element (.policyHeader { nemPages := 1 } 7))
        [.element (.bootBlock { segments := [{}] }),
          .element (.bootBlock { setType := 1, segments := [{}] }),
          .element (.trustedBoot {}), .element (.signature {})] = .ok b ∧
      InOrder { nemPages := 1 } sampleRecords b) ∧
    ∃ cause, encodeParts (.element (.policyHeader { nemPages := 1 } 0))
      (.digest {} :: sampleRecords ++ [.element (.trustedBoot {})]) =
        .error (.invalidManifest cause) := by
  constructor
  · have hb : encodeParts (.element (.policyHeader { nemPages := 1 } 0)) sampleRecords = .ok _ :=
      eq_ok_of_isOk [] (by decide +kernel)
    have hperm : sampleRecords.Perm
        [.element (.bootBlock { segments := [{}] }),
          .element (.bootBlock { setType := 1, segments := [{}] }),
          .element (.trustedBoot {}), .element (.signature {})] := by decide
    obtain ⟨hiff, horder, _⟩ := encodeParts_perm { nemPages := 1 } 0 7 hperm rfl
    exact ⟨_, hb, (hiff _).1 hb, horder _ hb⟩
  · exact (encodeParts_perm _ 0 0 (List.Perm.refl _) rfl).2.2 (.inl (by decide))

end Manifest

end BootGuard
