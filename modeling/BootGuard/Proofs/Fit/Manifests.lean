/-
  Stitching manifests into an image that has none.

  Both manifests can be extracted from the result as they are (`Vacant.stitched` with
  `Stitched.extract_of_absent`), and what the boot policy manifest measures has the same bytes
  as before, apart from the table (`Stitched.measuredIn_out`).
-/
import BootGuard.Proofs.Fit.Absent
import BootGuard.Proofs.Manifest.BootPolicy
import BootGuard.Proofs.Measure.Content

namespace BootGuard

namespace BootPolicy

/-- An encoded manifest measures segments that start at addresses and have sizes. -/
theorem located_of_assemble {p p' : BootPolicy} {b : Bytes}
    (h : assemble.runOn p = (.ok b, p')) : ∀ e ∈ p.bootBlocks, ∀ s ∈ e.segments, s.Located := by
  obtain ⟨_, middle, _, _, hmiddle, _⟩ := assemble_eq_ok_iff.1 h
  obtain ⟨blocks, _, hblocks, _, _⟩ := encodeMiddle_eq_ok_iff.1 hmiddle
  intro e he
  obtain ⟨x, hx⟩ := exists_encode_of_mem hblocks he
  exact BootBlock.located_of_encode hx

/-- So does a manifest that was read. -/
theorem located_of_ofBytes {strict : Bool} {b : Bytes} {p : BootPolicy}
    (h : ofBytes strict b = .ok p) : ∀ e ∈ p.bootBlocks, ∀ s ∈ e.segments, s.Located := by
  obtain ⟨_, b', hasm, _⟩ := assemble_of_ofBytes h
  exact located_of_assemble hasm

end BootPolicy

namespace Fit

/-! ## Digests in a stitched image -/

/-- A boot policy manifest that is stitched in says itself what is protected. -/
theorem governingRanges_of_ne_nil {image policy : Bytes} {es : List Entry} (hne : policy ≠ []) :
    governingRanges image es policy = measuredRanges policy image.length := by
  have hfull : (!policy.isEmpty) = true := by
    rw [Bool.not_eq_true', List.isEmpty_eq_false_iff]
    exact hne
  rw [governingRanges, if_pos hfull]

/-- The ranges that are protected are those of the boot policy manifest that is stitched in. -/
theorem governingRanges_eq {image policy : Bytes} {es : List Entry} {p : BootPolicy}
    (hne : policy ≠ []) (h : Manifest.ofBytes false policy = .ok (.bootPolicy p)) :
    governingRanges image es policy =
      segmentRanges image.length (p.bootBlocks.flatMap (·.segments)) := by
  rw [governingRanges_of_ne_nil hne, measuredRanges, h, ok_bind]

section Measured

variable {image out table : Bytes} {payloads : Payloads} {offset : Nat} {header : Entry}
  {es : List Entry} {measured : List (Nat × Nat)} {w : Workspace} {p : BootPolicy} {e : BootBlock}
  (h : Stitched image payloads out offset header es measured w table)
  (hmeasured : segmentRanges image.length (p.bootBlocks.flatMap (·.segments)) = .ok measured)
  (he : e ∈ p.bootBlocks) (hlocated : ∀ s ∈ e.segments, s.Located)
include h hmeasured he hlocated

/-- A boot block whose ranges are protected measures the same bytes in the result, where it
measures nothing of the table and of what the payloads take the place of. -/
theorem Stitched.content_out
    (htable : ∀ r ∈ measured, e.Measures image.length r →
      Apart r (tableInterval offset es payloads.kinds))
    (hreplaced : ∀ r ∈ measured, e.Measures image.length r → ∀ kind s, payloads.get kind ≠ [] →
      regionOf image es kind = some s → Apart r s) :
    e.content out = e.content image := by
  refine BootBlock.content_congr_of_ranges hmeasured he h.length_out hlocated fun r hr hm => ?_
  exact h.agree_measured hr (htable r hr hm) (hreplaced r hr hm)

/-- Where the payloads take the place of nothing the table is all there is to avoid. -/
theorem Stitched.measuredIn_out (habsent : Absent es payloads)
    (hapart : ∀ r, e.Measures image.length r → Apart r (tableInterval offset es payloads.kinds))
    (hin : e.MeasuredIn image) : e.MeasuredIn out := by
  refine hin.congr (h.content_out hmeasured he hlocated (fun r _ hr => hapart r hr) ?_)
  intro r _ _ kind s hkind hs
  rw [habsent.regionOf_eq_none hkind] at hs
  cases hs

end Measured

/-! ## Images without manifests -/

/-- The image has a table with room for two more entries in front of the pointer and in the
count, and with no entry for a manifest. -/
structure Vacant (image : Bytes) (offset : Nat) (header : Entry) (es : List Entry) : Prop
    extends TableAt image offset header es where
  no_keys : ∀ e ∈ header :: es, e.type ≠ typeKeyManifest
  no_policy : ∀ e ∈ header :: es, e.type ≠ typeBootPolicy
  end_le : offset + (header :: es).length * entrySize + pointerDistance ≤ image.length
  count : (header :: es).length < maxEntries - 2

/-- The payloads that two manifests are. -/
def manifestPayloads (policy keys : Bytes) : Payloads := { policy := policy, keys := keys }

theorem policy_manifestPayloads (policy keys : Bytes) :
    (manifestPayloads policy keys).policy = policy := rfl

theorem toList_manifestPayloads {policy keys : Bytes} (hpolicy : policy ≠ [])
    (hkeys : keys ≠ []) :
    (manifestPayloads policy keys).toList = [(.keyManifest, keys), (.bootPolicy, policy)] := by
  have hp : policy.isEmpty = false := List.isEmpty_eq_false_iff.2 hpolicy
  have hk : keys.isEmpty = false := List.isEmpty_eq_false_iff.2 hkeys
  rw [Payloads.toList, manifestPayloads]
  simp only [List.filter, hp, hk, List.isEmpty_nil, Bool.not_true, Bool.not_false]

theorem kinds_manifestPayloads {policy keys : Bytes} (hpolicy : policy ≠ []) (hkeys : keys ≠ []) :
    (manifestPayloads policy keys).kinds = [.keyManifest, .bootPolicy] := by
  rw [Payloads.kinds, toList_manifestPayloads hpolicy hkeys]
  rfl

theorem Vacant.absent {image policy keys : Bytes} {offset : Nat} {header : Entry}
    {es : List Entry} (h : Vacant image offset header es) :
    Absent es (manifestPayloads policy keys) := by
  have hnone : ∀ type, (∀ e ∈ header :: es, e.type ≠ type) → first? type es = none := by
    intro type htype
    refine List.find?_eq_none.2 fun e he => ?_
    rw [decide_eq_true_eq]
    exact htype e (List.mem_cons_of_mem _ he)
  intro kind hkind
  cases kind with
  | acm => exact absurd rfl hkind
  | keyManifest => exact hnone _ h.no_keys
  | bootPolicy => exact hnone _ h.no_policy

/-- Stitching two manifests into an image without any leaves a table that can be read. -/
theorem Vacant.stitched {image policy keys out : Bytes} {offset : Nat} {header : Entry}
    {es : List Entry} (h : Vacant image offset header es)
    (hpolicy : policy ≠ [] ∧ policy.length < 0x1000000)
    (hkeys : keys ≠ [] ∧ keys.length < 0x1000000)
    (hout : stitch image (manifestPayloads policy keys) = .ok out) :
    Stitchable image offset es (manifestPayloads policy keys) ∧
      es.length + 1 + growth es (manifestPayloads policy keys).kinds < maxEntries ∧
      ∃ measured w table, Stitched image (manifestPayloads policy keys) out offset header es
        measured w table := by
  obtain ⟨measured, w, table, hstitched⟩ := stitched_of_stitch h.toTableAt hout
  have hplace : ∀ kind, (manifestPayloads policy keys).get kind ≠ [] →
      Placeable kind ((manifestPayloads policy keys).get kind) := by
    intro kind hne
    cases kind with
    | acm => exact absurd rfl hne
    | keyManifest => exact ⟨hkeys.1, hkeys.2, fun h => by cases h⟩
    | bootPolicy => exact ⟨hpolicy.1, hpolicy.2, fun h => by cases h⟩
  refine ⟨h.absent.stitchable hplace (hstitched.end_le h.end_le), ?_,
    ⟨measured, w, table, hstitched⟩⟩
  have hgrowth := growth_le es (manifestPayloads policy keys).kinds
  have hcount := h.count
  rw [kinds_manifestPayloads hpolicy.1 hkeys.1] at hgrowth ⊢
  rw [List.length_cons] at hcount
  simp only [List.length_cons, List.length_nil] at hgrowth
  omega

end Fit

end BootGuard
