/-
  What stitching leaves as it is.

  `frame_of_stitch`: whatever the image and the payloads are, a byte that changes is in the new
  table, in what a payload takes the place of, or was free before. So what the governing boot
  policy manifest measures keeps its bytes, as long as it is apart from the first two.
-/
import BootGuard.Proofs.Fit.Manifests
import BootGuard.Proofs.Manifest.RoundTrip

namespace BootGuard.Fit

/-! ## The governing manifest -/

/-- The manifest `p` says what is measured in an image that payloads are stitched into: it is one
of them or else the one that the table refers to. -/
def Governs (p : BootPolicy) (image : Bytes) (payloads : Payloads) : Prop :=
  ∃ b, Manifest.ofBytes false b = .ok (.bootPolicy p) ∧
    if payloads.policy = [] then extract image typeBootPolicy = .ok b else payloads.policy = b

namespace Governs

variable {p : BootPolicy} {image : Bytes} {payloads : Payloads}

/-- What it measures is protected. -/
theorem governingRanges_eq {offset : Nat} {header : Entry} {es : List Entry}
    (h : Governs p image payloads) (htable : TableAt image offset header es) :
    governingRanges image es payloads.policy =
      segmentRanges image.length (p.bootBlocks.flatMap (·.segments)) := by
  obtain ⟨b, hread, h⟩ := h
  by_cases hpolicy : payloads.policy = []
  · rw [if_pos hpolicy] at h
    have hany : (es.any fun e => e.type = typeBootPolicy) = true := by
      rw [extract_of_tableAt htable, referred] at h
      rw [any_type_eq]
      cases hfirst : first? typeBootPolicy es with
      | none =>
        rw [hfirst] at h
        cases h
      | some e => rfl
    rw [governingRanges, hpolicy, if_neg (by decide), if_pos hany, h, ok_bind, measuredRanges,
      hread, ok_bind]
  · rw [if_neg hpolicy] at h
    exact Fit.governingRanges_eq hpolicy (h ▸ hread)

/-- A manifest that was read measures segments that start at addresses and have sizes. -/
theorem located (h : Governs p image payloads) :
    ∀ e ∈ p.bootBlocks, ∀ s ∈ e.segments, s.Located := by
  obtain ⟨b, hread, _⟩ := h
  exact BootPolicy.located_of_ofBytes (Manifest.ofBytes_eq_bootPolicy_iff.1 hread)

end Governs

/-! ## The frame -/

/-- A stitched image is as long as the one it was made from and has a table with as many entries
as were foreseen. It differs from it in the new table, in what the payloads take the place of,
and in bytes that were free. What the governing manifest measures is kept, if it is apart from
the table and from what is replaced. -/
theorem frame_of_stitch {image out : Bytes} {payloads : Payloads}
    (h : stitch image payloads = .ok out) :
    ∃ offset header es measured es' table, TableAt image offset header es ∧
      governingRanges image es payloads.policy = .ok measured ∧
      encodeTable header es' = .ok table ∧ (out.drop offset).take table.length = table ∧
      tableInterval offset es payloads.kinds = (offset, offset + (es'.length + 1) * entrySize) ∧
      out.length = image.length ∧
      (∀ i, out[i]? ≠ image[i]? → MayChange image offset es payloads measured i) ∧
      ∀ p, Governs p image payloads →
        (∀ r ∈ measured, Apart r (tableInterval offset es payloads.kinds)) →
        (∀ r ∈ measured, ∀ kind s, payloads.get kind ≠ [] → regionOf image es kind = some s →
          Apart r s) →
        ∀ e ∈ p.bootBlocks, e.content out = e.content image := by
  obtain ⟨offset, header, es, htable⟩ := exists_tableAt_of_stitch h
  obtain ⟨measured, w, table, hst⟩ := stitched_of_stitch htable h
  refine ⟨offset, header, es, measured, w.entries, table, htable, hst.ranges, hst.encode, ?_, ?_,
    hst.length_out, fun i hi => hst.mayChange hi, ?_⟩
  · rw [hst.out_eq, Bytes.slice_overwrite hst.table_le]
  · rw [tableInterval, hst.length_entries, Nat.add_right_comm]
  · intro p hp hapart hreplaced e he
    have hranges := hst.ranges
    rw [hp.governingRanges_eq htable] at hranges
    exact hst.content_out hranges he (hp.located e he) (fun r hr _ => hapart r hr)
      (fun r hr _ => hreplaced r hr)

/-! ## A key manifest that outgrows its place -/

/-- A boot policy manifest that measures 32 bytes in front of the pointer to the table. -/
def guardPolicy : BootPolicy where
  header := { nemPages := 1 }
  bootBlocks := [{ segments := [{ base := 0xFFFFFFA0, size := 0x20 }] }]
  signature := { keySignature := none }
  keySignatureOffset := 124

def guardBytes : Bytes := (BootPolicy.assemble.runOn guardPolicy).1.toOption.getD []

/-- An image of 0x200 bytes with a key manifest of 16 bytes at 0x30 and the boot policy manifest
behind it. All that follows is erased, the measured bytes at 0x1A0 as well. -/
def guardedImage : Bytes :=
  headText ++ Bytes.ofNatLe 4 3 ++ Bytes.ofNatLe 2 0x0100 ++ [0, 0] ++
  Bytes.ofNatLe 8 0xFFFFFE30 ++ Bytes.ofNatLe 4 0x10 ++ Bytes.ofNatLe 2 0x0100 ++ [0x0B, 0] ++
  Bytes.ofNatLe 8 0xFFFFFE40 ++ Bytes.ofNatLe 4 0x7C ++ Bytes.ofNatLe 2 0x0100 ++ [0x0C, 0] ++
  List.replicate 0x10 0x4B ++ guardBytes ++ Bytes.erased 0x104 ++
  Bytes.ofNatLe 8 0xFFFFFE00 ++ Bytes.zeros 0x38

def guardedEntries : List Entry :=
  [{ address := 0xFFFFFE30, size := 0x10, type := typeKeyManifest },
   { address := 0xFFFFFE40, size := 0x7C, type := typeBootPolicy }]

/-- A key manifest of 32 bytes, which has to move. -/
def guardedPayloads : Payloads := { keys := List.replicate 0x20 0x4B }

def guardedOut : Bytes := (stitch guardedImage guardedPayloads).toOption.getD []

theorem tableAt_guarded : ∃ header, TableAt guardedImage 0 header guardedEntries :=
  ⟨Entry.decode (guardedImage.take entrySize), eq_ok_of_toOption (by decide +kernel),
    eq_ok_of_toOption (by decide +kernel)⟩

theorem governs_guarded : Governs guardPolicy guardedImage guardedPayloads :=
  ⟨guardBytes, eq_ok_of_toOption (by decide +kernel), eq_ok_of_toOption (by decide +kernel)⟩

theorem governingRanges_guarded :
    governingRanges guardedImage guardedEntries [] = .ok [(0x1A0, 0x1C0)] :=
  eq_ok_of_toOption (by decide +kernel)

theorem regionOf_guarded :
    regionOf guardedImage guardedEntries .keyManifest = some (0x30, 0x40) := by decide +kernel

theorem stitch_guarded : stitch guardedImage guardedPayloads = .ok guardedOut :=
  eq_ok_of_toOption (by decide +kernel)

/-- The new key manifest stands where the image was erased, next to the measured bytes, which are
the same as before. -/
theorem frame_of_stitch_sample :
    guardedOut.length = guardedImage.length ∧ guardedOut[0x180]? ≠ guardedImage[0x180]? ∧
      MayChange guardedImage 0 guardedEntries guardedPayloads [(0x1A0, 0x1C0)] 0x180 ∧
      ∀ e ∈ guardPolicy.bootBlocks, e.content guardedOut = e.content guardedImage := by
  obtain ⟨header', htable'⟩ := tableAt_guarded
  obtain ⟨offset, header, es, measured, _, _, htable, hranges, _, _, _, hlen, hchange, hkept⟩ :=
    frame_of_stitch stitch_guarded
  obtain rfl : 0 = offset := Except.ok.inj (htable'.find.symm.trans htable.find)
  obtain ⟨rfl, rfl⟩ := List.cons.inj (Except.ok.inj (htable'.read.symm.trans htable.read))
  obtain rfl := Except.ok.inj (governingRanges_guarded.symm.trans hranges)
  have hmoved : guardedOut[0x180]? ≠ guardedImage[0x180]? := by decide +kernel
  refine ⟨hlen, hmoved, hchange _ hmoved, hkept _ governs_guarded ?_ ?_⟩
  · intro r hr
    obtain rfl := List.mem_singleton.1 hr
    exact (apart_of_le (by decide)).symm
  · intro r hr kind s hkind hs
    obtain rfl := List.mem_singleton.1 hr
    cases kind with
    | keyManifest =>
      obtain rfl := Option.some.inj (regionOf_guarded.symm.trans hs)
      exact (apart_of_le (by decide)).symm
    | _ => exact absurd rfl hkind

end BootGuard.Fit
