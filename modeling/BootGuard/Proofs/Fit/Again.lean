/-
  Stitching the same payloads again.

  Once the entries of an image refer to the payloads, every payload is placed where it stands:
  the bytes written are those that are there, and the entry keeps its size
  (`Workspace.place_eq_self`). So a run changes nothing, the table is written over itself, and
  only the ranges that the governing manifest measures can still be refused
  (`Stitched.stitch_out_eq`).
-/
import BootGuard.Proofs.Fit.Frame

namespace BootGuard.Fit

namespace Workspace

variable {w : Workspace} {kind : PayloadKind} {payload : Bytes}

/-- A payload that stands where its entry refers to is placed without any change. -/
theorem place_eq_self (hw : w.Valid) (h : w.referred kind = .ok payload) :
    w.place kind payload = .ok w := by
  obtain ⟨e, r, hfirst, hregion, _, hle, hslice⟩ :=
    (Fit.referred_eq_ok_iff fun e he => (hw e he).2).1 h
  obtain ⟨offset, size, hoff, hsize, rfl⟩ := Entry.region_eq_ok_iff.1 hregion
  obtain ⟨hfits, haddr⟩ := hw e (mem_of_first? hfirst)
  obtain ⟨hpos, _⟩ := offsetOf_bounds haddr hoff
  dsimp only at hle hslice
  rw [Nat.add_sub_cancel_left] at hslice
  have hlen : payload.length = size := by
    rw [hslice, List.length_take, List.length_drop]
    omega
  have himage : w.image.overwrite offset.toNat (payload ++ Bytes.erased (size - payload.length)) =
      w.image := by
    rw [hlen, Nat.sub_self, Bytes.erased, List.replicate_zero, List.append_nil]
    refine Bytes.overwrite_eq_self ?_
    rw [hlen, hslice]
  have hentry : (if kind = .acm then e else { e with size := payload.length }) = e := by
    split
    · rfl
    · rename_i hacm
      -- The entry of another payload states the size of what it refers to.
      have hne : e.type ≠ typeStartupAcm := by
        rw [type_of_first? hfirst]
        exact fun ht => hacm (entryType_injective (k := .acm) ht)
      unfold regionSize at hsize
      rw [if_neg hne] at hsize
      cases hsize
      rw [hlen, Int.toNat_of_nonneg hfits.1.1]
  rw [place_of_fit hfirst hoff hsize (by omega) (Nat.le_of_eq hlen), himage,
    updateFirst_eq_self hfirst hentry]

/-- A run over payloads that stand where their entries refer to changes nothing. -/
theorem placeAll_eq_self {list : List (PayloadKind × Bytes)} (hw : w.Valid)
    (h : ∀ x ∈ list, w.referred x.1 = .ok x.2) : w.placeAll list = .ok w := by
  induction list with
  | nil => rfl
  | cons x list ih =>
    obtain ⟨hx, hlist⟩ := List.forall_mem_cons.1 h
    obtain ⟨kind, payload⟩ := x
    exact placeAll_cons_eq_ok_iff.2 ⟨w, place_eq_self hw hx, ih hlist⟩

end Workspace

/-- An image that the payloads stand in and whose table is up to date stays what it is, unless the
governing manifest is refused. -/
theorem stitch_of_referred {image table : Bytes} {payloads : Payloads} {offset : Nat}
    {header : Entry} {es : List Entry} (htable : TableAt image offset header es)
    (hne : payloads.toList ≠ []) (henc : encodeTable header es = .ok table)
    (hslice : (image.drop offset).take table.length = table)
    (hreferred : ∀ kind, payloads.get kind ≠ [] →
      referred image es kind.entryType = .ok (payloads.get kind)) :
    stitch image payloads =
      (governingRanges image es payloads.policy).map fun _ => image := by
  have hgrowth : growth es payloads.kinds = 0 := by
    refine growth_eq_zero fun k hk hnone => ?_
    have hk' := hreferred k (Payloads.mem_kinds_iff.1 hk)
    rw [referred, hnone] at hk'
    cases hk'
  have hrun : ∀ measured,
      (startWorkspace image offset es payloads.kinds measured).placeAll payloads.toList =
        .ok (startWorkspace image offset es payloads.kinds measured) := by
    refine fun measured => Workspace.placeAll_eq_self (valid_startWorkspace htable _ _) ?_
    intro x hx
    obtain ⟨heq, hkind⟩ := Payloads.mem_toList_iff.1 hx
    rw [heq]
    exact hreferred x.1 hkind
  rw [stitch_eq htable hne, hgrowth, tableEnd_zero, ok_bind]
  cases governingRanges image es payloads.policy with
  | error e => rfl
  | ok measured =>
    rw [ok_bind, hrun, ok_bind]
    dsimp only [startWorkspace]
    rw [henc, ok_bind, Bytes.overwrite_eq_self hslice]
    rfl

namespace Stitched

variable {image out table : Bytes} {payloads : Payloads} {offset : Nat} {header : Entry}
  {es : List Entry} {measured : List (Nat × Nat)} {w : Workspace}
  (h : Stitched image payloads out offset header es measured w table)
include h

/-- The measured ranges of a manifest that is stitched in do not depend on the image. -/
theorem ranges_out (hpolicy : payloads.policy ≠ []) (es' : List Entry) :
    governingRanges out es' payloads.policy = .ok measured := by
  have hranges := h.ranges
  rw [governingRanges_of_ne_nil hpolicy] at hranges ⊢
  rw [h.length_out]
  exact hranges

/-- A result that the payloads can be extracted from is what stitching them again leaves, unless
the governing manifest is refused. -/
theorem stitch_out_eq (hcount : es.length + 1 + growth es payloads.kinds < maxEntries)
    (hfind : findTable out = .ok offset)
    (hextract : ∀ kind, payloads.get kind ≠ [] →
      extract out kind.entryType = .ok (payloads.get kind)) :
    stitch out payloads =
      (governingRanges out (w.entries.map Entry.cut) payloads.policy).map fun _ => out := by
  obtain ⟨c, hentries, _⟩ := h.entriesAt_out hcount
  have htable : TableAt out offset _ (w.entries.map Entry.cut) := ⟨hfind, hentries⟩
  -- The number of entries and the checksum that were written are computed once more.
  have henc := (encodeTable_cut header (w.entries.length + 1) c w.entries).trans h.encode
  refine stitch_of_referred htable h.ne_nil henc h.slice_out fun kind hkind => ?_
  rw [← extract_of_tableAt htable]
  exact hextract kind hkind

end Stitched

/-- Stitching the same payloads again changes nothing: once all of them can be extracted from the
result, where the table is where it was, a second run yields the same image. It does not fail
if the governing manifest is one of the payloads. -/
theorem stitch_again {image out : Bytes} {payloads : Payloads} {offset : Nat} {header : Entry}
    {es : List Entry} (htable : TableAt image offset header es)
    (h : stitch image payloads = .ok out)
    (hcount : es.length + 1 + growth es payloads.kinds < maxEntries)
    (hfind : findTable out = findTable image)
    (hextract : ∀ kind, payloads.get kind ≠ [] →
      extract out kind.entryType = .ok (payloads.get kind)) :
    (∀ out', stitch out payloads = .ok out' → out' = out) ∧
      (payloads.policy ≠ [] → stitch out payloads = .ok out) := by
  obtain ⟨measured, w, table, hst⟩ := stitched_of_stitch htable h
  have hout := hst.stitch_out_eq hcount (hfind.trans htable.find) hextract
  constructor
  · intro out' hout'
    rw [hout] at hout'
    cases hranges : governingRanges out (w.entries.map Entry.cut) payloads.policy with
    | error e =>
      rw [hranges] at hout'
      cases hout'
    | ok measured =>
      rw [hranges] at hout'
      exact (Except.ok.inj hout').symm
  · intro hpolicy
    rw [hout, hst.ranges_out hpolicy]
    rfl

/-! ## A key manifest that has moved -/

/-- The key manifest that has to move and the boot policy manifest that stays where it is. -/
def guardedBoth : Payloads := { keys := List.replicate 0x20 0x4B, policy := guardBytes }

def guardedBothOut : Bytes := (stitch guardedImage guardedBoth).toOption.getD []

theorem stitch_guardedBoth : stitch guardedImage guardedBoth = .ok guardedBothOut :=
  eq_ok_of_toOption (by decide +kernel)

/-- The key manifest does not move a second time. -/
theorem stitch_again_sample : guardedBothOut ≠ guardedImage ∧
    stitch guardedBothOut guardedBoth = .ok guardedBothOut := by
  obtain ⟨header, htable⟩ := tableAt_guarded
  have hfind : findTable guardedBothOut = .ok 0 := eq_ok_of_toOption (by decide +kernel)
  refine ⟨by decide +kernel, (stitch_again htable stitch_guardedBoth (by decide +kernel)
    (hfind.trans htable.find.symm) ?_).2 (by decide +kernel)⟩
  intro kind hkind
  cases kind with
  | acm => exact absurd rfl hkind
  | keyManifest => exact eq_ok_of_toOption (by decide +kernel)
  | bootPolicy => exact eq_ok_of_toOption (by decide +kernel)

end BootGuard.Fit
