/-
  When everything can be extracted from a stitched image.

  A payload that is placed in place is not reserved, and neither is what an entry refers to
  that no payload replaces. So a payload that moves can be written into an erased stretch of
  either, and then that one cannot be extracted any more.
  `retrievable_iff` says exactly when all is well: the number of entries fits the header, and
  no step of the run disturbs what is to be kept; or, of the table of the result, the payloads
  spare it where they stand.
-/
import BootGuard.Proofs.Fit.Layout
import BootGuard.Proofs.Fit.Stitch

namespace BootGuard.Fit

/-- From the stitched image `out` every payload can be extracted, and otherwise what could be
extracted from the image that it was made from. -/
def Retrievable (image : Bytes) (payloads : Payloads) (out : Bytes) : Prop :=
  ∀ kind : PayloadKind,
    if payloads.get kind = [] then
      ∀ b, extract image kind.entryType = .ok b → extract out kind.entryType = .ok b
    else extract out kind.entryType = .ok (payloads.get kind)

/-- There is no payload of the kind, but its entry refers to something. -/
def Untouched (image : Bytes) (es : List Entry) (payloads : Payloads) (kind : PayloadKind) :
    Prop :=
  payloads.get kind = [] ∧ ∃ b, referred image es kind.entryType = .ok b

/-- Entries of as many different types as there are kinds are as many entries. -/
theorem length_le_of_first? {kinds : List PayloadKind} {es : List Entry} (hnodup : kinds.Nodup)
    (h : ∀ k ∈ kinds, first? k.entryType es ≠ none) : kinds.length ≤ es.length := by
  have hnodup' : (kinds.map PayloadKind.entryType).Nodup :=
    List.pairwise_map.2 (hnodup.imp fun hne heq => hne (entryType_injective heq))
  have hsub : kinds.map PayloadKind.entryType ⊆ es.map Entry.type := by
    intro t ht
    obtain ⟨k, hk, rfl⟩ := List.mem_map.1 ht
    obtain ⟨e, he⟩ := Option.ne_none_iff_exists'.1 (h k hk)
    exact List.mem_map.2 ⟨e, mem_of_first? he, type_of_first? he⟩
  have hle := hnodup'.length_le_of_subset hsub
  rwa [List.length_map, List.length_map] at hle

theorem Suitable.spread {image : Bytes} {payloads : Payloads} {offset : Nat} {es : List Entry}
    (hs : Suitable image offset es payloads) (measured : List (Nat × Nat)) :
    Workspace.Spread (Untouched image es payloads)
      (startWorkspace image offset es payloads.kinds measured) payloads.toList where
  live_ok := fun j hj => hj.2
  not_pending := by
    intro j hj x hx heq
    exact (Payloads.mem_toList_iff.1 hx).2 (heq ▸ hj.1)
  live_apart := by
    intro j hj r hr
    refine .inr fun x hx s hxs => ?_
    have hne : j ≠ x.1 := by
      intro heq
      exact (Payloads.mem_toList_iff.1 hx).2 (heq ▸ hj.1)
    exact hs.regions_apart j x.1 hne r s hr hxs
  pending_apart := by
    intro x _ y _ hne r s hr hys
    exact hs.regions_apart x.1 y.1 hne r s hr hys
  header := fun hj r hr => hs.header hj.1 r hr

namespace Stitched

variable {image out table : Bytes} {payloads : Payloads} {offset : Nat} {header : Entry}
  {es : List Entry} {measured : List (Nat × Nat)} {w : Workspace}
  (h : Stitched image payloads out offset header es measured w table)
  (hs : Suitable image offset es payloads)
include h hs

/-- A payload that was placed is extracted from the result exactly if the run kept it. -/
theorem referred_iff_of_placed {kind : PayloadKind} (hkind : payloads.get kind ≠ []) :
    referred out w.entries kind.entryType = .ok (payloads.get kind) ↔
      w.referred kind = .ok (payloads.get kind) := by
  have hmem : (kind, payloads.get kind) ∈ payloads.toList :=
    Payloads.mem_toList_iff.2 ⟨rfl, hkind⟩
  obtain ⟨o, ⟨e, hfirst, ho⟩, hapart⟩ := Workspace.placeAll_landing
    (Payloads.orderly hs.placeable)
    (valid_startWorkspace h.tableAt payloads.kinds measured) h.run List.mem_cons_self
    (fun x _ r hr => hs.table_apart x.1 r hr) _ hmem
  refine h.referred_iff_of_apart hs.toStitchable hfirst ho hapart ?_
  rintro rfl
  exact (acmSize_of_take ((hs.placeable _ hkind).acm rfl) rfl).1

/-- The same for what no payload replaced. -/
theorem referred_iff_of_untouched {kind : PayloadKind} (hkind : payloads.get kind = []) {b : Bytes}
    (hb : referred image es kind.entryType = .ok b) :
    referred out w.entries kind.entryType = .ok b ↔ w.referred kind = .ok b := by
  have hvalid := valid_startWorkspace h.tableAt payloads.kinds measured
  obtain ⟨e, r, he, hregion, hlt, hle, hslice⟩ :=
    (Fit.referred_eq_ok_iff fun e he => (hvalid e he).2).1 hb
  obtain ⟨o, size, ho, _, rfl⟩ := Entry.region_eq_ok_iff.1 hregion
  obtain ⟨hpos, _⟩ := offsetOf_bounds (hvalid e (mem_of_first? he)).2 ho
  have hr : regionOf image es kind = some (o.toNat, o.toNat + size) :=
    regionOf_eq_some_iff.2 ⟨e, he, hregion⟩
  dsimp only at hlt hle hslice
  have hsize : b.length = size := by
    rw [hslice, List.length_take, List.length_drop]
    omega
  have he' := (h.first_run hkind).trans he
  refine h.referred_iff_of_apart hs.toStitchable (o := o.toNat) he' ?_ ?_ ?_
  · rw [h.length_run, Int.toNat_of_nonneg hpos]
    exact ho
  · rw [hsize]
    exact hs.table_apart kind _ hr
  · rintro rfl
    have := hs.header hkind _ hr
    dsimp only at this
    omega

/-- Once the entries are found, all can be extracted exactly if the run kept it. -/
theorem retrievable_iff_kept {head : Entry} (hout : TableAt out offset head w.entries) :
    Retrievable image payloads out ↔ Workspace.Kept (Untouched image es payloads)
      (startWorkspace image offset es payloads.kinds measured) w payloads.toList := by
  have hstart : ∀ kind, (startWorkspace image offset es payloads.kinds measured).referred kind =
      referred image es kind.entryType := fun _ => rfl
  unfold Retrievable Workspace.Kept
  simp only [extract_of_tableAt hout, extract_of_tableAt h.tableAt, hstart]
  constructor
  · intro hall
    constructor
    · rintro j ⟨hj, b, hb⟩
      have := hall j
      rw [if_pos hj] at this
      rw [hb]
      exact (h.referred_iff_of_untouched hs hj hb).1 (this b hb)
    · intro x hx
      obtain ⟨heq, hne⟩ := Payloads.mem_toList_iff.1 hx
      have := hall x.1
      rw [if_neg hne] at this
      rw [heq]
      exact (h.referred_iff_of_placed hs hne).1 this
  · rintro ⟨hlive, hplaced⟩ kind
    by_cases hkind : payloads.get kind = []
    · rw [if_pos hkind]
      intro b hb
      exact (h.referred_iff_of_untouched hs hkind hb).2
        ((hlive kind ⟨hkind, b, hb⟩).trans hb)
    · rw [if_neg hkind]
      exact (h.referred_iff_of_placed hs hkind).2
        (hplaced (kind, payloads.get kind) (Payloads.mem_toList_iff.2 ⟨rfl, hkind⟩))

/-- If the number of entries does not fit the header, some payload cannot be extracted. -/
theorem count_lt_of_retrievable (hall : Retrievable image payloads out) :
    es.length + 1 + growth es payloads.kinds < maxEntries := by
  refine Nat.lt_of_not_le fun hle => ?_
  obtain ⟨hmax, _, hcount, _⟩ := h.tableAt.bounds
  obtain ⟨head, hread, hsize⟩ :=
    read_header_of_written hmax h.encode h.slice_out h.table_le_out
  have hfind := findTable_of_written h.tableAt h.length_out (h.agree_pointer hs.toStitchable)
    h.encode h.slice_out
  have hgrowth := growth_le es payloads.kinds
  have hextract : ∀ k ∈ payloads.kinds, extract out k.entryType = .ok (payloads.get k) := by
    intro k hk
    have := hall k
    rw [if_neg (Payloads.mem_kinds_iff.1 hk)] at this
    exact this
  cases hl : entriesAt out offset with
  | error e =>
    obtain ⟨k, hk⟩ := List.exists_mem_of_ne_nil _ h.ne_nil
    have hx := hextract k.1 (List.mem_map_of_mem hk)
    rw [extract_eq, entries, hfind, ok_bind, hl] at hx
    cases hx
  | ok l =>
    obtain ⟨head', hread', h0, _, hfront⟩ := entriesAt_eq_ok_iff.1 hl
    rw [hread] at hread'
    cases hread'
    have hl' := (frontEntries_eq_ok hfront).1
    have hkinds : payloads.kinds.length ≤ l.tail.length := by
      refine length_le_of_first? payloads.nodup_kinds fun k hk hnone => ?_
      have hx := hextract k hk
      rw [extract_eq, entries, hfind, ok_bind, hl, ok_bind, referred, hnone] at hx
      cases hx
    rw [List.length_tail, hl', hsize, h.length_entries, maxEntries] at hkinds
    rw [maxEntries] at hcount hle
    omega

end Stitched

/-- Everything can be extracted from a stitched image exactly if the number of its entries fits
the header and no step of the run disturbs what is to be kept. If the number fits, this is so
exactly if the payloads spare it at the places that the new table names. -/
theorem retrievable_iff {image out : Bytes} {payloads : Payloads} {offset : Nat} {header : Entry}
    {es : List Entry} {measured : List (Nat × Nat)} (htable : TableAt image offset header es)
    (hmeasured : governingRanges image es payloads.policy = .ok measured)
    (hsuitable : Suitable image offset es payloads) (hout : stitch image payloads = .ok out) :
    (Retrievable image payloads out ↔ es.length + 1 + growth es payloads.kinds < maxEntries ∧
      (startWorkspace image offset es payloads.kinds measured).Undisturbed
        (Untouched image es payloads) payloads.toList) ∧
    (es.length + 1 + growth es payloads.kinds < maxEntries → ∃ header' es',
      TableAt out offset header' es' ∧ (Retrievable image payloads out ↔
        Spared (Untouched image es payloads) image es es' payloads.toList)) := by
  obtain ⟨measured', w, table, h⟩ := stitched_of_stitch htable hout
  have hsame := h.ranges
  rw [hmeasured] at hsame
  cases hsame
  have horderly := Payloads.orderly hsuitable.placeable
  have hvalid := valid_startWorkspace htable payloads.kinds measured
  have hspread := hsuitable.spread measured
  have hkept := Workspace.undisturbed_iff_kept horderly hvalid hspread h.run
  have hspared := Workspace.undisturbed_iff_spared horderly hvalid hspread h.run
  constructor
  · rw [hkept]
    constructor
    · intro hall
      have hcount := h.count_lt_of_retrievable hsuitable hall
      obtain ⟨head, hhead⟩ := h.exists_tableAt hsuitable.toStitchable hcount
      exact ⟨hcount, (h.retrievable_iff_kept hsuitable hhead).1 hall⟩
    · intro hparts
      obtain ⟨hcount, hkept⟩ := hparts
      obtain ⟨head, hhead⟩ := h.exists_tableAt hsuitable.toStitchable hcount
      exact (h.retrievable_iff_kept hsuitable hhead).2 hkept
  · intro hcount
    obtain ⟨head, hhead⟩ := h.exists_tableAt hsuitable.toStitchable hcount
    exact ⟨head, w.entries, hhead,
      (h.retrievable_iff_kept hsuitable hhead).trans (hkept.symm.trans hspared)⟩

/-! ## A key manifest next to a module -/

/-- An image with a module of 64 bytes at 0x40, of which the last 36 are erased, and a table with
an entry for it. The bytes between the module and the pointer are all `filler`. -/
def sampleImage (filler : UInt8) : Bytes :=
  headText ++ Bytes.ofNatLe 4 2 ++ Bytes.ofNatLe 2 0x0100 ++ [0, 0] ++
  Bytes.ofNatLe 8 0xFFFFFF40 ++ Bytes.zeros 4 ++ Bytes.ofNatLe 2 0x0100 ++ [2, 0] ++
  Bytes.erased 0x20 ++
  ([2, 0] ++ Bytes.zeros 14 ++ [0x86, 0x80, 0, 0] ++ Bytes.zeros 4 ++ [0x10, 0, 0, 0]) ++
  Bytes.erased 0x24 ++ List.replicate 0x40 filler ++
  Bytes.ofNatLe 8 0xFFFFFF00 ++ Bytes.zeros 0x38

/-- A key manifest of 16 bytes, for which there is no entry yet. -/
def samplePayloads : Payloads := { keys := List.replicate 0x10 0x4B }

def sampleModule : Entry := { address := 0xFFFFFF40, type := typeStartupAcm }

/-- The entry for the key manifest once it stands at `address`. -/
def sampleEntry (address : Int) : Entry :=
  { address := address, size := 0x10, type := typeKeyManifest }

def sampleOut (filler : UInt8) : Bytes :=
  (stitch (sampleImage filler) samplePayloads).toOption.getD []

section Sample

variable {filler : UInt8} (h : filler = 0 ∨ filler = 0xFF)
include h

theorem tableAt_sample : ∃ header, TableAt (sampleImage filler) 0 header [sampleModule] := by
  refine ⟨Entry.decode ((sampleImage filler).take entrySize), eq_ok_of_toOption ?_,
    eq_ok_of_toOption ?_⟩
  · obtain rfl | rfl := h <;> decide +kernel
  · obtain rfl | rfl := h <;> decide +kernel

theorem regionOf_sample {kind : PayloadKind} {r : Nat × Nat}
    (hr : regionOf (sampleImage filler) [sampleModule] kind = some r) :
    kind = .acm ∧ r = (0x40, 0x80) := by
  cases kind with
  | acm =>
    have hacm : regionOf (sampleImage filler) [sampleModule] .acm = some (0x40, 0x80) := by
      obtain rfl | rfl := h <;> decide +kernel
    rw [hacm] at hr
    exact ⟨rfl, (Option.some.inj hr).symm⟩
  | keyManifest => cases hr
  | bootPolicy => cases hr

theorem suitable_sample : Suitable (sampleImage filler) 0 [sampleModule] samplePayloads := by
  have hlen : (sampleImage filler).length = 0x100 := by
    simp only [sampleImage, headText, List.length_append, Bytes.length_ofNatLe,
      Bytes.length_erased, Bytes.zeros, List.length_replicate, List.length_cons, List.length_nil]
  refine ⟨⟨?_, ?_, ?_⟩, ?_, ?_, ?_⟩
  · intro kind hkind
    cases kind with
    | keyManifest => exact ⟨by decide, by decide, by simp⟩
    | _ => exact absurd rfl hkind
  · intro kind _ r hr
    obtain ⟨_, rfl⟩ := regionOf_sample h hr
    rw [hlen]
    exact apart_of_le (by decide)
  · rw [hlen]
    exact apart_of_le (by decide)
  · intro j k hjk r s hr hs
    obtain ⟨rfl, _⟩ := regionOf_sample h hr
    obtain ⟨rfl, _⟩ := regionOf_sample h hs
    exact absurd rfl hjk
  · intro kind r hr
    obtain ⟨_, rfl⟩ := regionOf_sample h hr
    exact (apart_of_le (by decide)).symm
  · intro _ r hr
    obtain ⟨_, rfl⟩ := regionOf_sample h hr
    decide

theorem stitch_sample : stitch (sampleImage filler) samplePayloads = .ok (sampleOut filler) := by
  refine eq_ok_of_toOption ?_
  obtain rfl | rfl := h <;> decide +kernel

end Sample

/-- If nothing but the end of the module is erased, the key manifest is written into it, at 0x70,
and the module is lost; if there is room elsewhere, all is well. -/
theorem retrievable_iff_sample :
    (¬ Retrievable (sampleImage 0) samplePayloads (sampleOut 0) ∧
      (¬ (startWorkspace (sampleImage 0) 0 [sampleModule] [.keyManifest] []).Undisturbed
        (Untouched (sampleImage 0) [sampleModule] samplePayloads) samplePayloads.toList) ∧
      ¬ Spared (Untouched (sampleImage 0) [sampleModule] samplePayloads) (sampleImage 0)
        [sampleModule] [sampleModule, sampleEntry 0xFFFFFF70] samplePayloads.toList) ∧
    Retrievable (sampleImage 0xFF) samplePayloads (sampleOut 0xFF) ∧
      (startWorkspace (sampleImage 0xFF) 0 [sampleModule] [.keyManifest] []).Undisturbed
        (Untouched (sampleImage 0xFF) [sampleModule] samplePayloads) samplePayloads.toList ∧
      Spared (Untouched (sampleImage 0xFF) [sampleModule] samplePayloads) (sampleImage 0xFF)
        [sampleModule] [sampleModule, sampleEntry 0xFFFFFFB0] samplePayloads.toList := by
  have hcount : [sampleModule].length + 1 + growth [sampleModule] [.keyManifest] < maxEntries := by
    decide
  constructor
  · obtain ⟨header, htable⟩ := tableAt_sample (.inl rfl)
    obtain ⟨hiff, hspared⟩ :=
      retrievable_iff htable rfl (suitable_sample (.inl rfl)) (stitch_sample (.inl rfl))
    obtain ⟨head, es, hhead, hspared⟩ := hspared hcount
    have hread : (entriesAt (sampleOut 0) (0 : Nat)).toOption.map List.tail =
        some [sampleModule, sampleEntry 0xFFFFFF70] := by decide +kernel
    rw [hhead.read] at hread
    cases hread
    have hlost : ¬ Retrievable (sampleImage 0) samplePayloads (sampleOut 0) := by
      intro hall
      have hacm : (extract (sampleImage 0) PayloadKind.acm.entryType).toOption =
          some (((sampleImage 0).drop 0x40).take 0x40) := by decide +kernel
      have hkept := hall .acm _ (eq_ok_of_toOption hacm)
      have hout : (extract (sampleOut 0) PayloadKind.acm.entryType).toOption ≠
          some (((sampleImage 0).drop 0x40).take 0x40) := by decide +kernel
      exact hout (by rw [hkept]; rfl)
    exact ⟨hlost, fun hund => hlost (hiff.2 ⟨hcount, hund⟩),
      fun hall => hlost (hspared.2 hall)⟩
  · obtain ⟨header, htable⟩ := tableAt_sample (.inr rfl)
    obtain ⟨hiff, hspared⟩ :=
      retrievable_iff htable rfl (suitable_sample (.inr rfl)) (stitch_sample (.inr rfl))
    obtain ⟨head, es, hhead, hspared⟩ := hspared hcount
    have hread : (entriesAt (sampleOut 0xFF) (0 : Nat)).toOption.map List.tail =
        some [sampleModule, sampleEntry 0xFFFFFFB0] := by decide +kernel
    rw [hhead.read] at hread
    cases hread
    have hall : Retrievable (sampleImage 0xFF) samplePayloads (sampleOut 0xFF) := by
      intro kind
      cases kind with
      | acm =>
        intro b hb
        have hacm : (extract (sampleOut 0xFF) PayloadKind.acm.entryType).toOption =
            (extract (sampleImage 0xFF) PayloadKind.acm.entryType).toOption := by decide +kernel
        exact eq_ok_of_toOption (by rw [hacm, hb]; rfl)
      | keyManifest => exact eq_ok_of_toOption (by decide +kernel)
      | bootPolicy =>
        intro b hb
        have hnone :
            (extract (sampleImage 0xFF) PayloadKind.bootPolicy.entryType).toOption = none := by
          decide +kernel
        rw [hb] at hnone
        cases hnone
    exact ⟨hall, (hiff.1 hall).2, hspared.1 hall⟩

end BootGuard.Fit
