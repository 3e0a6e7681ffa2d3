/-
  Nothing of a replaced manifest is left, and nothing depends on it.

  Two images that differ only in the region of the manifest to be replaced have the same table
  (`TableAt.congr`) and the same protected ranges (`governingRanges_congr`). The placement
  overwrites all of the region, with the payload and erased bytes or with erased bytes alone,
  before anything is read from the image again: behind that there is one image, not two
  (`Workspace.place_congr`), and so both runs end in the same way, be it in an error.
-/
import BootGuard.Proofs.Fit.Frame
import BootGuard.Proofs.Fit.Reading

namespace BootGuard

namespace Fit

/-! ## What is read from the image -/

theorem slots_congr {image image' : Bytes} {offset count : Nat}
    (h : Bytes.Agree image' image (offset, offset + count * entrySize)) :
    slots image' offset count = slots image offset count := by
  refine List.map_congr_left fun i hi => ?_
  have hslot : (i + 1) * entrySize ≤ count * entrySize :=
    Nat.mul_le_mul_right _ (List.mem_range.1 hi)
  rw [Nat.succ_mul] at hslot
  rw [h.slice_eq_of_le (Nat.le_add_right _ _) (by dsimp only; omega)]

/-- An image has the table of another that agrees with it there and in the pointer. -/
theorem TableAt.congr {image image' : Bytes} {offset : Nat} {header : Entry} {es : List Entry}
    (h : TableAt image offset header es) (hlen : image'.length = image.length)
    (hpointer : Bytes.Agree image' image (pointerInterval image.length))
    (htable : Bytes.Agree image' image (offset, offset + (es.length + 1) * entrySize)) :
    TableAt image' offset header es := by
  have hfront {n : Nat} (hn : n ≤ entrySize) :
      (image'.drop offset).take n = (image.drop offset).take n := by
    refine htable.slice_eq_of_le (Nat.le_refl _) ?_
    rw [Nat.succ_mul]
    dsimp only
    omega
  obtain ⟨_, htext⟩ := findTable_eq_ok h.find
  refine ⟨findTable_congr h.find hlen hpointer ?_, ?_⟩
  · rw [hfront (by decide)]
    exact htext
  · obtain ⟨header', hread, h0, hle, hentries⟩ := entriesAt_eq_ok_iff.1 h.read
    have hcount := (frontEntries_eq_ok hentries).1
    rw [List.length_cons] at hcount
    rw [frontEntries_drop hle, ← hcount] at hentries
    refine entriesAt_eq_ok_iff.2 ⟨header', ?_, h0, by rwa [hlen], ?_⟩
    · rw [Entry.read_natCast, hlen, hfront (Nat.le_refl _), ← Entry.read_natCast]
      exact hread
    · rw [frontEntries_drop (by rwa [hlen]), ← hcount, slots_congr htable]
      exact hentries

/-- What the first entry for a manifest refers to depends on its region. -/
theorem referred_congr {image image' : Bytes} {es : List Entry} {kind : PayloadKind}
    (hkind : kind ≠ .acm) (hlen : image'.length = image.length)
    (hagree : ∀ s, regionOf image es kind = some s → Bytes.Agree image' image s) :
    referred image' es kind.entryType = referred image es kind.entryType := by
  unfold referred
  cases hfirst : first? kind.entryType es with
  | none => rfl
  | some e =>
    have htype : e.type ≠ typeStartupAcm := by
      rw [type_of_first? hfirst]
      exact fun ht => hkind (entryType_injective (k := .acm) ht)
    dsimp only
    rw [hlen]
    cases hoff : offsetOf e.address image.length with
    | error err => rfl
    | ok offset =>
      have hregion : e.region image = .ok (offset.toNat, offset.toNat + e.size.toNat) :=
        Entry.region_eq_ok_iff.2 ⟨offset, e.size.toNat, hoff, if_neg htype, rfl⟩
      have hslice := (hagree _ (regionOf_eq_some_iff.2 ⟨e, hfirst, hregion⟩)).slice_eq
      rw [ok_bind, ok_bind, regionSize, regionSize, if_neg htype, if_neg htype, ok_bind, ok_bind,
        hslice]

/-- The protected ranges depend on the table and on the manifest that governs them. -/
theorem governingRanges_congr {image image' : Bytes} {offset : Nat} {header : Entry}
    {es : List Entry} (htable : TableAt image offset header es)
    (htable' : TableAt image' offset header es) (hlen : image'.length = image.length)
    (policy : Bytes) (hagree : policy = [] →
      ∀ s, regionOf image es .bootPolicy = some s → Bytes.Agree image' image s) :
    governingRanges image' es policy = governingRanges image es policy := by
  by_cases hpolicy : policy = []
  · have hreferred : referred image' es PayloadKind.bootPolicy.entryType =
        referred image es PayloadKind.bootPolicy.entryType :=
      referred_congr (by decide) hlen (hagree hpolicy)
    rw [PayloadKind.entryType] at hreferred
    unfold governingRanges
    rw [extract_of_tableAt htable, extract_of_tableAt htable', hlen, hreferred]
  · rw [governingRanges_of_ne_nil hpolicy, governingRanges_of_ne_nil hpolicy, hlen]

/-! ## One placement -/

/-- Placing a manifest overwrites its region before it looks at anything else. -/
theorem Workspace.place_congr {w : Workspace} {image' : Bytes} {kind : PayloadKind}
    {r : Nat × Nat} (hkind : kind ≠ .acm) (hr : w.region? kind = some r)
    (hle : r.2 ≤ w.image.length) (hlen : image'.length = w.image.length)
    (hsame : ∀ i, ¬ Within i r → image'[i]? = w.image[i]?) (payload : Bytes) :
    Workspace.place { w with image := image' } kind payload = w.place kind payload := by
  obtain ⟨e, hfirst, hregion⟩ := region?_eq_some_iff.1 hr
  obtain ⟨offset, size, hoff, hsize, rfl⟩ := Entry.region_eq_ok_iff.1 hregion
  have hsize' : regionSize image' e offset.toNat = .ok size := by
    have htype : e.type ≠ typeStartupAcm := by
      rw [type_of_first? hfirst]
      exact fun ht => hkind (entryType_injective (k := .acm) ht)
    rw [regionSize, if_neg htype] at hsize ⊢
    exact hsize
  have hcover {x : Bytes} (hx : x.length = size) :
      image'.overwrite offset.toNat x = w.image.overwrite offset.toNat x :=
    Bytes.overwrite_congr hlen (by rw [hx]; exact hle) (by rw [hx]; exact hsame)
  rw [place_of_region (w := { w with image := image' }) hfirst (hlen ▸ hoff) hsize',
    place_of_region hfirst hoff hsize]
  dsimp only
  rw [hlen]
  by_cases hfit : payload.length ≤ size
  · rw [if_pos hfit, if_pos hfit, hcover (length_filled hfit)]
  · rw [if_neg hfit, if_neg hfit, hcover (Bytes.length_erased size)]

/-! ## Stitching one manifest -/

/-- One payload alone. -/
def Payloads.only (kind : PayloadKind) (payload : Bytes) : Payloads :=
  match kind with
  | .acm => { acm := payload }
  | .keyManifest => { keys := payload }
  | .bootPolicy => { policy := payload }

theorem Payloads.toList_only (kind : PayloadKind) {payload : Bytes} (h : payload ≠ []) :
    (only kind payload).toList = [(kind, payload)] := by
  have hfull : payload.isEmpty = false := List.isEmpty_eq_false_iff.2 h
  cases kind <;>
    simp only [only, toList, List.filter, hfull, List.isEmpty_nil, Bool.not_true, Bool.not_false]

/-- The manifest in the region `r` can be replaced without a trace: the region is that of the
first entry for it and inside the image, and apart from the table, from the last bytes and, where
the present boot policy manifest governs, from this. -/
structure Replaceable (image : Bytes) (offset : Nat) (es : List Entry) (kind : PayloadKind)
    (r : Nat × Nat) : Prop where
  ne_acm : kind ≠ .acm
  region_eq : regionOf image es kind = some r
  region_le : r.2 ≤ image.length
  table_apart : Apart r (tableInterval offset es [kind])
  tail_apart : Apart r (tailInterval image.length)
  policy_apart : kind = .keyManifest →
    ∀ s, regionOf image es .bootPolicy = some s → Apart r s

namespace Replaceable

variable {image image' : Bytes} {offset : Nat} {header : Entry} {es : List Entry}
  {kind : PayloadKind} {r : Nat × Nat}

theorem growth_eq (h : Replaceable image offset es kind r) : growth es [kind] = 0 := by
  obtain ⟨e, hfirst, _⟩ := regionOf_eq_some_iff.1 h.region_eq
  refine growth_eq_zero fun k hk => ?_
  rw [List.mem_singleton.1 hk, hfirst]
  exact Option.some_ne_none e

section

variable (h : Replaceable image offset es kind r) (hlen : image'.length = image.length)
  (hsame : ∀ i, ¬ Within i r → image'[i]? = image[i]?)
include h hlen hsame

theorem placeAll_eq (measured : List (Nat × Nat)) (payload : Bytes) :
    (startWorkspace image' offset es [kind] measured).placeAll [(kind, payload)] =
      (startWorkspace image offset es [kind] measured).placeAll [(kind, payload)] := by
  have hplace := Workspace.place_congr (w := startWorkspace image offset es [kind] measured)
    h.ne_acm h.region_eq h.region_le hlen hsame payload
  rw [startWorkspace, hlen, Workspace.placeAll, Workspace.placeAll]
  exact congrArg (· >>= _) hplace

variable (htable : TableAt image offset header es)
include htable

theorem tableAt : TableAt image' offset header es := by
  have hagree {s : Nat × Nat} (hs : Apart r s) : Bytes.Agree image' image s :=
    fun i hi => hsame i (hs.symm i hi)
  have hinterval := hagree h.table_apart
  rw [tableInterval, h.growth_eq, Nat.add_zero] at hinterval
  obtain ⟨hlong, _⟩ := findTable_eq_ok htable.find
  have hpointer := (hagree h.tail_apart).mono fun _ => within_tail_of_pointer hlong
  exact htable.congr hlen hpointer hinterval

theorem governingRanges_eq {payload : Bytes} (hpayload : payload ≠ []) :
    governingRanges image' es (Payloads.only kind payload).policy =
      governingRanges image es (Payloads.only kind payload).policy := by
  refine governingRanges_congr htable (h.tableAt hlen hsame htable) hlen _ fun hpolicy s hs => ?_
  cases kind with
  | acm => exact absurd rfl h.ne_acm
  | keyManifest => exact fun i hi => hsame i ((h.policy_apart rfl s hs).symm i hi)
  | bootPolicy =>
    -- The new manifest governs.
    exact absurd hpolicy hpayload

end

end Replaceable

/-- Two images that differ only in the region of the first key manifest, or of the first boot
policy manifest, are stitched to the same image or fail in the same way, whatever the new manifest
is and whether it fits or has to move. -/
theorem stitch_replaced {image image' : Bytes} {offset : Nat} {header : Entry} {es : List Entry}
    {kind : PayloadKind} {r : Nat × Nat} (htable : TableAt image offset header es)
    (h : Replaceable image offset es kind r) (hlen : image'.length = image.length)
    (hsame : ∀ i, ¬ Within i r → image'[i]? = image[i]?) (payload : Bytes) :
    stitch image' (.only kind payload) = stitch image (.only kind payload) := by
  by_cases hpayload : payload = []
  · have hempty : (Payloads.only kind payload).toList = [] := by
      subst hpayload
      cases kind <;> rfl
    rw [stitch_of_nil hempty, stitch_of_nil hempty]
  · have hlist := Payloads.toList_only kind hpayload
    have hne : (Payloads.only kind payload).toList ≠ [] := by
      rw [hlist]
      exact List.cons_ne_nil _ _
    have hkinds : (Payloads.only kind payload).kinds = [kind] := by
      rw [Payloads.kinds, hlist, List.map_singleton]
    rw [stitch_eq htable hne, stitch_eq (h.tableAt hlen hsame htable) hne, hlist, hkinds,
      h.growth_eq, tableEnd_zero, tableEnd_zero,
      h.governingRanges_eq hlen hsame htable hpayload]
    simp only [h.placeAll_eq hlen hsame]

/-- The key manifest of the sample can be replaced: it stands between the table and the boot
policy manifest. -/
theorem replaceable_guarded :
    Replaceable guardedImage 0 guardedEntries .keyManifest (0x30, 0x40) where
  ne_acm := by decide
  region_eq := regionOf_guarded
  region_le := by decide +kernel
  table_apart := (apart_of_le (by decide)).symm
  tail_apart := apart_of_le (by decide +kernel)
  policy_apart := by
    intro _ s hs
    have hregion : regionOf guardedImage guardedEntries .bootPolicy = some (0x40, 0xBC) := by
      decide +kernel
    rw [hregion] at hs
    cases hs
    exact apart_of_le (by decide)

/-- The sample with its larger key manifest moved to 0x180: its entry has another address and
another size, and the place of the old one is erased. -/
def movedOut : Bytes :=
  ((guardedImage.overwrite 0x30 (Bytes.erased 0x10)).overwrite 0x180
    (List.replicate 0x20 0x4B)).overwrite 0x10 (Bytes.ofNatLe 8 0xFFFFFF80 ++ [0x20])

/-- The sample with a key manifest of eight bytes: the other eight are erased, and its entry has
another size. -/
def shrunkOut : Bytes :=
  (guardedImage.overwrite 0x30 (List.replicate 8 0x4B ++ Bytes.erased 8)).overwrite 0x18 [8]

/-- With other bytes in the place of the old key manifest the larger one is moved just the same,
and one of eight bytes is put there just the same. -/
theorem stitch_replaced_sample :
    let cleared := guardedImage.overwrite 0x30 (Bytes.zeros 0x10)
    cleared ≠ guardedImage ∧
      (stitch guardedImage guardedPayloads = .ok movedOut ∧
        stitch cleared guardedPayloads = .ok movedOut) ∧
      stitch guardedImage (.only .keyManifest (List.replicate 8 0x4B)) = .ok shrunkOut ∧
        stitch cleared (.only .keyManifest (List.replicate 8 0x4B)) = .ok shrunkOut := by
  have hroom : 0x30 + (Bytes.zeros 0x10).length ≤ guardedImage.length := by decide +kernel
  have hlen := Bytes.length_overwrite _ _ _ hroom
  have hsame : ∀ i, ¬ Within i (0x30, 0x40) →
      (guardedImage.overwrite 0x30 (Bytes.zeros 0x10))[i]? = guardedImage[i]? :=
    fun i hi => Bytes.getElem?_overwrite_of_not_within hroom hi
  obtain ⟨header, htable⟩ := tableAt_guarded
  have hstitch := stitch_replaced htable replaceable_guarded hlen hsame
  have hmove : stitch guardedImage guardedPayloads = .ok movedOut :=
    eq_ok_of_toOption (by decide +kernel)
  have hfit : stitch guardedImage (.only .keyManifest (List.replicate 8 0x4B)) = .ok shrunkOut :=
    eq_ok_of_toOption (by decide +kernel)
  exact ⟨by decide +kernel, ⟨hmove, (hstitch _).trans hmove⟩, hfit, (hstitch _).trans hfit⟩

end Fit

end BootGuard
