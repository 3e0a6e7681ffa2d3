/-
  What stitching leaves behind.

  A stitched image is the one that the run over the payloads yields, with the table written over
  it. `Stitched` gathers what is known of both; from it follow the bytes that may differ from
  the image (`Stitched.mayChange`), the table of the result (`Stitched.exists_tableAt`) and, for
  every entry whose region is apart from the table, that the result and the run agree on what it
  refers to (`Stitched.referred_iff_of_apart`).
-/
import BootGuard.Proofs.Fit.Run

namespace BootGuard.Fit

/-! ## Payloads -/

namespace Payloads

/-- The payload of a kind, empty where there is none. -/
def get (p : Payloads) : PayloadKind → Bytes
  | .acm => p.acm
  | .keyManifest => p.keys
  | .bootPolicy => p.policy

/-- The kinds of payloads there are. -/
def kinds (p : Payloads) : List PayloadKind := p.toList.map Prod.fst

theorem mem_toList_iff {p : Payloads} {x : PayloadKind × Bytes} :
    x ∈ p.toList ↔ x.2 = p.get x.1 ∧ p.get x.1 ≠ [] := by
  obtain ⟨kind, b⟩ := x
  simp only [toList, List.mem_filter, List.mem_cons, List.not_mem_nil, or_false, Prod.mk.injEq,
    Bool.not_eq_true', List.isEmpty_eq_false_iff]
  constructor
  · rintro ⟨⟨rfl, rfl⟩ | ⟨rfl, rfl⟩ | ⟨rfl, rfl⟩, hne⟩ <;> exact ⟨rfl, hne⟩
  · intro h
    obtain ⟨rfl, hne⟩ := h
    cases kind <;> simp [get] at hne ⊢ <;> exact hne

theorem mem_kinds_iff {p : Payloads} {kind : PayloadKind} :
    kind ∈ p.kinds ↔ p.get kind ≠ [] := by
  rw [kinds, List.mem_map]
  constructor
  · intro hall
    obtain ⟨x, hx, rfl⟩ := hall
    exact (mem_toList_iff.1 hx).2
  · intro h
    exact ⟨(kind, p.get kind), mem_toList_iff.2 ⟨rfl, h⟩, rfl⟩

theorem nodup_kinds (p : Payloads) : p.kinds.Nodup := by
  have hsub : p.kinds.Sublist [.acm, .keyManifest, .bootPolicy] :=
    List.filter_sublist.map Prod.fst
  exact hsub.nodup (by decide)

theorem length_kinds_le (p : Payloads) : p.kinds.length ≤ 3 := by
  rw [kinds, List.length_map]
  exact List.length_filter_le _ _

/-- A module comes before all other payloads. -/
theorem acm_first {p : Payloads} : ∀ x ∈ p.toList.tail, x.1 ≠ .acm := by
  intro x hx
  have hsub : p.toList.tail.Sublist [(.keyManifest, p.keys), (.bootPolicy, p.policy)] := by
    have := (List.filter_sublist (p := fun x : PayloadKind × Bytes => !x.2.isEmpty)
      (l := [(.acm, p.acm), (.keyManifest, p.keys), (.bootPolicy, p.policy)])).tail
    exact this
  have hmem := hsub.subset hx
  simp only [List.mem_cons, List.not_mem_nil, or_false] at hmem
  obtain rfl | rfl := hmem <;> exact fun h => by cases h

theorem orderly {p : Payloads} (h : ∀ kind, p.get kind ≠ [] → Placeable kind (p.get kind)) :
    Workspace.Orderly p.toList where
  placeable := by
    intro x hx
    obtain ⟨heq, hne⟩ := mem_toList_iff.1 hx
    rw [heq]
    exact h x.1 hne
  nodup := p.nodup_kinds
  acm_first := acm_first

end Payloads

/-! ## The run of a stitching -/

theorem growth_le (es : List Entry) (kinds : List PayloadKind) :
    growth es kinds ≤ kinds.length :=
  Nat.le_trans (Nat.sub_le _ _) (List.length_filter_le _ _)

/-- The interval of a table at `offset` that has grown for payloads of some kinds. -/
def tableInterval (offset : Nat) (es : List Entry) (kinds : List PayloadKind) : Nat × Nat :=
  (offset, offset + (es.length + 1 + growth es kinds) * entrySize)

/-- The last bytes of an image of `n` bytes, where the pointer to the table is. -/
def tailInterval (n : Nat) : Nat × Nat := (n - pointerDistance, n)

theorem within_tail_of_pointer {n i : Nat} (hn : pointerDistance ≤ n)
    (hi : Within i (pointerInterval n)) : Within i (tailInterval n) := by
  refine ⟨hi.1, Nat.lt_of_lt_of_le hi.2 ?_⟩
  rw [pointerDistance] at hn
  dsimp only [pointerInterval, tailInterval, pointerDistance]
  omega

/-- What the run over the payloads starts from. -/
def startWorkspace (image : Bytes) (offset : Nat) (es : List Entry) (kinds : List PayloadKind)
    (measured : List (Nat × Nat)) : Workspace where
  image := image
  entries := es
  reserved := tableInterval offset es kinds :: tailInterval image.length :: measured

/-- The image `out` is a run over the payloads that ended in `w`, with a table written over it. -/
structure Stitched (image : Bytes) (payloads : Payloads) (out : Bytes) (offset : Nat)
    (header : Entry) (es : List Entry) (measured : List (Nat × Nat)) (w : Workspace)
    (table : Bytes) : Prop where
  tableAt : TableAt image offset header es
  ranges : governingRanges image es payloads.policy = .ok measured
  ne_nil : payloads.toList ≠ []
  interval_le : (tableInterval offset es payloads.kinds).2 ≤ image.length
  room : growth es payloads.kinds = 0 ∨
    (tableInterval offset es payloads.kinds).2 + pointerDistance ≤ image.length
  run : (startWorkspace image offset es payloads.kinds measured).placeAll payloads.toList = .ok w
  encode : encodeTable header w.entries = .ok table
  out_eq : out = w.image.overwrite offset table

theorem tableEnd_eq_ok {image : Bytes} {offset count grow stop : Nat}
    (h : tableEnd image offset count grow = .ok stop) :
    stop = offset + (count + grow) * entrySize ∧
      (grow = 0 ∨ stop + pointerDistance ≤ image.length) := by
  unfold tableEnd at h
  dsimp only at h
  split at h
  · cases h
  · rename_i hroom
    cases h
    refine ⟨by rw [Nat.add_mul, Nat.add_assoc], ?_⟩
    by_cases hg : grow = 0
    · exact .inl hg
    · right
      refine Nat.le_of_not_lt fun hlt => hroom ⟨hg, .inl hlt⟩

theorem tableEnd_zero (image : Bytes) (offset count : Nat) :
    tableEnd image offset count 0 = .ok (offset + count * entrySize) := by
  unfold tableEnd
  dsimp only
  rw [if_neg fun h => h.1 rfl, Nat.zero_mul, Nat.add_zero]

theorem stitch_of_nil {image : Bytes} {payloads : Payloads} (h : payloads.toList = []) :
    stitch image payloads = .error .noPayload := by
  rw [stitch, h]
  rfl

/-- The steps of a stitching, up to the first failure. -/
theorem stitch_eq {image : Bytes} {offset : Nat} {header : Entry} {es : List Entry}
    (htable : TableAt image offset header es) {payloads : Payloads} (hne : payloads.toList ≠ []) :
    stitch image payloads = (do
      let _ ← tableEnd image offset (es.length + 1) (growth es payloads.kinds)
      let measured ← governingRanges image es payloads.policy
      let w ← (startWorkspace image offset es payloads.kinds measured).placeAll payloads.toList
      let table ← encodeTable header w.entries
      return w.image.overwrite offset table) := by
  have hempty : ¬ payloads.toList.isEmpty = true := fun h => hne (List.isEmpty_iff.1 h)
  unfold stitch
  dsimp only
  rw [if_neg hempty, htable.find, ok_bind, htable.read, ok_bind]
  dsimp only
  change (tableEnd image offset (es.length + 1) (growth es payloads.kinds) >>= _) = _
  cases hstop : tableEnd image offset (es.length + 1) (growth es payloads.kinds) with
  | error e => rfl
  | ok stop =>
    obtain ⟨rfl, _⟩ := tableEnd_eq_ok hstop
    rfl

theorem stitch_eq_ok_iff {image out : Bytes} {payloads : Payloads} {offset : Nat}
    {header : Entry} {es : List Entry} (htable : TableAt image offset header es) :
    stitch image payloads = .ok out ↔ payloads.toList ≠ [] ∧
      ∃ stop measured w table,
        tableEnd image offset (es.length + 1) (growth es payloads.kinds) = .ok stop ∧
        governingRanges image es payloads.policy = .ok measured ∧
        (startWorkspace image offset es payloads.kinds measured).placeAll payloads.toList =
          .ok w ∧
        encodeTable header w.entries = .ok table ∧ out = w.image.overwrite offset table := by
  by_cases hne : payloads.toList = []
  · rw [stitch_of_nil hne]
    constructor
    · intro h
      cases h
    · intro h
      exact absurd hne h.1
  · rw [stitch_eq htable hne, and_iff_right hne]
    simp only [bind_eq_ok_iff, pure_eq_ok, Except.ok.injEq]
    constructor
    · intro hall
      obtain ⟨stop, hstop, measured, hmeasured, w, hrun, table, henc, rfl⟩ := hall
      exact ⟨stop, measured, w, table, hstop, hmeasured, hrun, henc, rfl⟩
    · intro hall
      obtain ⟨stop, measured, w, table, hstop, hmeasured, hrun, henc, rfl⟩ := hall
      exact ⟨stop, hstop, measured, hmeasured, w, hrun, table, henc, rfl⟩

/-- An image that payloads can be stitched into has a table. -/
theorem exists_tableAt_of_stitch {image out : Bytes} {payloads : Payloads}
    (h : stitch image payloads = .ok out) :
    ∃ offset header es, TableAt image offset header es := by
  unfold stitch at h
  simp only [ite_throw_eq_ok_iff, bind_eq_ok_iff] at h
  obtain ⟨_, offset, hfind, l, hread, h⟩ := h
  cases l with
  | nil => cases h
  | cons header es => exact ⟨offset, header, es, hfind, hread⟩

theorem stitched_of_stitch {image out : Bytes} {payloads : Payloads} {offset : Nat}
    {header : Entry} {es : List Entry} (htable : TableAt image offset header es)
    (h : stitch image payloads = .ok out) :
    ∃ measured w table, Stitched image payloads out offset header es measured w table := by
  obtain ⟨hne, stop, measured, w, table, hstop, hmeasured, hrun, henc, rfl⟩ :=
    (stitch_eq_ok_iff htable).1 h
  obtain ⟨rfl, hroom⟩ := tableEnd_eq_ok hstop
  refine ⟨measured, w, table, htable, hmeasured, hne, ?_, hroom, hrun, henc, rfl⟩
  obtain ⟨_, hle, _⟩ := htable.bounds
  obtain hzero | hroom := hroom
  · rw [tableInterval, hzero, Nat.add_zero]
    exact hle
  · exact Nat.le_trans (Nat.le_add_right _ _) hroom

/-! ## The result -/

theorem valid_startWorkspace {image : Bytes} {offset : Nat} {header : Entry} {es : List Entry}
    (h : TableAt image offset header es) (kinds : List PayloadKind)
    (measured : List (Nat × Nat)) : (startWorkspace image offset es kinds measured).Valid := by
  obtain ⟨_, _, _, _, hdecoded⟩ := h.bounds
  intro e he
  obtain ⟨x, rfl⟩ := hdecoded e he
  exact ⟨Entry.fits_decode x, .inl (Int.natCast_nonneg _)⟩

/-- What stitching needs for the result to have a table: the payloads can be placed, what they
replace is apart from the last bytes, and the table does not grow over its own pointer. -/
structure Stitchable (image : Bytes) (offset : Nat) (es : List Entry) (payloads : Payloads) :
    Prop where
  placeable : ∀ kind, payloads.get kind ≠ [] → Placeable kind (payloads.get kind)
  tail_apart : ∀ kind, payloads.get kind ≠ [] → ∀ r, regionOf image es kind = some r →
    Apart r (tailInterval image.length)
  pointer_apart : Apart (tableInterval offset es payloads.kinds) (pointerInterval image.length)

/-- What stitching is promised of an image besides: the regions of the entries for payloads are
apart from each other and from the table as it will be. A module that stays contains its
header. -/
structure Suitable (image : Bytes) (offset : Nat) (es : List Entry) (payloads : Payloads) : Prop
    extends Stitchable image offset es payloads where
  regions_apart : ∀ j k, j ≠ k → ∀ r s, regionOf image es j = some r →
    regionOf image es k = some s → Apart r s
  table_apart : ∀ kind r, regionOf image es kind = some r →
    Apart r (tableInterval offset es payloads.kinds)
  header : payloads.acm = [] → ∀ r, regionOf image es .acm = some r → r.1 + acmHeaderSize ≤ r.2

/-- How the byte at the place `i` can come to change when payloads are stitched into an image. -/
inductive MayChange (image : Bytes) (offset : Nat) (es : List Entry) (payloads : Payloads)
    (measured : List (Nat × Nat)) (i : Nat) : Prop
  /-- The new table is written over it. -/
  | table (hi : Within i (tableInterval offset es payloads.kinds))
  /-- It is part of what a payload takes the place of. -/
  | replaced (kind : PayloadKind) (r : Nat × Nat) (hkind : payloads.get kind ≠ [])
      (hr : regionOf image es kind = some r) (hi : Within i r)
  /-- It is free: erased, in front of the pointer to the table, and not measured. -/
  | free (herased : image[i]? = some 0xFF) (hlt : i + pointerDistance < image.length)
      (hmeasured : ∀ r ∈ measured, ¬ Within i r)

namespace Stitched

variable {image out table : Bytes} {payloads : Payloads} {offset : Nat} {header : Entry}
  {es : List Entry} {measured : List (Nat × Nat)} {w : Workspace}

section

variable (h : Stitched image payloads out offset header es measured w table)
include h

/-- The run is confined, whatever the payloads are. -/
theorem confined :
    Workspace.Confined (startWorkspace image offset es payloads.kinds measured) w
      payloads.kinds := by
  have hvalid := valid_startWorkspace h.tableAt payloads.kinds measured
  exact Workspace.confined_of_placeAll payloads.nodup_kinds Payloads.acm_first
    (fun _ _ e he => (hvalid e (mem_of_first? he)).2) h.run

theorem length_run : w.image.length = image.length := h.confined.length_eq

theorem length_entries : w.entries.length = es.length + growth es payloads.kinds :=
  h.confined.length_entries payloads.nodup_kinds

/-- The table takes the interval that has been kept free for it. -/
theorem interval_eq :
    (offset, offset + table.length) = tableInterval offset es payloads.kinds := by
  obtain ⟨c, hitems, _⟩ := encodeTable_eq_ok h.encode
  rw [tableInterval, length_of_encodeEntries hitems, List.length_cons, h.length_entries,
    Nat.add_right_comm]

theorem table_le : offset + table.length ≤ w.image.length := by
  have heq := congrArg Prod.snd h.interval_eq
  dsimp only at heq
  rw [heq, h.length_run]
  exact h.interval_le

theorem length_out : out.length = image.length := by
  rw [h.out_eq, Bytes.length_overwrite _ _ _ h.table_le, h.length_run]

theorem slice_out : (out.drop offset).take table.length = table := by
  rw [h.out_eq, Bytes.slice_overwrite h.table_le]

theorem table_le_out : offset + table.length ≤ out.length := by
  rw [h.length_out, ← h.length_run]
  exact h.table_le

/-- The result has the entries of the run where the table was, cut off to their fields, if their
number fits the header. -/
theorem entriesAt_out (hcount : es.length + 1 + growth es payloads.kinds < maxEntries) :
    ∃ c : Int, entriesAt out offset = .ok
        ({ header with size := w.entries.length + 1, checksum := c } ::
          w.entries.map Entry.cut) ∧
      if header.checksumFlag = 0 then c = 0 else byteSum table % 256 = 0 := by
  obtain ⟨hmax, _, _, hheader, _⟩ := h.tableAt.bounds
  refine entriesAt_of_written hmax ?_ h.encode h.slice_out h.table_le_out ?_
  · rw [hheader]
    exact (Entry.fits_decode _).2
  · rw [h.length_entries]
    omega

/-- Apart from the table the result is the image of the run. -/
theorem agree_out {r : Nat × Nat} (hr : Apart (tableInterval offset es payloads.kinds) r) :
    Bytes.Agree out w.image r := by
  rw [h.out_eq]
  refine Bytes.agree_overwrite h.table_le ?_
  rw [h.interval_eq]
  exact hr

theorem valid_run (hplace : ∀ kind, payloads.get kind ≠ [] → Placeable kind (payloads.get kind)) :
    w.Valid :=
  Workspace.placeAll_valid (Payloads.orderly hplace)
    (valid_startWorkspace h.tableAt payloads.kinds measured) h.run

theorem first_run {j : PayloadKind} (hj : payloads.get j = []) :
    first? j.entryType w.entries = first? j.entryType es :=
  h.confined.first_eq j fun hmem => Payloads.mem_kinds_iff.1 hmem hj

/-- No byte changes but those that may. -/
theorem mayChange {i : Nat} (hi : out[i]? ≠ image[i]?) :
    MayChange image offset es payloads measured i := by
  by_cases htable : Within i (tableInterval offset es payloads.kinds)
  · exact .table htable
  · rw [← h.interval_eq] at htable
    rw [h.out_eq, Bytes.getElem?_overwrite_of_not_within h.table_le htable] at hi
    obtain ⟨k, hk, r, hr, hir⟩ | ⟨herased, hfree⟩ := h.confined.changed i hi
    · exact .replaced k r (Payloads.mem_kinds_iff.1 hk) hr hir
    · have hlt : i < image.length := (List.getElem?_eq_some_iff.1 herased).1
      have htail := hfree _ (List.mem_cons_of_mem _ List.mem_cons_self)
      refine .free herased ?_ fun r hr =>
        hfree r (List.mem_cons_of_mem _ (List.mem_cons_of_mem _ hr))
      unfold Within tailInterval at htail
      dsimp only at htail
      omega

/-- What is measured has the same bytes in the result, where it is apart from the table and from
all that the payloads take the place of. -/
theorem agree_measured {r : Nat × Nat} (hr : r ∈ measured)
    (htable : Apart r (tableInterval offset es payloads.kinds))
    (hreplaced : ∀ kind s, payloads.get kind ≠ [] → regionOf image es kind = some s →
      Apart r s) : Bytes.Agree out image r := by
  intro i hir
  refine Decidable.byContradiction fun hi => ?_
  cases h.mayChange hi with
  | table hit => exact htable i hir hit
  | replaced kind s hkind hs his => exact hreplaced kind s hkind hs i hir his
  | free _ _ hmeasured => exact hmeasured r hr hir

end

section

variable (h : Stitched image payloads out offset header es measured w table)
  (hs : Stitchable image offset es payloads)
include h hs

/-- The pointer to the table is not changed. -/
theorem agree_pointer : Bytes.Agree out image (pointerInterval image.length) := by
  obtain ⟨hlen, _⟩ := findTable_eq_ok h.tableAt.find
  intro i hip
  have htail := within_tail_of_pointer hlen hip
  refine Decidable.byContradiction fun hi => ?_
  cases h.mayChange hi with
  | table hit => exact hs.pointer_apart i hit hip
  | replaced kind r hkind hr hir => exact hs.tail_apart kind hkind r hr i hir htail
  | free _ hlt _ =>
    have hle := htail.1
    rw [tailInterval] at hle
    dsimp only at hle
    omega

/-- The table of the result holds the entries of the run, if their number fits the header. -/
theorem exists_tableAt (hcount : es.length + 1 + growth es payloads.kinds < maxEntries) :
    ∃ head, TableAt out offset head w.entries := by
  have hvalid := h.valid_run hs.placeable
  obtain ⟨c, hread, _⟩ := h.entriesAt_out hcount
  rw [map_cut_of_fits fun e he => (hvalid e he).1] at hread
  exact ⟨_, findTable_of_written h.tableAt h.length_out (h.agree_pointer hs) h.encode
    h.slice_out, hread⟩

/-- Where an entry of the run refers to bytes apart from the table, the result has the same. -/
theorem referred_iff_of_apart {kind : PayloadKind} {e : Entry} {o : Nat} {b : Bytes}
    (hfirst : first? kind.entryType w.entries = some e)
    (ho : offsetOf e.address w.image.length = .ok o)
    (hapart : Apart (o, o + b.length) (tableInterval offset es payloads.kinds))
    (hheader : kind = .acm → acmHeaderSize ≤ b.length) :
    referred out w.entries kind.entryType = .ok b ↔ w.referred kind = .ok b := by
  have hvalid := h.valid_run hs.placeable
  have hout : out.length = w.image.length := h.length_out.trans h.length_run.symm
  have hagree := h.agree_out hapart.symm
  have hheader' : kind.entryType = typeStartupAcm → acmHeaderSize ≤ b.length := by
    intro ht
    exact hheader (entryType_injective (k := .acm) ht)
  constructor
  · intro hb
    refine referred_of_agree ?_ hout.symm hfirst (by rw [hout]; exact ho) hagree.symm hheader' hb
    rw [hout]
    exact fun e he => (hvalid e he).2
  · intro hb
    exact referred_of_agree (fun e he => (hvalid e he).2) hout hfirst ho hagree hheader' hb

end

end Stitched

end BootGuard.Fit
