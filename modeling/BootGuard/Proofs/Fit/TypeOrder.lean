/-
  Whether stitching keeps the entries in the order of their types.

  A new entry goes in front of the first one of a higher type. Of several unused entries one makes
  room for it and the others stay, and their type is higher than any other. So the search can
  end at an unused entry although entries of lower types follow. Only the types matter here: they
  develop as `stitchedTypes` says, and this keeps them in order exactly if every new type is
  lower than all behind the unused entry that it is stopped by (`usedInOrder_stitchedTypes_iff`).
  `inTypeOrder_of_stitch_iff` says so of the table that is found in the result.
-/
import BootGuard.Proofs.Fit.Accounting
import Mathlib.Data.List.Sort

namespace BootGuard.Fit

/-! ## Types -/

/-- The types but for the unused ones do not decrease. -/
def UsedInOrder (ts : List Int) : Prop := (ts.filter (· ≠ typeUnused)).Pairwise (· ≤ ·)

instance : DecidablePred UsedInOrder := fun ts =>
  inferInstanceAs (Decidable ((ts.filter (· ≠ typeUnused)).Pairwise (· ≤ ·)))

/-- The types behind the first `n` unused ones, none if there are fewer. -/
def behindUnused : Nat → List Int → List Int
  | 0, ts => ts
  | _ + 1, [] => []
  | n + 1, t :: ts => if t = typeUnused then behindUnused n ts else behindUnused (n + 1) ts

/-- The types behind a new entry: an unused one goes, and the type is put in front of the first
higher one. -/
def addType (t : Int) (ts : List Int) : List Int :=
  (ts.erase typeUnused).orderedInsert (· < ·) t

/-- The types behind the placement of payloads of some kinds. -/
def stitchedTypes : List Int → List PayloadKind → List Int
  | ts, [] => ts
  | ts, k :: ks => stitchedTypes (if k.entryType ∈ ts then ts else addType k.entryType ts) ks

theorem entryType_lt_unused (kind : PayloadKind) : kind.entryType < typeUnused := by
  cases kind <;> decide

section Types

variable {t k : Int} {ts : List Int}

theorem usedInOrder_cons_unused : UsedInOrder (typeUnused :: ts) ↔ UsedInOrder ts := by
  rw [UsedInOrder, List.filter_cons_of_neg (by simp), UsedInOrder]

theorem usedInOrder_cons_of_ne (ht : t ≠ typeUnused) :
    UsedInOrder (t :: ts) ↔ (∀ x ∈ ts, x ≠ typeUnused → t ≤ x) ∧ UsedInOrder ts := by
  rw [UsedInOrder, List.filter_cons_of_pos (by simpa using ht), List.pairwise_cons, UsedInOrder]
  simp only [List.mem_filter, decide_eq_true_eq, and_imp]

theorem usedInOrder_erase : UsedInOrder (ts.erase typeUnused) ↔ UsedInOrder ts := by
  induction ts with
  | nil => exact Iff.rfl
  | cons t ts ih =>
    by_cases ht : t = typeUnused
    · rw [ht, List.erase_cons_head, usedInOrder_cons_unused]
    · have hmem : ∀ x, x ≠ typeUnused → (x ∈ ts.erase typeUnused ↔ x ∈ ts) :=
        fun x hx => List.mem_erase_of_ne hx
      rw [List.erase_cons_tail (by simpa using ht), usedInOrder_cons_of_ne ht,
        usedInOrder_cons_of_ne ht, ih]
      refine and_congr_left fun _ => forall_congr' fun x => ?_
      by_cases hx : x = typeUnused
      · simp [hx]
      · rw [hmem x hx]

theorem behindUnused_cons_unused (n : Nat) :
    behindUnused (n + 1) (typeUnused :: ts) = behindUnused n ts := by
  rw [behindUnused, if_pos rfl]

theorem behindUnused_cons_of_ne (ht : t ≠ typeUnused) (n : Nat) :
    behindUnused (n + 1) (t :: ts) = behindUnused (n + 1) ts := by
  rw [behindUnused, if_neg ht]

theorem behindUnused_subset (n : Nat) (ts : List Int) : behindUnused n ts ⊆ ts := by
  fun_induction behindUnused n ts with
  | case1 ts => exact List.Subset.refl _
  | case2 n => exact List.Subset.refl _
  | case3 n ts ih => exact List.subset_cons_of_subset _ ih
  | case4 n t ts ht ih => exact List.subset_cons_of_subset _ ih

theorem behindUnused_erase (n : Nat) :
    behindUnused (n + 1) (ts.erase typeUnused) = behindUnused (n + 2) ts := by
  induction ts with
  | nil => rfl
  | cons t ts ih =>
    by_cases ht : t = typeUnused
    · rw [ht, List.erase_cons_head, behindUnused_cons_unused]
    · rw [List.erase_cons_tail (by simpa using ht), behindUnused_cons_of_ne ht,
        behindUnused_cons_of_ne ht, ih]

/-- A type that is inserted stands in front of the first unused one. -/
theorem behindUnused_orderedInsert (hk : k < typeUnused) (n : Nat) :
    behindUnused (n + 1) (ts.orderedInsert (· < ·) k) = behindUnused (n + 1) ts := by
  induction ts with
  | nil => exact behindUnused_cons_of_ne (ne_of_lt hk) n
  | cons t ts ih =>
    rw [List.orderedInsert_cons]
    split
    · exact behindUnused_cons_of_ne (ne_of_lt hk) n
    · rename_i hlt
      have ht : t ≠ typeUnused := by
        rintro rfl
        exact hlt hk
      rw [behindUnused_cons_of_ne ht, ih, behindUnused_cons_of_ne ht]

/-- The search for the place of a type ends at the first unused one at the latest. -/
theorem usedInOrder_orderedInsert_iff (hk : k < typeUnused) (hnot : k ∉ ts) :
    UsedInOrder (ts.orderedInsert (· < ·) k) ↔
      UsedInOrder ts ∧ ∀ t ∈ behindUnused 1 ts, k < t := by
  induction ts with
  | nil =>
    rw [List.orderedInsert_nil, usedInOrder_cons_of_ne (ne_of_lt hk)]
    simp [behindUnused]
  | cons t ts ih =>
    obtain ⟨hkt, hnot⟩ := not_or.1 (mt List.mem_cons.2 hnot)
    rw [List.orderedInsert_cons]
    split
    · rename_i hlt
      rw [usedInOrder_cons_of_ne (ne_of_lt hk), and_comm]
      refine and_congr_right fun horder => ?_
      rw [List.forall_mem_cons]
      by_cases ht : t = typeUnused
      · rw [ht, behindUnused_cons_unused, behindUnused, and_iff_right fun h => absurd rfl h]
        constructor
        · intro h x hx
          by_cases hxu : x = typeUnused
          · rwa [hxu]
          · exact lt_of_le_of_ne (h x hx hxu) fun heq => hnot (heq ▸ hx)
        · exact fun h x hx _ => (h x hx).le
      · -- What follows is even higher, so the place is right whatever is behind it.
        have hle := ((usedInOrder_cons_of_ne ht).1 horder).1
        refine iff_of_true ⟨fun _ => hlt.le, fun x hx hxu => hlt.le.trans (hle x hx hxu)⟩ ?_
        intro x hx
        rw [behindUnused_cons_of_ne ht] at hx
        by_cases hxu : x = typeUnused
        · rwa [hxu]
        · exact hlt.trans_le (hle x (behindUnused_subset _ _ hx) hxu)
    · rename_i hle
      have hlt : t < k := lt_of_le_of_ne (not_lt.1 hle) (Ne.symm hkt)
      have ht : t ≠ typeUnused := ne_of_lt (hlt.trans hk)
      have hrest := ih hnot
      rw [usedInOrder_cons_of_ne ht, usedInOrder_cons_of_ne ht, behindUnused_cons_of_ne ht,
        hrest, and_assoc]
      refine and_congr_left fun _ => ?_
      simp only [List.mem_orderedInsert, forall_eq_or_imp]
      exact and_iff_right fun _ => hlt.le

/-! ### New types -/

theorem usedInOrder_addType_iff (hk : k < typeUnused) (hnot : k ∉ ts) :
    UsedInOrder (addType k ts) ↔ UsedInOrder ts ∧ ∀ t ∈ behindUnused 2 ts, k < t := by
  rw [addType, usedInOrder_orderedInsert_iff hk fun hmem => hnot (List.mem_of_mem_erase hmem),
    usedInOrder_erase, behindUnused_erase]

theorem behindUnused_addType (hk : k < typeUnused) (n : Nat) :
    behindUnused (n + 1) (addType k ts) = behindUnused (n + 2) ts := by
  rw [addType, behindUnused_orderedInsert hk, behindUnused_erase]

theorem mem_addType_iff_of_ne (ht : t ≠ k) (hu : t ≠ typeUnused) : t ∈ addType k ts ↔ t ∈ ts := by
  rw [addType, List.mem_orderedInsert, or_iff_right ht, List.mem_erase_of_ne hu]

theorem mem_addType (ht : t ∈ addType k ts) : t = k ∨ t ∈ ts := by
  obtain rfl | ht := (List.mem_orderedInsert _).1 ht
  · exact .inl rfl
  · exact .inr (List.mem_of_mem_erase ht)

theorem mem_stitchedTypes {ks : List PayloadKind} (ht : t ∈ stitchedTypes ts ks) :
    t ∈ ts ∨ ∃ k ∈ ks, t = k.entryType := by
  induction ks generalizing ts with
  | nil => exact .inl ht
  | cons k ks ih =>
    obtain h | ⟨j, hj, rfl⟩ := ih ht
    · split at h
      · exact .inl h
      · obtain rfl | h := mem_addType h
        · exact .inr ⟨k, List.mem_cons_self, rfl⟩
        · exact .inl h
    · exact .inr ⟨j, List.mem_cons_of_mem _ hj, rfl⟩

/-- Types stay in order exactly if each new one is lower than all behind the unused type at which
the search for its place ends. By then one unused type is gone for each new one so far, and
one for the new one itself. -/
theorem usedInOrder_stitchedTypes_iff {ks : List PayloadKind} (hnodup : ks.Nodup) :
    UsedInOrder (stitchedTypes ts ks) ↔ UsedInOrder ts ∧
      ∀ n k, (ks.filter fun k => k.entryType ∉ ts)[n]? = some k →
        ∀ t ∈ behindUnused (n + 2) ts, k.entryType < t := by
  induction ks generalizing ts with
  | nil => simp [stitchedTypes]
  | cons k ks ih =>
    obtain ⟨hk, hnodup⟩ := List.nodup_cons.1 hnodup
    rw [stitchedTypes, ih hnodup]
    by_cases hmem : k.entryType ∈ ts
    · rw [if_pos hmem, List.filter_cons_of_neg (by simpa using hmem)]
    · have hlt := entryType_lt_unused k
      have hfilter : (ks.filter fun j => j.entryType ∉ addType k.entryType ts) =
          ks.filter fun j => j.entryType ∉ ts := by
        refine List.filter_congr fun j hj => decide_eq_decide.2 (not_congr ?_)
        refine mem_addType_iff_of_ne (fun ht => hk ?_) (entryType_ne_unused j)
        exact entryType_injective ht ▸ hj
      rw [if_neg hmem, List.filter_cons_of_pos (by simpa using hmem), hfilter,
        usedInOrder_addType_iff hlt hmem, and_assoc]
      refine and_congr_right fun _ => ?_
      simp only [behindUnused_addType hlt]
      constructor
      · rintro ⟨hfirst, hrest⟩ n j hj
        cases n with
        | zero =>
          cases hj
          exact hfirst
        | succ n => exact hrest n j hj
      · intro h
        exact ⟨h 0 k rfl, fun n j hj => h (n + 1) j hj⟩

end Types

/-! ## The types of entries -/

theorem map_type_insertByType (e : Entry) (es : List Entry) :
    (insertByType e es).map Entry.type = (es.map Entry.type).orderedInsert (· < ·) e.type := by
  induction es with
  | nil => rfl
  | cons x xs ih =>
    rw [insertByType, List.map_cons, List.orderedInsert_cons]
    split
    · rfl
    · rw [List.map_cons, ih]

theorem map_type_eraseP_unused (es : List Entry) :
    (es.eraseP fun x => x.type = typeUnused).map Entry.type =
      (es.map Entry.type).erase typeUnused := by
  induction es with
  | nil => rfl
  | cons x xs ih =>
    by_cases hx : x.type = typeUnused
    · rw [List.map_cons, hx, List.erase_cons_head, eraseP_unused_cons_of_eq hx]
    · rw [List.map_cons, List.erase_cons_tail (by simpa using hx), eraseP_unused_cons_of_ne hx,
        List.map_cons, ih]

theorem map_type_addEntry (e : Entry) (es : List Entry) :
    (addEntry e es).map Entry.type = addType e.type (es.map Entry.type) := by
  rw [addEntry, map_type_insertByType, map_type_eraseP_unused, addType]

theorem mem_map_type_iff {t : Int} {es : List Entry} :
    t ∈ es.map Entry.type ↔ (first? t es).isSome = true := by
  rw [← any_type_eq, List.any_eq_true, List.mem_map]
  simp only [decide_eq_true_eq]

theorem missing_eq (es : List Entry) (kinds : List PayloadKind) :
    missing es kinds = kinds.filter fun k => k.entryType ∉ es.map Entry.type := by
  refine List.filter_congr fun k _ => ?_
  rw [any_type_eq, decide_not, Bool.decide_congr mem_map_type_iff, Bool.decide_eq_true]

namespace Workspace

variable {w w' wf : Workspace} {kind : PayloadKind} {payload : Bytes}
  {list : List (PayloadKind × Bytes)}

theorem map_type_of_place (h : w.place kind payload = .ok w') :
    w'.entries.map Entry.type = if kind.entryType ∈ w.entries.map Entry.type
      then w.entries.map Entry.type else addType kind.entryType (w.entries.map Entry.type) := by
  obtain ⟨e, f, hfirst, hf, heq⟩ | ⟨hfirst, offset, heq⟩ := place_entries h
  · rw [heq, map_type_updateFirst _ hf.type_eq, if_pos (mem_map_type_iff.2 (by rw [hfirst]; rfl))]
  · have hnot : kind.entryType ∉ w.entries.map Entry.type := by
      rw [mem_map_type_iff, hfirst]
      exact Bool.false_ne_true
    rw [heq, map_type_addEntry, if_neg hnot]
    rfl

theorem map_type_of_placeAll (h : w.placeAll list = .ok wf) :
    wf.entries.map Entry.type =
      stitchedTypes (w.entries.map Entry.type) (list.map Prod.fst) := by
  induction list generalizing w with
  | nil =>
    cases h
    rfl
  | cons x list ih =>
    obtain ⟨w', hplace, hrun⟩ := placeAll_cons_eq_ok_iff.1 h
    rw [ih hrun, map_type_of_place hplace]
    rfl

end Workspace

/-! ## The table of the result -/

/-- The entries that are in use stand in the order of their types. -/
def InTypeOrder (es : List Entry) : Prop := UsedInOrder (es.map Entry.type)

instance : DecidablePred InTypeOrder := fun es =>
  inferInstanceAs (Decidable (UsedInOrder (es.map Entry.type)))

/-- Every payload that there is no entry for has a lower type than all entries behind the unused
one that ends the search for its place: for the first payload that is the second unused entry, for
the next one the third, and so on. -/
def KeepsTypeOrder (es : List Entry) (kinds : List PayloadKind) : Prop :=
  ∀ n kind, (missing es kinds)[n]? = some kind →
    ∀ t ∈ behindUnused (n + 2) (es.map Entry.type), kind.entryType < t

namespace Stitched

variable {image out table : Bytes} {payloads : Payloads} {offset : Nat} {header : Entry}
  {es : List Entry} {measured : List (Nat × Nat)} {w : Workspace}
  (h : Stitched image payloads out offset header es measured w table)
include h

theorem map_type_run :
    w.entries.map Entry.type = stitchedTypes (es.map Entry.type) payloads.kinds :=
  Workspace.map_type_of_placeAll h.run

theorem inTypeOrder_run_iff :
    InTypeOrder w.entries ↔ InTypeOrder es ∧ KeepsTypeOrder es payloads.kinds := by
  rw [InTypeOrder, h.map_type_run, usedInOrder_stitchedTypes_iff payloads.nodup_kinds, InTypeOrder,
    KeepsTypeOrder, missing_eq]

theorem type_bounds_run : ∀ e ∈ w.entries, 0 ≤ e.type ∧ e.type < 0x80 := by
  obtain ⟨_, _, _, _, hdecoded⟩ := h.tableAt.bounds
  intro e he
  have hmem := List.mem_map_of_mem (f := Entry.type) he
  rw [h.map_type_run] at hmem
  obtain hold | ⟨k, _, hk⟩ := mem_stitchedTypes hmem
  · obtain ⟨x, hx, hxe⟩ := List.mem_map.1 hold
    obtain ⟨b, rfl⟩ := hdecoded x hx
    rw [← hxe]
    exact (Entry.fits_decode b).2
  · rw [hk]
    exact entryType_lt k

/-- A reader finds the types of the run. -/
theorem map_type_cut : (w.entries.map Entry.cut).map Entry.type = w.entries.map Entry.type := by
  rw [List.map_map]
  refine List.map_congr_left fun e he => ?_
  obtain ⟨hpos, hlt⟩ := h.type_bounds_run e he
  exact Int.emod_eq_of_lt hpos hlt

/-- If the number of entries does not fit the header, a reader finds at most one behind it. -/
theorem length_le_of_overflow (hcount : maxEntries ≤ es.length + 1 + growth es payloads.kinds)
    {header' : Entry} {es' : List Entry} (hread : entriesAt out offset = .ok (header' :: es')) :
    es'.length ≤ 1 := by
  obtain ⟨hmax, _, hlt, _⟩ := h.tableAt.bounds
  obtain ⟨head, hhead, hsize⟩ :=
    read_header_of_written hmax h.encode h.slice_out h.table_le_out
  obtain ⟨head', hhead', _, _, hfront⟩ := entriesAt_eq_ok_iff.1 hread
  obtain rfl := Except.ok.inj (hhead.symm.trans hhead')
  have hlen := (frontEntries_eq_ok hfront).1
  have hgrowth := (growth_le es payloads.kinds).trans payloads.length_kinds_le
  rw [List.length_cons, hsize, h.length_entries, maxEntries] at hlen
  rw [maxEntries] at hcount hlt
  omega

end Stitched

theorem inTypeOrder_of_length_le {es : List Entry} (h : es.length ≤ 1) : InTypeOrder es := by
  match es, h with
  | [], _ => exact List.Pairwise.nil
  | [e], _ =>
    refine (List.pairwise_singleton (· ≤ ·) e.type).sublist ?_
    exact List.filter_sublist

/-- A table in the order of its types is kept in it exactly if every new entry that is stopped by
an unused one has a lower type than all entries behind that. Nothing is out of order
where the number of entries is too large to be found at all. -/
theorem inTypeOrder_of_stitch_iff {image out : Bytes} {payloads : Payloads} {offset : Nat}
    {header : Entry} {es : List Entry} (htable : TableAt image offset header es)
    (horder : InTypeOrder es) (h : stitch image payloads = .ok out) :
    (es.length + 1 + growth es payloads.kinds < maxEntries →
      ∃ header' es', entriesAt out offset = .ok (header' :: es')) ∧
    ∀ header' es', entriesAt out offset = .ok (header' :: es') →
      (InTypeOrder es' ↔ (es.length + 1 + growth es payloads.kinds < maxEntries →
        KeepsTypeOrder es payloads.kinds)) := by
  obtain ⟨measured, w, table, hst⟩ := stitched_of_stitch htable h
  constructor
  · intro hcount
    obtain ⟨_, hread, _⟩ := hst.entriesAt_out hcount
    exact ⟨_, _, hread⟩
  · intro header' es' hread
    by_cases hcount : es.length + 1 + growth es payloads.kinds < maxEntries
    · obtain ⟨_, hread', _⟩ := hst.entriesAt_out hcount
      obtain ⟨_, rfl⟩ := List.cons.inj (Except.ok.inj (hread'.symm.trans hread))
      rw [InTypeOrder, hst.map_type_cut, ← InTypeOrder, hst.inTypeOrder_run_iff,
        and_iff_right horder, forall_prop_of_true hcount]
    · refine iff_of_true ?_ fun hlt => absurd hlt hcount
      exact inTypeOrder_of_length_le (hst.length_le_of_overflow (Nat.le_of_not_lt hcount) hread)

/-! ### Two unused entries in front -/

section Scattered

variable (t : UInt8)

/-- An image of 0x100 bytes, with two unused entries in front of one of the type `t`. -/
def scatteredImage : Bytes :=
  headText ++ Bytes.ofNatLe 4 4 ++ Bytes.ofNatLe 2 0x0100 ++ [0, 0] ++
  Bytes.zeros 12 ++ Bytes.ofNatLe 2 0x0100 ++ [0x7F, 0] ++
  Bytes.zeros 12 ++ Bytes.ofNatLe 2 0x0100 ++ [0x7F, 0] ++
  Bytes.zeros 12 ++ Bytes.ofNatLe 2 0x0100 ++ [t, 0] ++
  Bytes.erased 0x80 ++ Bytes.ofNatLe 8 0xFFFFFF00 ++ Bytes.zeros 0x38

def scatteredEntries : List Entry :=
  [{ type := typeUnused }, { type := typeUnused }, { type := t.toNat }]

def scatteredOut : Bytes := (stitch (scatteredImage t) slottedPayloads).toOption.getD []

variable {t} (ht : t = 0x01 ∨ t = 0x10)
include ht

theorem tableAt_scattered :
    ∃ header, TableAt (scatteredImage t) 0 header (scatteredEntries t) := by
  refine ⟨Entry.decode ((scatteredImage t).take entrySize), eq_ok_of_toOption ?_,
    eq_ok_of_toOption ?_⟩
  all_goals obtain rfl | rfl := ht <;> decide +kernel

theorem stitch_scattered :
    stitch (scatteredImage t) slottedPayloads = .ok (scatteredOut t) := by
  refine eq_ok_of_toOption ?_
  obtain rfl | rfl := ht <;> decide +kernel

end Scattered

/-- A key manifest gets its entry in front of the unused one that stays. That is its place if the
entry behind has a higher type, but not if it has a lower one. -/
theorem inTypeOrder_of_stitch_iff_sample :
    (∃ header es, entriesAt (scatteredOut 0x01) 0 = .ok (header :: es) ∧ ¬ InTypeOrder es) ∧
    ∃ header es, entriesAt (scatteredOut 0x10) 0 = .ok (header :: es) ∧ InTypeOrder es := by
  constructor
  · obtain ⟨_, htable⟩ := tableAt_scattered (.inl rfl)
    obtain ⟨hfound, hiff⟩ :=
      inTypeOrder_of_stitch_iff htable (by decide) (stitch_scattered (.inl rfl))
    obtain ⟨header, es, hread⟩ := hfound (by decide)
    refine ⟨header, es, hread, fun horder => ?_⟩
    have hkeeps := (hiff header es hread).1 horder (by decide)
    exact absurd (hkeeps 0 .keyManifest rfl 1 (by decide)) (by decide)
  · obtain ⟨_, htable⟩ := tableAt_scattered (.inr rfl)
    obtain ⟨hfound, hiff⟩ :=
      inTypeOrder_of_stitch_iff htable (by decide) (stitch_scattered (.inr rfl))
    obtain ⟨header, es, hread⟩ := hfound (by decide)
    refine ⟨header, es, hread, (hiff header es hread).2 fun _ => ?_⟩
    intro n kind hkind
    cases n with
    | zero =>
      obtain rfl : PayloadKind.keyManifest = kind := Option.some.inj hkind
      decide
    | succ n => cases hkind

end BootGuard.Fit
