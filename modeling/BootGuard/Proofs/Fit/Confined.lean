/-
  What a run over payloads can change.

  A payload goes where the old one was, which is erased first, or else to free space.
  `Confined` says so of one placement and of a run alike, and asks nothing of the payloads: it
  holds even if they cannot be extracted again. Placements compose (`Confined.trans`), because
  what a later one replaces is given by an entry that the earlier one does not touch. Only a
  module is different, whose size is read from the image, so it has to come first.
-/
import BootGuard.Proofs.Fit.Placement

namespace BootGuard.Fit.Workspace

variable {w w' wf : Workspace} {kind j : PayloadKind} {payload : Bytes}
  {kinds : List PayloadKind} {list : List (PayloadKind × Bytes)}

/-- The byte at the place `i` is erased, and no reserved interval contains it. -/
def Free (w : Workspace) (i : Nat) : Prop :=
  w.image[i]? = some 0xFF ∧ ∀ r ∈ w.reserved, ¬ Within i r

/-- What placing payloads of some kinds does to the bytes and the entries. -/
structure Confined (w w' : Workspace) (kinds : List PayloadKind) : Prop where
  length_eq : w'.image.length = w.image.length
  /-- A byte that changes was part of what a payload took the place of, or free. -/
  changed : ∀ i, w'.image[i]? ≠ w.image[i]? →
    (∃ k ∈ kinds, ∃ r, w.region? k = some r ∧ Within i r) ∨ w.Free i
  reserved_subset : w.reserved ⊆ w'.reserved
  first_eq : ∀ j, j ∉ kinds → first? j.entryType w'.entries = first? j.entryType w.entries
  growth_eq : ∀ ks, (kinds ++ ks).Nodup →
    w'.entries.length + growth w'.entries ks = w.entries.length + growth w.entries (kinds ++ ks)

/-- The table is as long as it was said to become. -/
theorem Confined.length_entries (h : Confined w w' kinds) (hnodup : kinds.Nodup) :
    w'.entries.length = w.entries.length + growth w.entries kinds := by
  have hgrow := h.growth_eq [] (by rwa [List.append_nil])
  rwa [List.append_nil, show growth w'.entries [] = 0 by simp [growth], Nat.add_zero] at hgrow

/-! ## One placement -/

theorem entryType_ne_of_not_mem (h : j ∉ [kind]) : j.entryType ≠ kind.entryType :=
  fun ht => h (List.mem_singleton.2 (entryType_injective ht))

/-- A payload that moves, where `image` is the image before anything was erased. -/
theorem confined_of_move (image : Bytes) (hlen : w.image.length = image.length)
    (herased : ∀ i, w.image[i]? ≠ image[i]? →
      ∃ r, region? { w with image := image } kind = some r ∧ Within i r)
    (h : w.move kind payload = .ok w') : Confined { w with image := image } w' [kind] := by
  obtain ⟨offset, hle, hapart, hfree, himage, hreserved, hentries⟩ := move_spec h
  obtain ⟨_, hother, _, hgrow⟩ := moved_entries hentries
  refine {
    length_eq := ?length
    changed := ?changed
    reserved_subset := ?reserved
    first_eq := ?first
    growth_eq := fun ks hks => hgrow ks (List.nodup_cons.1 hks).1 }
  case length =>
    rw [himage, Bytes.length_overwrite _ _ _ hle]
    exact hlen
  case changed =>
    intro i hi
    by_cases hsame : w.image[i]? = image[i]?
    · -- Nothing was erased here, so this is where the payload was written.
      have hin : Within i (offset, offset + payload.length) := by
        refine Decidable.byContradiction fun hout => ?_
        rw [himage, Bytes.getElem?_overwrite_of_not_within hle hout] at hi
        exact hi hsame
      exact .inr ⟨hsame ▸ hfree i hin, fun r hr => hapart r hr i hin⟩
    · obtain ⟨r, hr, hir⟩ := herased i hsame
      exact .inl ⟨kind, List.mem_singleton_self kind, r, hr, hir⟩
  case reserved =>
    rw [hreserved]
    exact List.subset_append_left _ _
  case first =>
    intro j hj
    exact hother _ (entryType_ne_of_not_mem hj) (entryType_ne_unused j)

/-- A payload that takes the place of the old one. -/
theorem confined_in_place {e : Entry} {offset oldSize : Nat}
    (hfirst : first? kind.entryType w.entries = some e)
    (hregion : e.region w.image = .ok (offset, offset + oldSize))
    (hle : offset + oldSize ≤ w.image.length) (hfit : payload.length ≤ oldSize) :
    Confined w { w with
        image := w.image.overwrite offset (payload ++ Bytes.erased (oldSize - payload.length))
        entries := updateFirst kind.entryType (fun e =>
          if kind = .acm then e else { e with size := payload.length }) w.entries } [kind] := by
  have hfilled := length_filled hfit
  have hle' : offset + (payload ++ Bytes.erased (oldSize - payload.length)).length ≤
      w.image.length := by
    rw [hfilled]
    exact hle
  have hkeep := type_resize kind payload.length
  refine {
    length_eq := Bytes.length_overwrite _ _ _ hle'
    changed := ?changed
    reserved_subset := List.Subset.refl _
    first_eq := ?first
    growth_eq := fun ks _ => growth_updateFirst hkeep hfirst ks }
  case changed =>
    intro i hi
    refine .inl ⟨kind, List.mem_singleton_self kind, (offset, offset + oldSize),
      region?_eq_some_iff.2 ⟨e, hfirst, hregion⟩, ?_⟩
    refine Decidable.byContradiction fun hout => ?_
    rw [← hfilled] at hout
    exact hi (Bytes.getElem?_overwrite_of_not_within hle' hout)
  case first =>
    intro j hj
    exact first?_updateFirst_of_ne kind.entryType hkeep (entryType_ne_of_not_mem hj) w.entries

/-- Every placement that succeeds is confined. -/
theorem confined_of_place
    (haddr : ∀ e, first? kind.entryType w.entries = some e → e.Addresses w.image.length)
    (h : w.place kind payload = .ok w') : Confined w w' [kind] := by
  cases hfirst : first? kind.entryType w.entries with
  | none =>
    rw [place_of_none hfirst] at h
    exact confined_of_move w.image rfl (fun i hi => absurd rfl hi) h
  | some e =>
    obtain ⟨offset, oldSize, hoff, hsize, hle, h⟩ := place_of_first hfirst h
    obtain ⟨hpos, hlt⟩ := offsetOf_bounds (haddr e hfirst) hoff
    have hregion : e.region w.image = .ok (offset.toNat, offset.toNat + oldSize) :=
      Entry.region_eq_ok_iff.2 ⟨offset, oldSize, hoff, hsize, rfl⟩
    have hle' : offset.toNat + oldSize ≤ w.image.length := by omega
    obtain ⟨hfit, rfl⟩ | hmove := h
    · exact confined_in_place hfirst hregion hle' hfit
    · have herased : offset.toNat + (Bytes.erased oldSize).length ≤ w.image.length := by
        rw [Bytes.length_erased]
        exact hle'
      refine confined_of_move
        (w := { w with image := w.image.overwrite offset.toNat (Bytes.erased oldSize) })
        w.image (Bytes.length_overwrite _ _ _ herased) ?_ hmove
      intro i hi
      refine ⟨_, region?_eq_some_iff.2 ⟨e, hfirst, hregion⟩, ?_⟩
      refine Decidable.byContradiction fun hout => ?_
      rw [← Bytes.length_erased oldSize] at hout
      exact hi (Bytes.getElem?_overwrite_of_not_within herased hout)

/-! ## Runs -/

/-- The region of an entry that is not for a module is given by the entry and the size of the
image. -/
theorem region?_congr (hlen : w'.image.length = w.image.length)
    (hfirst : first? j.entryType w'.entries = first? j.entryType w.entries) (hj : j ≠ .acm)
    {r : Nat × Nat} (hr : w.region? j = some r) : w'.region? j = some r := by
  obtain ⟨e, he, hregion⟩ := region?_eq_some_iff.1 hr
  refine region?_eq_some_iff.2 ⟨e, hfirst.trans he, Entry.region_congr_of_ne ?_ hlen hregion⟩
  rw [type_of_first? he]
  exact fun ht => hj (entryType_injective (k := .acm) ht)

theorem Confined.refl : Confined w w [] where
  length_eq := rfl
  changed := fun _ hi => absurd rfl hi
  reserved_subset := List.Subset.refl _
  first_eq := fun _ _ => rfl
  growth_eq := fun _ _ => rfl

/-- A placement and then a run over payloads of other kinds, none of them a module. -/
theorem Confined.trans (hnodup : (kind :: kinds).Nodup) (hacm : .acm ∉ kinds)
    (h : Confined w w' [kind]) (h' : Confined w' wf kinds) : Confined w wf (kind :: kinds) where
  length_eq := h'.length_eq.trans h.length_eq
  changed := by
    intro i hi
    by_cases hstep : w'.image[i]? = w.image[i]?
    · obtain ⟨k, hk, r, hr, hir⟩ | ⟨herased, hfree⟩ := h'.changed i (by rwa [hstep])
      · have hne : k ∉ [kind] := by
          rw [List.mem_singleton]
          exact fun heq => (List.nodup_cons.1 hnodup).1 (heq ▸ hk)
        have hk' : k ≠ .acm := fun heq => hacm (heq ▸ hk)
        exact .inl ⟨k, List.mem_cons_of_mem _ hk, r,
          region?_congr h.length_eq.symm (h.first_eq k hne).symm hk' hr, hir⟩
      · exact .inr ⟨hstep ▸ herased, fun r hr => hfree r (h.reserved_subset hr)⟩
    · obtain ⟨k, hk, hr⟩ | hfree := h.changed i hstep
      · exact .inl ⟨k, List.mem_cons.2 (.inl (List.mem_singleton.1 hk)), hr⟩
      · exact .inr hfree
  reserved_subset := fun _ hr => h'.reserved_subset (h.reserved_subset hr)
  first_eq := by
    intro j hj
    rw [List.mem_cons, not_or] at hj
    exact (h'.first_eq j hj.2).trans (h.first_eq j fun h => hj.1 (List.mem_singleton.1 h))
  growth_eq := by
    intro ks hks
    have hrest := (List.nodup_cons.1 hks).2
    exact (h'.growth_eq ks hrest).trans (h.growth_eq (kinds ++ ks) hks)

/-- A run is a step and a run. -/
theorem placeAll_cons_eq_ok_iff :
    w.placeAll ((kind, payload) :: list) = .ok wf ↔
      ∃ w', w.place kind payload = .ok w' ∧ w'.placeAll list = .ok wf := by
  rw [placeAll, bind_eq_ok_iff]

/-- Every run that succeeds is confined, over payloads of different kinds of which at most the
first is a module. -/
theorem confined_of_placeAll (hnodup : (list.map Prod.fst).Nodup)
    (hacm : ∀ x ∈ list.tail, x.1 ≠ .acm)
    (haddr : ∀ x ∈ list, ∀ e, first? x.1.entryType w.entries = some e →
      e.Addresses w.image.length)
    (h : w.placeAll list = .ok wf) : Confined w wf (list.map Prod.fst) := by
  induction list generalizing w with
  | nil =>
    cases h
    exact .refl
  | cons x list ih =>
    obtain ⟨kind, payload⟩ := x
    obtain ⟨w', hplace, hrun⟩ := placeAll_cons_eq_ok_iff.1 h
    have hstep := confined_of_place (haddr _ List.mem_cons_self) hplace
    have hrest := List.nodup_cons.1 hnodup
    refine hstep.trans hnodup ?_ (ih hrest.2 ?_ ?_ hrun)
    · intro hmem
      obtain ⟨y, hy, heq⟩ := List.mem_map.1 hmem
      exact hacm y hy heq
    · exact fun y hy => hacm y (List.mem_of_mem_tail hy)
    · intro y hy e he
      have hne : y.1 ∉ [kind] := by
        rw [List.mem_singleton]
        exact fun heq => hrest.1 (List.mem_map.2 ⟨y, hy, heq⟩)
      rw [hstep.length_eq]
      rw [hstep.first_eq y.1 hne] at he
      exact haddr y (List.mem_cons_of_mem _ hy) e he

end BootGuard.Fit.Workspace
