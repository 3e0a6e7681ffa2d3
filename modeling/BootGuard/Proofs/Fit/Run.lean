/-
  Placing payloads one after the other.

  A run keeps what is reserved (`placeAll_frame`), so a payload that moved is safe from the
  payloads that come later. A payload that was placed in place is not, nor is what an entry
  refers to that has not been touched: a payload that moves can land in an erased stretch of
  either. `Undisturbed` says that this happens at no step; `undisturbed_iff_kept` says that this
  is exactly what it takes for everything to be there at the end. Every byte of what is to be
  kept is touched by at most one step, so no step undoes the harm of another.
-/
import BootGuard.Proofs.Fit.Confined

namespace BootGuard.Fit

/-- In an image of `n` bytes the first entry for payloads of a kind names the place `o`. -/
def Stands (es : List Entry) (n : Nat) (kind : PayloadKind) (o : Nat) : Prop :=
  ∃ e, first? kind.entryType es = some e ∧ offsetOf e.address n = .ok (o : Int)

theorem Stands.eq {es : List Entry} {n o p : Nat} {kind : PayloadKind} (ho : Stands es n kind o)
    (hp : Stands es n kind p) : o = p := by
  obtain ⟨e, he, ho⟩ := ho
  obtain ⟨e', he', hp⟩ := hp
  rw [he] at he'
  cases he'
  rw [ho] at hp
  cases hp
  rfl

namespace Workspace

variable {w w' wf : Workspace} {kind j : PayloadKind} {payload : Bytes} {landing : Nat × Nat}
  {list : List (PayloadKind × Bytes)}

/-! ## One step -/

namespace Placed

theorem reserved_subset (h : Placed w w' kind payload landing) : w.reserved ⊆ w'.reserved := by
  obtain ⟨heq, _⟩ | ⟨heq, _⟩ := h.in_place_or_moved
  · rw [heq]
    exact List.Subset.refl _
  · rw [heq]
    exact List.subset_append_left _ _

/-- A place in a reserved interval that is no part of what is replaced keeps its byte. -/
theorem getElem?_of_reserved (h : Placed w w' kind payload landing) {i : Nat}
    (hreserved : ∃ r ∈ w.reserved, Within i r)
    (hold : ∀ r, w.region? kind = some r → ¬ Within i r) : w'.image[i]? = w.image[i]? := by
  refine h.frame i ?_ hold
  intro hi
  obtain ⟨_, r, hr, hsub⟩ | ⟨_, hapart⟩ := h.in_place_or_moved
  · exact hold r hr (hsub i hi)
  · obtain ⟨r, hr, hir⟩ := hreserved
    exact hapart r hr i hi hir

theorem first_eq (h : Placed w w' kind payload landing) (hj : j ≠ kind) :
    first? j.entryType w'.entries = first? j.entryType w.entries :=
  h.first_of_ne _ (fun ht => hj (entryType_injective ht)) (entryType_ne_unused j)

/-- The region of another entry stays what it is, as long as its bytes do. -/
theorem region_of_agree (h : Placed w w' kind payload landing) (hj : j ≠ kind) {r : Nat × Nat}
    (hr : w.region? j = some r)
    (hagree : j = .acm → Bytes.Agree w'.image w.image (r.1, r.1 + acmHeaderSize)) :
    w'.region? j = some r := by
  obtain ⟨e, hfirst, hregion⟩ := region?_eq_some_iff.1 hr
  refine region?_eq_some_iff.2 ⟨e, (h.first_eq hj).trans hfirst, ?_⟩
  by_cases hacm : j = .acm
  · exact Entry.region_congr h.length_eq (hagree hacm) hregion
  · refine Entry.region_congr_of_ne ?_ h.length_eq hregion
    rw [type_of_first? hfirst]
    intro ht
    exact hacm (entryType_injective (k := .acm) ht)

/-- The region of an entry that is not for a module does not depend on the image. -/
theorem region_iff (h : Placed w w' kind payload landing) (hj : j ≠ kind) (hacm : j ≠ .acm)
    {r : Nat × Nat} : w'.region? j = some r ↔ w.region? j = some r :=
  ⟨region?_congr h.length_eq.symm (h.first_eq hj).symm hacm,
    region?_congr h.length_eq (h.first_eq hj) hacm⟩

/-- The payload that was placed can be extracted. -/
theorem referred_self (h : Placed w w' kind payload landing) (hp : Placeable kind payload) :
    w'.referred kind = .ok payload := by
  have hpos : 0 < payload.length := List.length_pos_iff.2 hp.ne_nil
  have heq := h.landing_eq
  refine (referred_eq_ok_iff h.valid).2 ⟨landing, h.region_eq, by omega, ?_, ?_⟩
  · rw [h.length_eq]
    exact h.landing_le
  · rw [heq, Nat.add_sub_cancel_left, h.slice_eq]

/-- What another entry refers to is kept, if its bytes are. -/
theorem referred_of_agree (h : Placed w w' kind payload landing) (hw : w.Valid) (hj : j ≠ kind)
    {r : Nat × Nat} (hr : w.region? j = some r) (hagree : Bytes.Agree w'.image w.image r)
    (hheader : j = .acm → r.1 + acmHeaderSize ≤ r.2) {b : Bytes} (hb : w.referred j = .ok b) :
    w'.referred j = .ok b := by
  obtain ⟨r', hr', hlt, hle, rfl⟩ := (referred_eq_ok_iff hw).1 hb
  rw [hr] at hr'
  cases hr'
  have hregion : w'.region? j = some r := by
    refine h.region_of_agree hj hr fun hacm => hagree.mono fun i hi => ⟨hi.1, ?_⟩
    have := hheader hacm
    have := hi.2
    omega
  refine (referred_eq_ok_iff h.valid).2 ⟨r, hregion, hlt, by rw [h.length_eq]; exact hle, ?_⟩
  have hslice : Bytes.Agree w'.image w.image (r.1, r.1 + (r.2 - r.1)) := by
    rw [Nat.add_sub_cancel' (Nat.le_of_lt hlt)]
    exact hagree
  exact hslice.slice_eq.symm

end Placed

/-! ## Runs -/

/-- Payloads that can be placed one after the other: at most one of each kind, and a module
before all others. -/
structure Orderly (list : List (PayloadKind × Bytes)) : Prop where
  placeable : ∀ x ∈ list, Placeable x.1 x.2
  nodup : (list.map Prod.fst).Nodup
  acm_first : ∀ x ∈ list.tail, x.1 ≠ .acm

theorem Orderly.tail {x : PayloadKind × Bytes} (h : Orderly (x :: list)) : Orderly list where
  placeable := fun y hy => h.placeable y (List.mem_cons_of_mem _ hy)
  nodup := (List.nodup_cons.1 h.nodup).2
  acm_first := fun y hy => h.acm_first y (List.mem_of_mem_tail hy)

theorem Orderly.ne_head {x y : PayloadKind × Bytes} (h : Orderly (x :: list)) (hy : y ∈ list) :
    y.1 ≠ x.1 := by
  intro heq
  exact (List.nodup_cons.1 h.nodup).1 (heq ▸ List.mem_map_of_mem hy)

theorem Orderly.ne_acm {x y : PayloadKind × Bytes} (h : Orderly (x :: list)) (hy : y ∈ list) :
    y.1 ≠ .acm := h.acm_first y hy

theorem placeAll_valid (hlist : Orderly list) (hw : w.Valid) (h : w.placeAll list = .ok wf) :
    wf.Valid := by
  induction list generalizing w with
  | nil =>
    cases h
    exact hw
  | cons x list ih =>
    obtain ⟨kind, payload⟩ := x
    obtain ⟨w', hplace, hrun⟩ := placeAll_cons_eq_ok_iff.1 h
    obtain ⟨landing, hp⟩ := place_spec (hlist.placeable _ List.mem_cons_self) hw hplace
    exact ih hlist.tail hp.valid hrun

theorem Orderly.confined (hlist : Orderly list) (hw : w.Valid) (h : w.placeAll list = .ok wf) :
    Confined w wf (list.map Prod.fst) :=
  confined_of_placeAll hlist.nodup hlist.acm_first
    (fun _ _ e he => (hw e (mem_of_first? he)).2) h

/-- What a run keeps: the size of the image, valid entries, the entries of the kinds that are
not placed, and the number of entries that was foreseen. -/
theorem placeAll_spec (hlist : Orderly list) (hw : w.Valid) (h : w.placeAll list = .ok wf) :
    wf.image.length = w.image.length ∧ wf.Valid ∧
      (∀ j, j ∉ list.map Prod.fst →
        first? j.entryType wf.entries = first? j.entryType w.entries) ∧
      wf.entries.length = w.entries.length + growth w.entries (list.map Prod.fst) ∧
      w.reserved ⊆ wf.reserved := by
  have hconfined := hlist.confined hw h
  exact ⟨hconfined.length_eq, placeAll_valid hlist hw h, hconfined.first_eq,
    hconfined.length_entries hlist.nodup, hconfined.reserved_subset⟩

/-- A place in a reserved interval, outside what the payloads to come replace, keeps its byte
through the run. -/
theorem placeAll_frame (hlist : Orderly list) (hw : w.Valid) (h : w.placeAll list = .ok wf)
    {i : Nat} (hreserved : ∃ r ∈ w.reserved, Within i r)
    (hregions : ∀ x ∈ list, ∀ r, w.region? x.1 = some r → ¬ Within i r) :
    wf.image[i]? = w.image[i]? := by
  refine Decidable.byContradiction fun hi => ?_
  obtain ⟨k, hk, r, hr, hir⟩ | ⟨_, hfree⟩ := (hlist.confined hw h).changed i hi
  · obtain ⟨x, hx, rfl⟩ := List.mem_map.1 hk
    exact hregions x hx r hr hir
  · obtain ⟨r, hr, hir⟩ := hreserved
    exact hfree r hr hir

/-- In the end the entry for a payload still names the place where it landed. -/
theorem Placed.stands (hlist : Orderly ((kind, payload) :: list))
    (hp : Placed w w' kind payload landing) (hrun : w'.placeAll list = .ok wf) :
    Stands wf.entries wf.image.length kind landing.1 := by
  obtain ⟨hlen, _, hfirst, _, _⟩ := placeAll_spec hlist.tail hp.valid hrun
  obtain ⟨e, he, hregion⟩ := region?_eq_some_iff.1 hp.region_eq
  obtain ⟨o, size, ho, _, hlanding⟩ := Entry.region_eq_ok_iff.1 hregion
  obtain ⟨hpos, _⟩ := offsetOf_bounds (hp.valid e (mem_of_first? he)).2 ho
  have hstart : landing.1 = o.toNat := congrArg Prod.fst hlanding
  refine ⟨e, (hfirst kind (List.nodup_cons.1 hlist.nodup).1).trans he, ?_⟩
  rw [hlen, hstart, Int.toNat_of_nonneg hpos]
  exact ho

/-- Every payload lands apart from an interval that is reserved from the start and that the
payloads replace nothing of. -/
theorem placeAll_landing (hlist : Orderly list) (hw : w.Valid) (h : w.placeAll list = .ok wf)
    {t : Nat × Nat} (ht : t ∈ w.reserved)
    (hregions : ∀ x ∈ list, ∀ r, w.region? x.1 = some r → Apart r t) :
    ∀ x ∈ list, ∃ o, Stands wf.entries wf.image.length x.1 o ∧
      Apart (o, o + x.2.length) t := by
  induction list generalizing w with
  | nil =>
    intro x hx
    cases hx
  | cons x list ih =>
    obtain ⟨kind, payload⟩ := x
    obtain ⟨w', hplace, hrun⟩ := placeAll_cons_eq_ok_iff.1 h
    obtain ⟨landing, hp⟩ := place_spec (hlist.placeable _ List.mem_cons_self) hw hplace
    intro y hy
    obtain rfl | hy := List.mem_cons.1 hy
    · refine ⟨landing.1, hp.stands hlist hrun, ?_⟩
      rw [← hp.landing_eq]
      obtain ⟨_, r, hr, hsub⟩ | ⟨_, hapart⟩ := hp.in_place_or_moved
      · exact (hregions _ List.mem_cons_self r hr).mono hsub
      · exact hapart t ht
    · refine ih hlist.tail hp.valid hrun (hp.reserved_subset ht) ?_ y hy
      intro z hz r hr
      rw [hp.region_iff (hlist.ne_head hz) (hlist.ne_acm hz)] at hr
      exact hregions z (List.mem_cons_of_mem _ hz) r hr

/-! ## What is kept -/

/-- No step of the run changes what the kinds that are `live` refer to. A kind becomes live
when its payload is placed. -/
def Undisturbed (live : PayloadKind → Prop) (w : Workspace) :
    List (PayloadKind × Bytes) → Prop
  | [] => True
  | (kind, payload) :: list => ∀ w', w.place kind payload = .ok w' →
      (∀ j, live j → w'.referred j = w.referred j) ∧
        Undisturbed (fun j => live j ∨ j = kind) w' list

/-- At the end of a run every payload can be extracted, and so can all that was live. -/
def Kept (live : PayloadKind → Prop) (w wf : Workspace) (list : List (PayloadKind × Bytes)) :
    Prop :=
  (∀ j, live j → wf.referred j = w.referred j) ∧ ∀ x ∈ list, wf.referred x.1 = .ok x.2

theorem kept_of_undisturbed {live : PayloadKind → Prop} (hlist : Orderly list) (hw : w.Valid)
    (h : w.placeAll list = .ok wf) (hund : w.Undisturbed live list) : Kept live w wf list := by
  induction list generalizing w live with
  | nil =>
    cases h
    exact ⟨fun _ _ => rfl, by simp⟩
  | cons x list ih =>
    obtain ⟨kind, payload⟩ := x
    obtain ⟨w', hplace, hrun⟩ := placeAll_cons_eq_ok_iff.1 h
    have hpayload := hlist.placeable _ List.mem_cons_self
    obtain ⟨landing, hp⟩ := place_spec hpayload hw hplace
    obtain ⟨hstep, hund'⟩ := hund w' hplace
    obtain ⟨hlive, hplaced⟩ := ih hlist.tail hp.valid hrun hund'
    constructor
    · intro j hj
      exact (hlive j (.inl hj)).trans (hstep j hj)
    · intro y hy
      obtain rfl | hy := List.mem_cons.1 hy
      · exact (hlive kind (.inr rfl)).trans (hp.referred_self hpayload)
      · exact hplaced y hy

/-- Nothing is disturbed where no payload replaces anything and all that is live is reserved: then
every payload moves, and is reserved in its turn. -/
theorem undisturbed_of_absent {live : PayloadKind → Prop} (hlist : Orderly list) (hw : w.Valid)
    (habsent : ∀ x ∈ list, w.region? x.1 = none)
    (hlive : ∀ j, live j → j ∉ list.map Prod.fst ∧ ∃ b r, w.referred j = .ok b ∧
      w.region? j = some r ∧ r ∈ w.reserved ∧ (j = .acm → r.1 + acmHeaderSize ≤ r.2)) :
    w.Undisturbed live list := by
  induction list generalizing w live with
  | nil => trivial
  | cons x list ih =>
    obtain ⟨kind, payload⟩ := x
    intro w' hplace
    have hpayload := hlist.placeable _ List.mem_cons_self
    obtain ⟨landing, hp⟩ := place_spec hpayload hw hplace
    have hnone := habsent _ List.mem_cons_self
    have hkeep : ∀ j, live j → j ≠ kind := by
      rintro j hj rfl
      exact (hlive j hj).1 List.mem_cons_self
    have hagree : ∀ r ∈ w.reserved, Bytes.Agree w'.image w.image r := by
      intro r hr i hi
      refine hp.getElem?_of_reserved ⟨r, hr, hi⟩ fun s hs => ?_
      rw [hnone] at hs
      cases hs
    have hstep : ∀ j, live j → w'.referred j = w.referred j := by
      intro j hj
      obtain ⟨_, b, r, hb, hr, hmem, hheader⟩ := hlive j hj
      rw [hb]
      exact hp.referred_of_agree hw (hkeep j hj) hr (hagree r hmem) hheader hb
    refine ⟨hstep, ih hlist.tail hp.valid ?_ ?_⟩
    · intro y hy
      have hy0 := habsent y (List.mem_cons_of_mem _ hy)
      refine Option.eq_none_iff_forall_ne_some.2 fun r hr => ?_
      rw [hp.region_iff (hlist.ne_head hy) (hlist.ne_acm hy), hy0] at hr
      cases hr
    · rintro j (hj | rfl)
      · obtain ⟨hnot, b, r, hb, hr, hmem, hheader⟩ := hlive j hj
        refine ⟨fun h => hnot (List.mem_cons_of_mem _ h), b, r, (hstep j hj).trans hb, ?_,
          hp.reserved_subset hmem, hheader⟩
        refine hp.region_of_agree (hkeep j hj) hr fun hacm => ?_
        refine (hagree r hmem).mono fun i hi => ⟨hi.1, ?_⟩
        exact Nat.lt_of_lt_of_le hi.2 (hheader hacm)
      · refine ⟨(List.nodup_cons.1 hlist.nodup).1, payload, landing, hp.referred_self hpayload,
          hp.region_eq, ?_, ?_⟩
        · obtain ⟨_, r, hr, _⟩ | ⟨hreserved, _⟩ := hp.in_place_or_moved
          · rw [hnone] at hr
            cases hr
          · rw [hreserved]
            exact List.mem_append_right _ List.mem_cons_self
        · rintro rfl
          rw [hp.landing_eq]
          exact Nat.add_le_add_left (acmSize_of_take (hpayload.acm rfl) rfl).1 _

/-- What is live is apart from what the payloads to come replace, or else reserved; and what
these replace is pairwise apart. A live module contains its header. -/
structure Spread (live : PayloadKind → Prop) (w : Workspace) (list : List (PayloadKind × Bytes)) :
    Prop where
  live_ok : ∀ j, live j → ∃ b, w.referred j = .ok b
  not_pending : ∀ j, live j → ∀ x ∈ list, j ≠ x.1
  live_apart : ∀ j, live j → ∀ r, w.region? j = some r →
    r ∈ w.reserved ∨ ∀ x ∈ list, ∀ s, w.region? x.1 = some s → Apart r s
  pending_apart : ∀ x ∈ list, ∀ y ∈ list, x.1 ≠ y.1 → ∀ r s, w.region? x.1 = some r →
    w.region? y.1 = some s → Apart r s
  header : live .acm → ∀ r, w.region? .acm = some r → r.1 + acmHeaderSize ≤ r.2

/-- Two images in which the same entry refers to the same bytes agree there. -/
theorem agree_of_referred {w1 w2 : Workspace} (h1 : w1.Valid) (h2 : w2.Valid)
    (hlen : w2.image.length = w1.image.length)
    (hfirst : first? j.entryType w2.entries = first? j.entryType w1.entries) {b : Bytes}
    (hb1 : w1.referred j = .ok b) (hb2 : w2.referred j = .ok b) :
    ∃ r, w1.region? j = some r ∧ w2.region? j = some r ∧ r.1 < r.2 ∧ r.2 ≤ w1.image.length ∧
      Bytes.Agree w2.image w1.image r := by
  obtain ⟨r1, hr1, hlt1, hle1, hslice1⟩ := (referred_eq_ok_iff h1).1 hb1
  obtain ⟨r2, hr2, hlt2, hle2, hslice2⟩ := (referred_eq_ok_iff h2).1 hb2
  have hsize1 := congrArg List.length hslice1
  have hsize2 := congrArg List.length hslice2
  rw [List.length_take, List.length_drop] at hsize1 hsize2
  obtain ⟨e1, hfirst1, hregion1⟩ := region?_eq_some_iff.1 hr1
  obtain ⟨e2, hfirst2, hregion2⟩ := region?_eq_some_iff.1 hr2
  rw [hfirst, hfirst1] at hfirst2
  cases hfirst2
  obtain ⟨o1, s1, hoff1, _, rfl⟩ := Entry.region_eq_ok_iff.1 hregion1
  obtain ⟨o2, s2, hoff2, _, rfl⟩ := Entry.region_eq_ok_iff.1 hregion2
  rw [hlen, hoff1] at hoff2
  cases hoff2
  dsimp only at hlt1 hle1 hlt2 hle2 hsize1 hsize2 hslice1 hslice2
  have hs : s2 = s1 := by omega
  subst hs
  refine ⟨_, hr1, hr2, hlt1, hle1, ?_⟩
  rw [Nat.add_sub_cancel_left] at hslice1 hslice2
  exact Bytes.agree_of_slice_eq (hslice2.symm.trans hslice1)

section Exact

variable {live : PayloadKind → Prop}

/-- No later step undoes a change in a live region: where the image is in the end what it was
before a step, it is so behind that step. -/
theorem agree_of_final (hlist : Orderly ((kind, payload) :: list))
    (hspread : Spread live w ((kind, payload) :: list)) (hp : Placed w w' kind payload landing)
    (hrun : w'.placeAll list = .ok wf) (hj : live j) {r : Nat × Nat} (hr : w.region? j = some r)
    (hfinal : Bytes.Agree wf.image w.image r) : Bytes.Agree w'.image w.image r := by
  intro i hi
  -- a byte that this step touches is safe from all later ones
  have hsafe : (∃ s ∈ w'.reserved, Within i s) →
      (∀ x ∈ list, ∀ s, w.region? x.1 = some s → ¬ Within i s) →
      w'.image[i]? = w.image[i]? := by
    intro hreserved hregions
    have hlater := placeAll_frame hlist.tail hp.valid hrun hreserved (by
      intro x hx s hs
      rw [hp.region_iff (hlist.ne_head hx) (hlist.ne_acm hx)] at hs
      exact hregions x hx s hs)
    exact hlater.symm.trans (hfinal i hi)
  by_cases hold : ∃ s, w.region? kind = some s ∧ Within i s
  · obtain ⟨s, hs, his⟩ := hold
    obtain hreserved | hapart := hspread.live_apart j hj r hr
    · refine hsafe ⟨r, hp.reserved_subset hreserved, hi⟩ ?_
      intro x hx t ht
      have hne : kind ≠ x.1 := fun h => hlist.ne_head hx h.symm
      exact hspread.pending_apart _ List.mem_cons_self x (List.mem_cons_of_mem _ hx) hne s t hs ht
        i his
    · exact absurd his (hapart _ List.mem_cons_self s hs i hi)
  · have hnotold : ∀ s, w.region? kind = some s → ¬ Within i s := by
      intro s hs his
      exact hold ⟨s, hs, his⟩
    by_cases hland : Within i landing
    · obtain ⟨_, s, hs, hsub⟩ | ⟨hreserved, hapart⟩ := hp.in_place_or_moved
      · exact absurd (hsub i hland) (hnotold s hs)
      · refine hsafe ⟨landing, ?_, hland⟩ ?_
        · rw [hreserved]
          exact List.mem_append_right _ List.mem_cons_self
        · intro x hx s hs his
          obtain hmem | hout := hspread.live_apart j hj r hr
          · exact hapart r hmem i hland hi
          · exact hout x (List.mem_cons_of_mem _ hx) s hs i hi his
    · exact hp.frame i hland hnotold

/-- What is live stands where it stood if a step keeps it, with the same bytes. -/
theorem Spread.agree_of_kept (hw : w.Valid) (hspread : Spread live w ((kind, payload) :: list))
    (hp : Placed w w' kind payload landing) (hj : live j)
    (hkept : w'.referred j = w.referred j) :
    ∃ r, w.region? j = some r ∧ w'.region? j = some r ∧ Bytes.Agree w'.image w.image r := by
  have hne := hspread.not_pending j hj _ List.mem_cons_self
  obtain ⟨b, hb⟩ := hspread.live_ok j hj
  obtain ⟨r, hr, hr', _, _, hagree⟩ :=
    agree_of_referred hw hp.valid hp.length_eq (hp.first_eq hne) hb (hkept.trans hb)
  exact ⟨r, hr, hr', hagree⟩

/-- Behind a step that disturbs nothing all is spread as before. -/
theorem Spread.step (hlist : Orderly ((kind, payload) :: list)) (hw : w.Valid)
    (hspread : Spread live w ((kind, payload) :: list)) (hp : Placed w w' kind payload landing)
    (hkept : ∀ j, live j → w'.referred j = w.referred j) :
    Spread (fun j => live j ∨ j = kind) w' list := by
  have hpayload := hlist.placeable _ List.mem_cons_self
  have hregion : ∀ j, live j → ∀ r, w'.region? j = some r → w.region? j = some r := by
    intro j hj r hr
    obtain ⟨s, hs, hs', _⟩ := hspread.agree_of_kept hw hp hj (hkept j hj)
    rw [hr] at hs'
    cases hs'
    exact hs
  constructor
  · rintro j (hj | rfl)
    · rw [hkept j hj]
      exact hspread.live_ok j hj
    · exact ⟨payload, hp.referred_self hpayload⟩
  · rintro j (hj | rfl) x hx
    · exact hspread.not_pending j hj x (List.mem_cons_of_mem _ hx)
    · exact fun h => hlist.ne_head hx h.symm
  · rintro j (hj | rfl) r hr
    · obtain hmem | hapart := hspread.live_apart j hj r (hregion j hj r hr)
      · exact .inl (hp.reserved_subset hmem)
      · refine .inr fun x hx s hs => ?_
        rw [hp.region_iff (hlist.ne_head hx) (hlist.ne_acm hx)] at hs
        exact hapart x (List.mem_cons_of_mem _ hx) s hs
    · rw [hp.region_eq] at hr
      cases hr
      obtain ⟨_, s, hs, hsub⟩ | ⟨hreserved, _⟩ := hp.in_place_or_moved
      · refine .inr fun x hx t ht => ?_
        rw [hp.region_iff (hlist.ne_head hx) (hlist.ne_acm hx)] at ht
        have hne : j ≠ x.1 := fun h => hlist.ne_head hx h.symm
        exact (hspread.pending_apart _ List.mem_cons_self x (List.mem_cons_of_mem _ hx) hne s t
          hs ht).mono hsub
      · left
        rw [hreserved]
        exact List.mem_append_right _ List.mem_cons_self
  · intro x hx y hy hne r s hr hs
    rw [hp.region_iff (hlist.ne_head hx) (hlist.ne_acm hx)] at hr
    rw [hp.region_iff (hlist.ne_head hy) (hlist.ne_acm hy)] at hs
    exact hspread.pending_apart x (List.mem_cons_of_mem _ hx) y (List.mem_cons_of_mem _ hy) hne r
      s hr hs
  · rintro (hj | hj) r hr
    · exact hspread.header hj r (hregion _ hj r hr)
    · rw [hj, hp.region_eq] at hr
      cases hr
      rw [hp.landing_eq]
      have hheader : acmHeaderSize ≤ payload.length :=
        (acmSize_of_take (hpayload.acm hj.symm) rfl).1
      exact Nat.add_le_add_left hheader _

theorem undisturbed_of_kept (hlist : Orderly list) (hw : w.Valid)
    (hspread : Spread live w list) (h : w.placeAll list = .ok wf) (hkept : Kept live w wf list) :
    w.Undisturbed live list := by
  induction list generalizing w live with
  | nil => trivial
  | cons x list ih =>
    obtain ⟨kind, payload⟩ := x
    obtain ⟨w1, hplace1, hrun⟩ := placeAll_cons_eq_ok_iff.1 h
    intro w' hplace
    rw [hplace1] at hplace
    cases hplace
    obtain ⟨landing, hp⟩ := place_spec (hlist.placeable _ List.mem_cons_self) hw hplace1
    obtain ⟨hlen, hvalid, hfirst, _, _⟩ := placeAll_spec hlist hw h
    have hstep : ∀ j, live j → w1.referred j = w.referred j := by
      intro j hj
      have hnot : j ∉ ((kind, payload) :: list).map Prod.fst := by
        intro hmem
        obtain ⟨x, hx, rfl⟩ := List.mem_map.1 hmem
        exact hspread.not_pending _ hj x hx rfl
      have hne := hspread.not_pending j hj _ List.mem_cons_self
      obtain ⟨b, hb⟩ := hspread.live_ok j hj
      obtain ⟨r, hr, _, _, _, hagree⟩ :=
        agree_of_referred hw hvalid hlen (hfirst j hnot) hb ((hkept.1 j hj).trans hb)
      have hagree' := agree_of_final hlist hspread hp hrun hj hr hagree
      rw [hb]
      refine hp.referred_of_agree hw hne hr hagree' ?_ hb
      rintro rfl
      exact hspread.header hj r hr
    refine ⟨hstep, ih hlist.tail hp.valid (hspread.step hlist hw hp hstep) hrun ⟨?_, ?_⟩⟩
    · rintro j (hj | rfl)
      · exact (hkept.1 j hj).trans (hstep j hj).symm
      · rw [hp.referred_self (hlist.placeable _ List.mem_cons_self)]
        exact hkept.2 _ List.mem_cons_self
    · intro y hy
      exact hkept.2 y (List.mem_cons_of_mem _ hy)

/-- A run keeps everything exactly if no step disturbs anything. -/
theorem undisturbed_iff_kept (hlist : Orderly list) (hw : w.Valid)
    (hspread : Spread live w list) (h : w.placeAll list = .ok wf) :
    w.Undisturbed live list ↔ Kept live w wf list :=
  ⟨kept_of_undisturbed hlist hw h, undisturbed_of_kept hlist hw hspread h⟩

end Exact

end Workspace

end BootGuard.Fit
