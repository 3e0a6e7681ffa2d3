/-
  The bytes that payloads write over one another.

  A payload that moves can be written where another one stands, if what stands there is erased.
  `Spared` says of a table and the places it names that this does no harm: wherever a payload
  is written over something that is to be kept, or erases it with the rest of what it took the
  place of, the bytes are the same. It knows nothing of the run but where the payloads stand
  in the end; `undisturbed_iff_spared` says that the run disturbs nothing exactly if it holds.
-/
import BootGuard.Proofs.Fit.Run

namespace BootGuard.Fit

/-- The byte `v` at `i` is what the payload `x` leaves there: `x` is written with the same byte,
or else erases what it took the place of and `v` is an erased byte. The entries are `es` in
`image` and `es'` once `x` stands. -/
def Spares (image : Bytes) (es es' : List Entry) (x : PayloadKind × Bytes) (i : Nat)
    (v : Option UInt8) : Prop :=
  ∀ o, Stands es' image.length x.1 o →
    if Within i (o, o + x.2.length) then x.2[i - o]? = v
    else ∀ r, regionOf image es x.1 = some r → Within i r → v = some 0xFF

/-- The payloads spare one another, and what the entries for the kinds that are `live` refer to
in `image`. A payload has to be spared by those that come after it. -/
structure Spared (live : PayloadKind → Prop) (image : Bytes) (es es' : List Entry)
    (list : List (PayloadKind × Bytes)) : Prop where
  of_live : ∀ j, live j → ∀ r, regionOf image es j = some r → ∀ i, Within i r →
    ∀ x ∈ list, Spares image es es' x i image[i]?
  of_placed : list.Pairwise fun x y => ∀ o, Stands es' image.length x.1 o →
    ∀ i, Within i (o, o + x.2.length) → Spares image es es' y i x.2[i - o]?

namespace Workspace

variable {w w' wf : Workspace} {kind : PayloadKind} {payload : Bytes} {landing : Nat × Nat}
  {list : List (PayloadKind × Bytes)} {es' : List Entry} {live : PayloadKind → Prop}

namespace Placed

/-- What is written where the payload landed. -/
theorem getElem?_landing (h : Placed w w' kind payload landing) {i : Nat}
    (hi : Within i landing) : w'.image[i]? = payload[i - landing.1]? := by
  have hpos : i - landing.1 < payload.length := by
    have := h.landing_eq
    have := hi.1
    have := hi.2
    omega
  rw [← congrArg (·[i - landing.1]?) h.slice_eq, Bytes.getElem?_slice, if_pos hpos,
    Nat.add_sub_cancel' hi.1]

/-- A step keeps exactly the bytes that its payload spares. -/
theorem getElem?_eq_iff_spares (h : Placed w w' kind payload landing)
    (hstands : Stands es' w.image.length kind landing.1) (i : Nat) :
    w'.image[i]? = w.image[i]? ↔
      Spares w.image w.entries es' (kind, payload) i w.image[i]? := by
  have hspares : Spares w.image w.entries es' (kind, payload) i w.image[i]? ↔
      if Within i landing then payload[i - landing.1]? = w.image[i]?
      else ∀ r, w.region? kind = some r → Within i r → w.image[i]? = some 0xFF := by
    have hlanding : landing = (landing.1, landing.1 + payload.length) :=
      Prod.ext rfl h.landing_eq
    constructor
    · intro hall
      rw [hlanding]
      exact hall _ hstands
    · intro hall o ho
      rw [hlanding] at hall
      cases hstands.eq ho
      exact hall
  rw [hspares]
  split
  · rename_i hi
    rw [h.getElem?_landing hi]
  · rename_i hi
    constructor
    · intro heq r hr hir
      rw [← heq]
      exact h.erased i hi r hr hir
    · intro hall
      by_cases hold : ∃ r, w.region? kind = some r ∧ Within i r
      · obtain ⟨r, hr, hir⟩ := hold
        rw [h.erased i hi r hr hir, hall r hr hir]
      · exact h.frame i hi fun r hr hir => hold ⟨r, hr, hir⟩

/-- A later payload spares the same bytes before the step and behind it. -/
theorem spares_iff (h : Placed w w' kind payload landing) {y : PayloadKind × Bytes}
    (hne : y.1 ≠ kind) (hacm : y.1 ≠ .acm) (i : Nat) (v : Option UInt8) :
    Spares w'.image w'.entries es' y i v ↔ Spares w.image w.entries es' y i v := by
  have hregion : ∀ r, regionOf w'.image w'.entries y.1 = some r ↔
      regionOf w.image w.entries y.1 = some r := fun r => h.region_iff hne hacm
  unfold Spares
  simp only [h.length_eq, hregion]

/-- What is live is kept exactly if the payload spares it. -/
theorem referred_iff_spares (hw : w.Valid) (hspread : Spread live w ((kind, payload) :: list))
    (h : Placed w w' kind payload landing)
    (hstands : Stands es' w.image.length kind landing.1) :
    (∀ j, live j → w'.referred j = w.referred j) ↔
      ∀ j, live j → ∀ r, w.region? j = some r → ∀ i, Within i r →
        Spares w.image w.entries es' (kind, payload) i w.image[i]? := by
  constructor
  · intro hkept j hj r hr i hi
    obtain ⟨s, hs, _, hagree⟩ := hspread.agree_of_kept hw h hj (hkept j hj)
    rw [hr] at hs
    cases hs
    exact (h.getElem?_eq_iff_spares hstands i).1 (hagree i hi)
  · intro hspares j hj
    have hne := hspread.not_pending j hj _ List.mem_cons_self
    obtain ⟨b, hb⟩ := hspread.live_ok j hj
    obtain ⟨r, hr, _⟩ := (referred_eq_ok_iff hw).1 hb
    have hagree : Bytes.Agree w'.image w.image r := fun i hi =>
      (h.getElem?_eq_iff_spares hstands i).2 (hspares j hj r hr i hi)
    rw [hb]
    refine h.referred_of_agree hw hne hr hagree ?_ hb
    rintro rfl
    exact hspread.header hj r hr

/-- Behind a step that keeps all that is live, the payload is live as well and the others have
to spare it. -/
theorem spared_cons_iff (hlist : Orderly ((kind, payload) :: list)) (hw : w.Valid)
    (hspread : Spread live w ((kind, payload) :: list)) (h : Placed w w' kind payload landing)
    (hstands : Stands es' w.image.length kind landing.1)
    (hkept : ∀ j, live j → w'.referred j = w.referred j) :
    Spared live w.image w.entries es' ((kind, payload) :: list) ↔
      Spared (fun j => live j ∨ j = kind) w'.image w'.entries es' list := by
  have hspares : ∀ y ∈ list, ∀ i v, Spares w'.image w'.entries es' y i v ↔
      Spares w.image w.entries es' y i v := fun y hy i v =>
    h.spares_iff (hlist.ne_head hy) (hlist.ne_acm hy) i v
  -- the bytes of what was live are those of before, those of the new payload its own
  have hlive : ∀ j, live j → ∃ r, regionOf w.image w.entries j = some r ∧
      regionOf w'.image w'.entries j = some r ∧ Bytes.Agree w'.image w.image r := fun j hj =>
    hspread.agree_of_kept hw h hj (hkept j hj)
  have hlanding : landing = (landing.1, landing.1 + payload.length) := Prod.ext rfl h.landing_eq
  constructor
  · intro hspared
    obtain ⟨hhead, hplaced⟩ := List.pairwise_cons.1 hspared.of_placed
    constructor
    · rintro j (hj | rfl) r hr i hi y hy
      · obtain ⟨s, hs, hs', hagree⟩ := hlive j hj
        rw [hr] at hs'
        cases hs'
        rw [hspares y hy, hagree i hi]
        exact hspared.of_live j hj r hs i hi y (List.mem_cons_of_mem _ hy)
      · have heq : some r = some landing := hr.symm.trans h.region_eq
        cases heq
        rw [hspares y hy, h.getElem?_landing hi]
        exact hhead y hy _ hstands i (hlanding ▸ hi)
    · refine hplaced.imp_of_mem fun {x y} _ hy hxy => ?_
      intro o ho i hi
      rw [h.length_eq] at ho
      exact (hspares y hy i _).2 (hxy o ho i hi)
  · intro hspared
    constructor
    · intro j hj r hr i hi y hy
      obtain rfl | hy := List.mem_cons.1 hy
      · exact (referred_iff_spares hw hspread h hstands).1 hkept j hj r hr i hi
      · obtain ⟨s, hs, hs', hagree⟩ := hlive j hj
        rw [hr] at hs
        cases hs
        rw [← hspares y hy, ← hagree i hi]
        exact hspared.of_live j (.inl hj) r hs' i hi y hy
    · refine List.pairwise_cons.2 ⟨?_, ?_⟩
      · intro y hy o ho i hi
        cases hstands.eq ho
        rw [← hlanding] at hi
        rw [← hspares y hy, ← h.getElem?_landing hi]
        exact hspared.of_live kind (.inr rfl) landing h.region_eq i hi y hy
      · refine hspared.of_placed.imp_of_mem fun {x y} _ hy hxy => ?_
        intro o ho i hi
        rw [← h.length_eq] at ho
        exact (hspares y hy i _).1 (hxy o ho i hi)

end Placed

/-- No step of a run disturbs anything exactly if what is to be kept is spared by the payloads,
where these stand in the end. -/
theorem undisturbed_iff_spared (hlist : Orderly list) (hw : w.Valid)
    (hspread : Spread live w list) (h : w.placeAll list = .ok wf) :
    w.Undisturbed live list ↔ Spared live w.image w.entries wf.entries list := by
  induction list generalizing w live with
  | nil =>
    refine ⟨fun _ => ⟨?_, List.Pairwise.nil⟩, fun _ => trivial⟩
    intro _ _ _ _ _ _ x hx
    cases hx
  | cons x list ih =>
    obtain ⟨kind, payload⟩ := x
    obtain ⟨w', hplace, hrun⟩ := placeAll_cons_eq_ok_iff.1 h
    obtain ⟨landing, hp⟩ := place_spec (hlist.placeable _ List.mem_cons_self) hw hplace
    have hstands : Stands wf.entries w.image.length kind landing.1 :=
      (placeAll_spec hlist hw h).1 ▸ hp.stands hlist hrun
    -- the rest of the run, once this step is known to keep what is live
    have hrest : (∀ j, live j → w'.referred j = w.referred j) →
        (Undisturbed (fun j => live j ∨ j = kind) w' list ↔
          Spared live w.image w.entries wf.entries ((kind, payload) :: list)) := by
      intro hkept
      rw [hp.spared_cons_iff hlist hw hspread hstands hkept]
      exact ih hlist.tail hp.valid (hspread.step hlist hw hp hkept) hrun
    constructor
    · intro hund
      obtain ⟨hkept, htail⟩ := hund w' hplace
      exact (hrest hkept).1 htail
    · intro hspared w'' hplace'
      rw [hplace] at hplace'
      cases hplace'
      have hkept : ∀ j, live j → w'.referred j = w.referred j :=
        (hp.referred_iff_spares hw hspread hstands).2 fun j hj r hr i hi =>
          hspared.of_live j hj r hr i hi _ List.mem_cons_self
      exact ⟨hkept, (hrest hkept).2 hspared⟩

end Workspace

end BootGuard.Fit
