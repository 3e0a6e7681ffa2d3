/-
  Stitching payloads that the table has no entries for.

  Such payloads replace nothing, so every one of them moves to free space and is reserved there.
  All of them can be extracted from the result (`extract_of_absent`).
-/
import BootGuard.Proofs.Fit.Stitch

namespace BootGuard.Fit

/-- The table has no entry for any of the payloads. -/
def Absent (es : List Entry) (payloads : Payloads) : Prop :=
  ∀ kind, payloads.get kind ≠ [] → first? kind.entryType es = none

namespace Absent

variable {image : Bytes} {offset : Nat} {es : List Entry} {payloads : Payloads}

theorem regionOf_eq_none (h : Absent es payloads) {kind : PayloadKind}
    (hkind : payloads.get kind ≠ []) : regionOf image es kind = none := by
  refine Option.eq_none_iff_forall_ne_some.2 fun r hr => ?_
  obtain ⟨e, he, _⟩ := regionOf_eq_some_iff.1 hr
  rw [h kind hkind] at he
  cases he

/-- A table that ends in front of its pointer cannot grow over it. -/
theorem stitchable (h : Absent es payloads)
    (hplace : ∀ kind, payloads.get kind ≠ [] → Placeable kind (payloads.get kind))
    (hend : (tableInterval offset es payloads.kinds).2 + pointerDistance ≤ image.length) :
    Stitchable image offset es payloads where
  placeable := hplace
  tail_apart := by
    intro kind hkind r hr
    rw [h.regionOf_eq_none hkind] at hr
    cases hr
  pointer_apart := apart_of_le (by
    rw [pointerInterval]
    dsimp only
    omega)

end Absent

namespace Stitched

variable {image out table : Bytes} {payloads : Payloads} {offset : Nat} {header : Entry}
  {es : List Entry} {measured : List (Nat × Nat)} {w : Workspace}
  (h : Stitched image payloads out offset header es measured w table)
include h

/-- A table that ends in front of its pointer does so when it has grown. -/
theorem end_le (hend : offset + (es.length + 1) * entrySize + pointerDistance ≤ image.length) :
    (tableInterval offset es payloads.kinds).2 + pointerDistance ≤ image.length := by
  obtain hzero | hroom := h.room
  · rw [tableInterval, hzero]
    exact hend
  · exact hroom

variable (hs : Stitchable image offset es payloads) (habsent : Absent es payloads)
include hs habsent

/-- Every payload can be extracted from the result. -/
theorem extract_of_absent (hcount : es.length + 1 + growth es payloads.kinds < maxEntries)
    (kind : PayloadKind) (hkind : payloads.get kind ≠ []) :
    extract out kind.entryType = .ok (payloads.get kind) := by
  have hlist := Payloads.orderly hs.placeable
  have hvalid := valid_startWorkspace h.tableAt payloads.kinds measured
  have hnone : ∀ x ∈ payloads.toList,
      (startWorkspace image offset es payloads.kinds measured).region? x.1 = none := by
    intro x hx
    exact habsent.regionOf_eq_none (Payloads.mem_toList_iff.1 hx).2
  have hund : (startWorkspace image offset es payloads.kinds measured).Undisturbed
      (fun _ => False) payloads.toList :=
    Workspace.undisturbed_of_absent hlist hvalid hnone fun _ hj => hj.elim
  obtain ⟨_, hkept⟩ := Workspace.kept_of_undisturbed hlist hvalid h.run hund
  have hmem : (kind, payloads.get kind) ∈ payloads.toList :=
    Payloads.mem_toList_iff.2 ⟨rfl, hkind⟩
  obtain ⟨o, ⟨e, hfirst, ho⟩, hapart⟩ := Workspace.placeAll_landing hlist hvalid h.run
    List.mem_cons_self (fun x hx r hr => by rw [hnone x hx] at hr; cases hr) _ hmem
  obtain ⟨head, hhead⟩ := h.exists_tableAt hs hcount
  rw [extract_of_tableAt hhead]
  refine (h.referred_iff_of_apart hs hfirst ho hapart ?_).2 (hkept _ hmem)
  rintro rfl
  exact (acmSize_of_take ((hs.placeable _ hkind).acm rfl) rfl).1

end Stitched

end BootGuard.Fit
