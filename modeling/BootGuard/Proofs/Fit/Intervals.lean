/-
  Intervals of places in a byte string, and what overwriting does to them.

  Overwriting changes the bytes of one interval. `Agree a b r` says that two strings have the
  same bytes in the interval `r`; nothing that is written apart from `r` breaks it.
-/
import BootGuard.Bytes

namespace BootGuard

namespace Fit

/-- The place `i` is in the interval `r`, whose end is no part of it. -/
def Within (i : Nat) (r : Nat × Nat) : Prop := r.1 ≤ i ∧ i < r.2

/-- No place is in both intervals. -/
def Apart (r s : Nat × Nat) : Prop := ∀ i, Within i r → ¬ Within i s

theorem Apart.symm {r s : Nat × Nat} (h : Apart r s) : Apart s r := fun i hs hr => h i hr hs

theorem Apart.mono {r r' s : Nat × Nat} (h : Apart r s) (hr : ∀ i, Within i r' → Within i r) :
    Apart r' s := fun i hi => h i (hr i hi)

theorem apart_of_le {r s : Nat × Nat} (h : r.2 ≤ s.1) : Apart r s := by
  intro i hr hs
  unfold Within at hr hs
  omega

instance (i : Nat) (r : Nat × Nat) : Decidable (Within i r) :=
  inferInstanceAs (Decidable (_ ∧ _))

end Fit

namespace Bytes

open Fit

theorem length_erased (n : Nat) : (erased n).length = n := List.length_replicate

theorem getElem?_erased {n i : Nat} (h : i < n) : (erased n)[i]? = some 0xFF := by
  rw [erased, List.getElem?_replicate, if_pos h]

/-- The bytes of two strings are the same in an interval. -/
def Agree (a b : Bytes) (r : Nat × Nat) : Prop := ∀ i, Within i r → a[i]? = b[i]?

theorem Agree.symm {a b : Bytes} {r : Nat × Nat} (h : Agree a b r) : Agree b a r :=
  fun i hi => (h i hi).symm

theorem Agree.mono {a b : Bytes} {r s : Nat × Nat} (h : Agree a b r)
    (hs : ∀ i, Within i s → Within i r) : Agree a b s := fun i hi => h i (hs i hi)

theorem getElem?_slice (b : Bytes) (start size i : Nat) :
    ((b.drop start).take size)[i]? = if i < size then b[start + i]? else none := by
  rw [List.getElem?_take]
  split
  · rw [List.getElem?_drop]
  · rfl

/-- Strings that agree in an interval have the same slice there. -/
theorem Agree.slice_eq {a b : Bytes} {start size : Nat} (h : Agree a b (start, start + size)) :
    (a.drop start).take size = (b.drop start).take size := by
  apply List.ext_getElem?
  intro i
  rw [getElem?_slice, getElem?_slice]
  split
  · exact h (start + i) ⟨Nat.le_add_right _ _, by omega⟩
  · rfl

/-- Strings that agree in an interval have the same slices inside it. -/
theorem Agree.slice_eq_of_le {a b : Bytes} {r : Nat × Nat} {start size : Nat}
    (h : Agree a b r) (hstart : r.1 ≤ start) (hstop : start + size ≤ r.2) :
    (a.drop start).take size = (b.drop start).take size :=
  (h.mono (s := (start, start + size)) fun _ hi =>
    ⟨Nat.le_trans hstart hi.1, Nat.lt_of_lt_of_le hi.2 hstop⟩).slice_eq

theorem agree_of_slice_eq {a b : Bytes} {start size : Nat}
    (h : (a.drop start).take size = (b.drop start).take size) :
    Agree a b (start, start + size) := by
  rintro i ⟨h1, h2⟩
  have hi : i - start < size := by omega
  have hget := congrArg (·[i - start]?) h
  simp only [getElem?_slice, hi, if_true] at hget
  rwa [Nat.add_sub_cancel' h1] at hget

theorem getElem?_overwrite {b payload : Bytes} {offset : Nat}
    (h : offset + payload.length ≤ b.length) (i : Nat) :
    (b.overwrite offset payload)[i]? =
      if Within i (offset, offset + payload.length) then payload[i - offset]? else b[i]? := by
  have htake : (b.take offset).length = offset := by
    rw [List.length_take]
    omega
  rw [overwrite, List.getElem?_append, htake]
  split
  · rename_i hi
    rw [if_neg fun hw => Nat.not_le_of_lt hi hw.1, List.getElem?_take, if_pos hi]
  · rename_i hi
    rw [List.getElem?_append]
    split
    · rename_i hp
      rw [if_pos ⟨Nat.le_of_not_lt hi, by show i < _; omega⟩]
    · rename_i hp
      have hout : ¬ Within i (offset, offset + payload.length) := by
        intro hall
        obtain ⟨_, h2⟩ := hall
        exact hp (by show _ < _; change i < _ at h2; omega)
      rw [if_neg hout, List.getElem?_drop]
      congr 1
      omega

theorem getElem?_overwrite_of_not_within {b payload : Bytes} {offset i : Nat}
    (h : offset + payload.length ≤ b.length)
    (hi : ¬ Within i (offset, offset + payload.length)) :
    (b.overwrite offset payload)[i]? = b[i]? := by
  rw [getElem?_overwrite h, if_neg hi]

/-- Strings that differ only where both are overwritten are the same behind that. -/
theorem overwrite_congr {a b payload : Bytes} {offset : Nat} (hlen : a.length = b.length)
    (hle : offset + payload.length ≤ b.length)
    (h : ∀ i, ¬ Within i (offset, offset + payload.length) → a[i]? = b[i]?) :
    a.overwrite offset payload = b.overwrite offset payload := by
  apply List.ext_getElem?
  intro i
  rw [getElem?_overwrite (hlen ▸ hle), getElem?_overwrite hle]
  split
  · rfl
  · rename_i hi
    exact h i hi

/-- What is written apart from an interval leaves it as it is. -/
theorem agree_overwrite {b payload : Bytes} {offset : Nat} {r : Nat × Nat}
    (h : offset + payload.length ≤ b.length) (hr : Apart (offset, offset + payload.length) r) :
    Agree (b.overwrite offset payload) b r := fun i hi =>
  getElem?_overwrite_of_not_within h fun hw => hr i hw hi

/-- What was written stands there. -/
theorem slice_overwrite {b payload : Bytes} {offset : Nat}
    (h : offset + payload.length ≤ b.length) :
    ((b.overwrite offset payload).drop offset).take payload.length = payload := by
  apply List.ext_getElem?
  intro i
  rw [getElem?_slice]
  split
  · rename_i hi
    rw [getElem?_overwrite h, if_pos ⟨Nat.le_add_right _ _, by show _ < _; omega⟩,
      Nat.add_sub_cancel_left]
  · rename_i hi
    rw [List.getElem?_eq_none (Nat.le_of_not_lt hi)]

/-- Writing what stands there changes nothing. -/
theorem overwrite_eq_self {b payload : Bytes} {offset : Nat}
    (h : (b.drop offset).take payload.length = payload) : b.overwrite offset payload = b := by
  have hsplit := List.take_append_drop payload.length (b.drop offset)
  rw [h, List.drop_drop] at hsplit
  rw [overwrite, hsplit, List.take_append_drop]

/-- Another byte in what is written is another byte of the result. -/
theorem overwrite_set {b payload : Bytes} {offset k : Nat}
    (h : offset + payload.length ≤ b.length) (hk : k < payload.length) (x : UInt8) :
    b.overwrite offset (payload.set k x) = (b.overwrite offset payload).set (offset + k) x := by
  have htake : (b.take offset).length = offset := by
    rw [List.length_take]
    omega
  rw [overwrite, overwrite, List.length_set, List.set_append_right _ _ (by omega), htake,
    Nat.add_sub_cancel_left, List.set_append_left _ _ hk]

/-- The front of what was written stands there. -/
theorem slice_overwrite_front {b x y : Bytes} {offset : Nat}
    (h : offset + (x ++ y).length ≤ b.length) :
    ((b.overwrite offset (x ++ y)).drop offset).take x.length = x := by
  have hlen : x.length ≤ (x ++ y).length := by
    rw [List.length_append]
    omega
  rw [← Nat.min_eq_left hlen, ← List.take_take, slice_overwrite h, List.take_left]

end Bytes

end BootGuard
