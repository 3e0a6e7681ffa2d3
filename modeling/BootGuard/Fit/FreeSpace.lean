/-
  Free space in a flash image.

  A region is free if all its bytes are erased and it meets none of the reserved intervals. The
  search starts at the end of the image and goes down. Where a region is not free it goes on
  with the highest one that avoids what was in the way, so the first free region found is the
  highest.
-/
import BootGuard.Bytes

namespace BootGuard.Fit

/-- The highest multiple of `align` that is at most `v`. -/
def alignDown (v : Int) (align : Nat) : Int := v - v % align

theorem alignDown_le (v : Int) {align : Nat} (h : 0 < align) : alignDown v align ≤ v := by
  have : 0 ≤ v % (align : Int) := Int.emod_nonneg v (by omega)
  simp only [alignDown]
  omega

/-- Whether an interval meets the `size` bytes from `start` on. -/
def meets (start size : Nat) (r : Nat × Nat) : Bool := start < r.2 && r.1 < start + size

/-- The lowest start of the intervals that meet the `size` bytes from `start` on. -/
def lowestConflict? (reserved : List (Nat × Nat)) (start size : Nat) : Option Nat :=
  ((reserved.filter (meets start size)).map Prod.fst).min?

/-- The place of the last byte that is not erased among the `size` bytes from `start` on,
counted from `start`. -/
def lastUsed? (image : Array UInt8) (start : Nat) : Nat → Option Nat
  | 0 => none
  | size + 1 =>
    if image[start + size]? = some 0xFF then lastUsed? image start size else some size

theorem lastUsed?_lt {image : Array UInt8} {start size k : Nat}
    (h : lastUsed? image start size = some k) : k < size := by
  induction size with
  | zero => cases h
  | succ size ih =>
    unfold lastUsed? at h
    split at h
    · exact Nat.lt_succ_of_lt (ih h)
    · cases h
      exact Nat.lt_succ_self _

theorem lowestConflict?_lt {reserved : List (Nat × Nat)} {start size low : Nat}
    (h : lowestConflict? reserved start size = some low) : low < start + size := by
  have hmem := List.min?_mem h
  obtain ⟨r, hr, rfl⟩ := List.mem_map.1 hmem
  have := (List.mem_filter.1 hr).2
  simp only [meets, Bool.and_eq_true, decide_eq_true_eq] at this
  exact this.2

/-- The highest free region of `size` bytes that starts at a multiple of `align`, at `start` or
below. -/
def searchFrom (image : Array UInt8) (size : Nat) {align : Nat} (halign : 0 < align)
    (reserved : List (Nat × Nat)) (start : Int) : Option Nat :=
  if hs : start < 0 then none
  else
    have := Int.not_lt.1 hs
    match hc : lowestConflict? reserved start.toNat size with
    | some low =>
      have : (low : Int) < start + size := by
        have := lowestConflict?_lt hc
        omega
      have := alignDown_le (low - size) halign
      searchFrom image size halign reserved (alignDown (low - size) align)
    | none =>
      match hu : lastUsed? image start.toNat size with
      | none => some start.toNat
      | some k =>
        have := lastUsed?_lt hu
        have := alignDown_le (start + k - size) halign
        searchFrom image size halign reserved (alignDown (start + k - size) align)
termination_by (start + 1).toNat

/-- The highest free region of `size` bytes in an image that starts at a multiple of
`align`. The size is the length of a byte string, that of a payload to place; for one that no
byte string has, 2^63 and more, there would be no memory to search with. -/
def findFree? (image : Bytes) (size : Nat) {align : Nat} (halign : 0 < align)
    (reserved : List (Nat × Nat)) : Option Nat :=
  searchFrom image.toArray size halign reserved (alignDown (image.length - size) align)

end BootGuard.Fit
