/-
  Free space that is found is free, and the highest there is.

  `findFree?_sound`: a region that the search yields lies in the image, is apart from every
  reserved interval, and holds erased bytes only. The search only goes down, so the bound on
  the end of the region is kept from its start.

  `FreeAt` says what the search looks for. Each of its two jumps goes down to the highest multiple
  of the alignment that clears what was in the way, so no free region lies between
  (`FreeAt.le_lowestConflict`, `FreeAt.le_lastUsed`), and the first one that is found is the
  highest (`findFree?_highest`).
-/
import BootGuard.Proofs.Fit.Intervals
import BootGuard.Fit.Stitch

namespace BootGuard.Fit

theorem apart_of_meets {start size : Nat} {r : Nat × Nat} (h : meets start size r = false) :
    Apart (start, start + size) r := by
  rintro i ⟨h1, h2⟩ ⟨h3, h4⟩
  have hmeets : meets start size r = true := by
    simp only [meets, Bool.and_eq_true, decide_eq_true_eq]
    omega
  rw [hmeets] at h
  cases h

/-- Nothing that is reserved is in the way. -/
theorem apart_of_lowestConflict? {reserved : List (Nat × Nat)} {start size : Nat}
    (h : lowestConflict? reserved start size = none) :
    ∀ r ∈ reserved, Apart (start, start + size) r := by
  intro r hr
  have hnil := List.map_eq_nil_iff.1 (List.min?_eq_none_iff.1 h)
  have hmeets : ¬ meets start size r = true := List.filter_eq_nil_iff.1 hnil r hr
  exact apart_of_meets (by simpa using hmeets)

/-- All bytes of a region without a used one are erased. -/
theorem erased_of_lastUsed? {image : Array UInt8} {start size : Nat}
    (h : lastUsed? image start size = none) : ∀ k, k < size → image[start + k]? = some 0xFF := by
  induction size with
  | zero =>
    intro k hk
    cases hk
  | succ size ih =>
    rw [lastUsed?] at h
    split at h
    · rename_i hlast
      intro k hk
      obtain hlt | rfl := Nat.lt_succ_iff_lt_or_eq.1 hk
      · exact ih h k hlt
      · exact hlast
    · cases h

theorem searchFrom_sound {image : Array UInt8} {size align : Nat} {halign : 0 < align}
    {reserved : List (Nat × Nat)} {start : Int} {offset : Nat}
    (hstart : start + size ≤ image.size)
    (h : searchFrom image size halign reserved start = some offset) :
    offset + size ≤ image.size ∧ (∀ r ∈ reserved, Apart (offset, offset + size) r) ∧
      ∀ k, k < size → image[offset + k]? = some 0xFF := by
  fun_induction searchFrom image size halign reserved start with
  | case1 => cases h
  | case2 start hs _ low hc hlow _ ih =>
    have hle := alignDown_le (low - size) halign
    exact ih (by omega) h
  | case3 start hs _ hc hu =>
    cases h
    exact ⟨by omega, apart_of_lowestConflict? hc, erased_of_lastUsed? hu⟩
  | case4 start hs _ hc k hu hk _ ih =>
    have hle := alignDown_le (start + k - size) halign
    exact ih (by omega) h

/-! ## Steps of the search -/

/-- Without a used byte there is no last one. -/
theorem lastUsed?_of_erased {image : Array UInt8} {start size : Nat}
    (h : ∀ k, k < size → image[start + k]? = some 0xFF) : lastUsed? image start size = none := by
  induction size with
  | zero => rfl
  | succ size ih =>
    have hlast := h size (Nat.lt_succ_self size)
    rw [lastUsed?, if_pos hlast]
    exact ih fun k hk => h k (Nat.lt_succ_of_lt hk)

section Steps

variable {image : Bytes} {size align : Nat} {halign : 0 < align} {reserved : List (Nat × Nat)}
  {start : Nat}

/-- Where something reserved is in the way the search goes on below it. -/
theorem searchFrom_of_conflict {low : Nat} (h : lowestConflict? reserved start size = some low) :
    searchFrom image.toArray size halign reserved start =
      searchFrom image.toArray size halign reserved (alignDown (low - size) align) := by
  have hs : ¬ (start : Int) < 0 := Int.not_lt.2 (Int.natCast_nonneg start)
  rw [searchFrom, dif_neg hs]
  split
  · rename_i hc
    rw [Int.toNat_natCast, h] at hc
    cases hc
    rfl
  · rename_i hc
    rw [Int.toNat_natCast, h] at hc
    cases hc

/-- An erased region that nothing reserved is in the way of ends the search. -/
theorem searchFrom_of_erased (h : lowestConflict? reserved start size = none)
    (herased : (image.drop start).take size = Bytes.erased size) :
    searchFrom image.toArray size halign reserved start = some start := by
  have hs : ¬ (start : Int) < 0 := Int.not_lt.2 (Int.natCast_nonneg start)
  have hused : lastUsed? image.toArray start size = none := by
    refine lastUsed?_of_erased fun k hk => ?_
    have hget := congrArg (fun b : Bytes => b[k]?) herased
    rw [List.getElem?_take_of_lt hk, List.getElem?_drop, Bytes.erased,
      List.getElem?_replicate_of_lt hk] at hget
    rw [List.getElem?_toArray]
    exact hget
  rw [searchFrom, dif_neg hs]
  split
  · rename_i hc
    rw [Int.toNat_natCast, h] at hc
    cases hc
  · split
    · rw [Int.toNat_natCast]
    · rename_i hu
      rw [Int.toNat_natCast, hused] at hu
      cases hu

/-- The search ends in the second place if the first one is in the way of something. -/
theorem findFree?_below (start low offset : Nat)
    (hstart : alignDown (image.length - size) align = start)
    (hlow : lowestConflict? reserved start size = some low)
    (hoffset : alignDown (low - size) align = offset)
    (hfree : lowestConflict? reserved offset size = none)
    (herased : (image.drop offset).take size = Bytes.erased size) :
    findFree? image size halign reserved = some offset := by
  rw [findFree?, hstart, searchFrom_of_conflict hlow, hoffset, searchFrom_of_erased hfree herased]

end Steps

/-- A region that is found is in the image, not reserved, and erased. -/
theorem findFree?_sound {image : Bytes} {size align : Nat} {halign : 0 < align}
    {reserved : List (Nat × Nat)} {offset : Nat}
    (h : findFree? image size halign reserved = some offset) :
    offset + size ≤ image.length ∧ (∀ r ∈ reserved, Apart (offset, offset + size) r) ∧
      ∀ i, Within i (offset, offset + size) → image[i]? = some 0xFF := by
  have hle := alignDown_le (image.length - size) halign
  have hsize : image.toArray.size = image.length := List.size_toArray
  obtain ⟨hend, hapart, hused⟩ := searchFrom_sound (by omega) h
  refine ⟨by omega, hapart, ?_⟩
  rintro i ⟨h1, h2⟩
  have hget := hused (i - offset) (by omega)
  rw [Nat.add_sub_cancel' h1, List.getElem?_toArray] at hget
  exact hget

/-! ## The highest free region -/

/-- The `size` bytes from `start` on are free: they start at a multiple of `align`, lie in the
image and are erased, and none of them is reserved. -/
structure FreeAt (image : Bytes) (size align : Nat) (reserved : List (Nat × Nat)) (start : Nat) :
    Prop where
  aligned : align ∣ start
  le : start + size ≤ image.length
  erased : ∀ i, Within i (start, start + size) → image[i]? = some 0xFF
  apart : ∀ r ∈ reserved, Apart (start, start + size) r

theorem alignDown_eq (v : Int) (align : Nat) : alignDown v align = align * (v / align) := by
  have := Int.mul_ediv_add_emod v align
  unfold alignDown
  omega

theorem dvd_alignDown (v : Int) (align : Nat) : (align : Int) ∣ alignDown v align :=
  ⟨v / align, alignDown_eq v align⟩

/-- No multiple lies between a number and the one it is rounded down to. -/
theorem le_alignDown {v t : Int} {align : Nat} (halign : 0 < align) (ht : (align : Int) ∣ t)
    (h : t ≤ v) : t ≤ alignDown v align := by
  obtain ⟨k, rfl⟩ := ht
  have hk : k ≤ v / align := by
    refine Int.le_ediv_of_mul_le (by omega) ?_
    rwa [Int.mul_comm]
  rw [alignDown_eq]
  exact Int.mul_le_mul_of_nonneg_left hk (Int.natCast_nonneg align)

/-- Of two intervals that hold something and are apart, one ends before the other begins. -/
theorem Apart.le_or_le {r s : Nat × Nat} (h : Apart r s) (hr : r.1 < r.2) (hs : s.1 < s.2) :
    r.2 ≤ s.1 ∨ s.2 ≤ r.1 := by
  have hr1 := h r.1
  have hs1 := h s.1
  unfold Within at hr1 hs1
  omega

theorem exists_of_lowestConflict? {reserved : List (Nat × Nat)} {start size low : Nat}
    (h : lowestConflict? reserved start size = some low) :
    ∃ r ∈ reserved, r.1 = low ∧ start < r.2 := by
  obtain ⟨r, hr, hlow⟩ := List.mem_map.1 (List.min?_mem h)
  obtain ⟨hmem, hmeets⟩ := List.mem_filter.1 hr
  simp only [meets, Bool.and_eq_true, decide_eq_true_eq] at hmeets
  exact ⟨r, hmem, hlow, hmeets.1⟩

theorem getElem?_of_lastUsed? {image : Array UInt8} {start size k : Nat}
    (h : lastUsed? image start size = some k) : image[start + k]? ≠ some 0xFF := by
  induction size with
  | zero => cases h
  | succ size ih =>
    rw [lastUsed?] at h
    split at h
    · exact ih h
    · rename_i hused
      cases h
      exact hused

namespace FreeAt

variable {image : Bytes} {size align : Nat} {reserved : List (Nat × Nat)} {start t : Nat}

/-- A free region below a place where something reserved is in the way ends in front of that. -/
theorem le_lowestConflict (ht : FreeAt image size align reserved t) (hsize : 0 < size)
    (hreserved : ∀ r ∈ reserved, r.1 < r.2) {low : Nat} (hle : t ≤ start)
    (h : lowestConflict? reserved start size = some low) : t + size ≤ low := by
  obtain ⟨r, hr, rfl, hstart⟩ := exists_of_lowestConflict? h
  obtain hbefore | hbehind :=
    (ht.apart r hr).le_or_le (Nat.lt_add_of_pos_right hsize) (hreserved r hr)
  · exact hbefore
  · dsimp only at hbehind
    omega

/-- A free region below a place with a used byte ends in front of that byte. -/
theorem le_lastUsed (ht : FreeAt image size align reserved t) {k : Nat} (hle : t ≤ start)
    (h : lastUsed? image.toArray start size = some k) : t + size ≤ start + k := by
  have hused := getElem?_of_lastUsed? h
  rw [List.getElem?_toArray] at hused
  refine Nat.le_of_not_lt fun hlt => hused (ht.erased _ ⟨?_, hlt⟩)
  exact Nat.le_add_right_of_le hle

/-- The search ends at a free region or above it. -/
theorem exists_searchFrom {halign : 0 < align} {start : Int}
    (ht : FreeAt image size align reserved t) (hsize : 0 < size)
    (hreserved : ∀ r ∈ reserved, r.1 < r.2) (hle : (t : Int) ≤ start) :
    ∃ offset, searchFrom image.toArray size halign reserved start = some offset ∧
      t ≤ offset := by
  have haligned : (align : Int) ∣ t := Int.natCast_dvd_natCast.2 ht.aligned
  fun_induction searchFrom image.toArray size halign reserved start with
  | case1 start hs => omega
  | case2 start hs _ low hc _ _ ih =>
    have hlow := ht.le_lowestConflict hsize hreserved (by omega) hc
    exact ih (le_alignDown halign haligned (by omega))
  | case3 start => exact ⟨_, rfl, by omega⟩
  | case4 start hs _ _ k hu _ _ ih =>
    have hused := ht.le_lastUsed (by omega) hu
    exact ih (le_alignDown halign haligned (by omega))

end FreeAt

/-- Every place the search comes to is a multiple of the alignment. -/
theorem dvd_of_searchFrom {image : Array UInt8} {size align : Nat} {halign : 0 < align}
    {reserved : List (Nat × Nat)} {start : Int} {offset : Nat} (hstart : (align : Int) ∣ start)
    (h : searchFrom image size halign reserved start = some offset) : align ∣ offset := by
  fun_induction searchFrom image size halign reserved start with
  | case1 => cases h
  | case2 _ _ _ _ _ _ _ ih => exact ih (dvd_alignDown _ _) h
  | case3 start hs =>
    cases h
    rw [← Int.natCast_dvd_natCast, Int.toNat_of_nonneg (Int.not_lt.1 hs)]
    exact hstart
  | case4 _ _ _ _ _ _ _ _ ih => exact ih (dvd_alignDown _ _) h

section Highest

variable {image : Bytes} {size align : Nat} {halign : 0 < align} {reserved : List (Nat × Nat)}

theorem freeAt_of_findFree? {offset : Nat}
    (h : findFree? image size halign reserved = some offset) :
    FreeAt image size align reserved offset := by
  obtain ⟨hle, hapart, herased⟩ := findFree?_sound h
  exact ⟨dvd_of_searchFrom (dvd_alignDown _ _) h, hle, herased, hapart⟩

/-- A region that is found is as high as any that is free. -/
theorem FreeAt.exists_findFree? {t : Nat} (halign : 0 < align)
    (ht : FreeAt image size align reserved t) (hsize : 0 < size)
    (hreserved : ∀ r ∈ reserved, r.1 < r.2) :
    ∃ offset, findFree? image size halign reserved = some offset ∧ t ≤ offset := by
  refine ht.exists_searchFrom hsize hreserved ?_
  have hle := ht.le
  exact le_alignDown halign (Int.natCast_dvd_natCast.2 ht.aligned) (by omega)

theorem findFree?_eq_some_iff (hsize : 0 < size) (hreserved : ∀ r ∈ reserved, r.1 < r.2)
    {s : Nat} : findFree? image size halign reserved = some s ↔
      FreeAt image size align reserved s ∧
        ∀ t, FreeAt image size align reserved t → t ≤ s := by
  constructor
  · intro h
    refine ⟨freeAt_of_findFree? h, fun t ht => ?_⟩
    obtain ⟨offset, hoffset, hle⟩ := ht.exists_findFree? halign hsize hreserved
    rw [h] at hoffset
    cases hoffset
    exact hle
  · intro hall
    obtain ⟨hs, hhighest⟩ := hall
    obtain ⟨offset, hoffset, hle⟩ := hs.exists_findFree? halign hsize hreserved
    rw [hoffset, Nat.le_antisymm hle (hhighest _ (freeAt_of_findFree? hoffset))]

theorem findFree?_eq_none_iff (hsize : 0 < size) (hreserved : ∀ r ∈ reserved, r.1 < r.2) :
    findFree? image size halign reserved = none ↔
      ∀ s, ¬ FreeAt image size align reserved s := by
  constructor
  · intro h s hs
    obtain ⟨offset, hoffset, _⟩ := hs.exists_findFree? halign hsize hreserved
    rw [h] at hoffset
    cases hoffset
  · intro hnone
    refine Option.eq_none_iff_forall_ne_some.2 fun s hs => ?_
    exact hnone s (freeAt_of_findFree? hs)

end Highest

/-- A payload fails to move exactly if no region is found. -/
theorem Workspace.move_eq_error_iff {w : Workspace} {kind : PayloadKind} {payload : Bytes}
    {e : Error} : w.move kind payload = .error e ↔
      e = .insufficientSpace (.region payload.length kind.alignment) ∧
        findFree? w.image payload.length kind.alignment_pos w.reserved = none := by
  unfold move
  dsimp only
  split
  · rename_i hnone
    rw [and_iff_left hnone, Except.error.injEq, eq_comm]
  · rename_i offset hsome
    rw [hsome]
    constructor
    · intro h
      cases h
    · intro h
      cases h.2

/-- The search yields the highest free region, and nothing if there is none; then a payload that
has to move cannot be placed for lack of space. The search is only ever asked for the length of a
payload, so a size that no byte string has is none of its inputs. -/
theorem findFree?_highest {image : Bytes} {size align : Nat} (halign : 0 < align)
    {reserved : List (Nat × Nat)} (hsize : 0 < size) (hreserved : ∀ r ∈ reserved, r.1 < r.2) :
    (∀ s, findFree? image size halign reserved = some s ↔
      FreeAt image size align reserved s ∧
        ∀ t, FreeAt image size align reserved t → t ≤ s) ∧
    (findFree? image size halign reserved = none ↔
      ∀ s, ¬ FreeAt image size align reserved s) ∧
    ∀ (w : Workspace) (kind : PayloadKind) (payload : Bytes) (e : Error), w.image = image →
      w.reserved = reserved → payload.length = size → kind.alignment = align →
      (w.move kind payload = .error e ↔ e = .insufficientSpace (.region size align) ∧
        ∀ s, ¬ FreeAt image size align reserved s) := by
  refine ⟨fun s => findFree?_eq_some_iff hsize hreserved, findFree?_eq_none_iff hsize hreserved,
    ?_⟩
  rintro w kind payload e rfl rfl rfl rfl
  rw [Workspace.move_eq_error_iff, findFree?_eq_none_iff hsize hreserved]

/-- Two erased stretches, around a used byte. -/
def gappedImage : Bytes := Bytes.erased 0x14 ++ [0] ++ Bytes.erased 0xB

/-- The upper stretch is too short once its end is reserved, so the lower one is taken; nothing is
left if that is reserved too. -/
theorem findFree?_highest_sample :
    (FreeAt gappedImage 8 4 [(0x1E, 0x20)] 0xC ∧
      ∀ t, FreeAt gappedImage 8 4 [(0x1E, 0x20)] t → t ≤ 0xC) ∧
    ∀ s, ¬ FreeAt gappedImage 8 4 [(0x1E, 0x20), (6, 0xD)] s :=
  ⟨((findFree?_highest (by decide) (by decide) (by decide)).1 0xC).1 (by decide +kernel),
    (findFree?_highest (by decide) (by decide) (by decide)).2.1.1 (by decide +kernel)⟩

end BootGuard.Fit
