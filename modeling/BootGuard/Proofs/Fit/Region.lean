/-
  What entries refer to.

  The region of an entry is the interval of the image that it refers to. `extract` yields the
  bytes of the region of the first entry of a type (`referred_eq_ok_iff`). Which interval this
  is depends on the entry and, for an authenticated code module, on its header in the image, so
  changes elsewhere do not matter (`region_congr`).
-/
import BootGuard.Proofs.Fit.Table

namespace BootGuard.Fit

/-! ## Addresses -/

/-- The address of an entry names no place in front of an image of `n` bytes. -/
def Entry.Addresses (e : Entry) (n : Nat) : Prop := 0 ≤ e.address ∨ fourGiB - n ≤ e.address

theorem offsetOf_bounds {address : Int} {n : Nat} {offset : Int}
    (ha : 0 ≤ address ∨ fourGiB - n ≤ address) (h : offsetOf address n = .ok offset) :
    0 ≤ offset ∧ offset < n := by
  unfold offsetOf at h
  dsimp only at h
  by_cases hbase : fourGiB - n ≤ address
  · rw [if_pos hbase] at h
    split at h
    · cases h
    · cases h
      omega
  · rw [if_neg hbase] at h
    split at h
    · cases h
    · cases h
      omega

/-! ## Authenticated code modules -/

/-- The length of the part of a module's header that its size is read from. -/
def acmHeaderSize : Nat := 28

/-- The size of a module is read from its header. -/
theorem acmSize_of_take {a b : Bytes} {n : Nat} (h : acmSize a = .ok n)
    (hb : b.take acmHeaderSize = a.take acmHeaderSize) :
    acmHeaderSize ≤ a.length ∧ acmSize b = .ok n := by
  unfold acmSize at h ⊢
  split at h
  · cases h
  · rename_i hshort
    rw [Bytes.shorterThan_iff] at hshort
    have hlen : acmHeaderSize ≤ a.length := Nat.le_of_not_lt hshort
    have hlenb : acmHeaderSize ≤ b.length := by
      have := congrArg List.length hb
      rw [List.length_take, List.length_take] at this
      omega
    have hshortb : ¬ Bytes.shorterThan b 28 = true := by
      rw [Bytes.shorterThan_iff]
      exact Nat.not_lt.2 hlenb
    have htake : ∀ i n, i + n ≤ acmHeaderSize → (b.drop i).take n = (a.drop i).take n := by
      intro i n hin
      have hdrop := congrArg (fun x => (List.drop i x).take n) hb
      simp only [List.drop_take, List.take_take] at hdrop
      rwa [Nat.min_eq_left (by omega)] at hdrop
    rw [if_neg hshortb]
    have h0 := htake 0 2 (by decide)
    have h16 := htake 16 4 (by decide)
    have h24 := htake 24 4 (by decide)
    rw [List.drop_zero, List.drop_zero] at h0
    rw [h0, h16, h24]
    exact ⟨hlen, h⟩

/-! ## Regions -/

/-- The start and the end of what an entry refers to. -/
def Entry.region (e : Entry) (image : Bytes) : Except Error (Nat × Nat) := do
  let offset ← offsetOf e.address image.length
  let size ← regionSize image e offset.toNat
  return (offset.toNat, offset.toNat + size)

theorem Entry.region_eq_ok_iff {e : Entry} {image : Bytes} {r : Nat × Nat} :
    e.region image = .ok r ↔ ∃ offset size, offsetOf e.address image.length = .ok offset ∧
      regionSize image e offset.toNat = .ok size ∧ r = (offset.toNat, offset.toNat + size) := by
  simp only [Entry.region, bind_eq_ok_iff, pure_eq_ok, Except.ok.injEq]
  constructor
  · intro h
    obtain ⟨offset, h1, size, h2, rfl⟩ := h
    exact ⟨offset, size, h1, h2, rfl⟩
  · intro h
    obtain ⟨offset, size, h1, h2, rfl⟩ := h
    exact ⟨offset, h1, size, h2, rfl⟩

/-- The region of an entry other than that of a module depends on the entry alone. -/
theorem Entry.region_congr_of_ne {e : Entry} {image image' : Bytes} {r : Nat × Nat}
    (ht : e.type ≠ typeStartupAcm) (hlen : image'.length = image.length)
    (h : e.region image = .ok r) : e.region image' = .ok r := by
  obtain ⟨offset, size, hoff, hsize, rfl⟩ := Entry.region_eq_ok_iff.1 h
  refine Entry.region_eq_ok_iff.2 ⟨offset, size, by rw [hlen]; exact hoff, ?_, rfl⟩
  unfold regionSize at hsize ⊢
  rw [if_neg ht] at hsize ⊢
  exact hsize

/-- The region of a module stays what it is while its header does. -/
theorem Entry.region_congr {e : Entry} {image image' : Bytes} {r : Nat × Nat}
    (hlen : image'.length = image.length)
    (hagree : Bytes.Agree image' image (r.1, r.1 + acmHeaderSize))
    (h : e.region image = .ok r) : e.region image' = .ok r := by
  by_cases ht : e.type = typeStartupAcm
  · obtain ⟨offset, size, hoff, hsize, rfl⟩ := Entry.region_eq_ok_iff.1 h
    refine Entry.region_eq_ok_iff.2 ⟨offset, size, by rw [hlen]; exact hoff, ?_, rfl⟩
    unfold regionSize at hsize ⊢
    rw [if_pos ht] at hsize ⊢
    exact (acmSize_of_take hsize hagree.slice_eq).2
  · exact Entry.region_congr_of_ne ht hlen h

/-- The region of the first entry for payloads of a kind. -/
def regionOf (image : Bytes) (es : List Entry) (kind : PayloadKind) : Option (Nat × Nat) :=
  (first? kind.entryType es).bind fun e => (e.region image).toOption

theorem regionOf_eq_some_iff {image : Bytes} {es : List Entry} {kind : PayloadKind}
    {r : Nat × Nat} : regionOf image es kind = some r ↔
      ∃ e, first? kind.entryType es = some e ∧ e.region image = .ok r := by
  unfold regionOf
  rw [Option.bind_eq_some_iff]
  refine exists_congr fun e => and_congr_right' ?_
  cases e.region image <;> simp [Except.toOption]

/-! ## What is extracted -/

/-- What the first entry of a type refers to. -/
def referred (image : Bytes) (es : List Entry) (type : Int) : Except Error Bytes :=
  match first? type es with
  | none => throw (.tableNotFound (.noEntry type))
  | some e => do
    let offset ← offsetOf e.address image.length
    let size ← regionSize image e offset.toNat
    if size = 0 ∨ (image.length : Int) < offset + size then
      throw (.offsetOutOfRange (.payload e.type offset size))
    return (image.drop offset.toNat).take size

theorem extract_eq (image : Bytes) (type : Int) :
    extract image type = entries image >>= fun es => referred image es.tail type := rfl

theorem extract_of_tableAt {image : Bytes} {offset : Nat} {header : Entry} {es : List Entry}
    (h : TableAt image offset header es) (type : Int) :
    extract image type = referred image es type := by
  rw [extract_eq, entries, h.find, ok_bind, h.read, ok_bind]
  rfl

theorem referred_eq_ok_iff {image : Bytes} {es : List Entry} {type : Int} {b : Bytes}
    (hes : ∀ e ∈ es, e.Addresses image.length) :
    referred image es type = .ok b ↔ ∃ e r, first? type es = some e ∧
      e.region image = .ok r ∧ r.1 < r.2 ∧ r.2 ≤ image.length ∧
      b = (image.drop r.1).take (r.2 - r.1) := by
  unfold referred
  cases hfirst : first? type es with
  | none =>
    constructor
    · intro h
      cases h
    · intro hall
      obtain ⟨e, r, he, _⟩ := hall
      cases he
  | some e =>
    have haddr := hes e (mem_of_first? hfirst)
    simp only [Option.some.injEq, bind_eq_ok_iff, ite_throw_eq_ok_iff, pure_eq_ok,
      Except.ok.injEq, not_or, Entry.region_eq_ok_iff]
    constructor
    · intro hall
      obtain ⟨offset, hoff, size, hsize, ⟨h0, hle⟩, rfl⟩ := hall
      obtain ⟨hpos, _⟩ := offsetOf_bounds haddr hoff
      refine ⟨e, _, rfl, ⟨offset, size, hoff, hsize, rfl⟩, ?_, ?_, ?_⟩
      · dsimp only
        omega
      · dsimp only
        omega
      · rw [Nat.add_sub_cancel_left]
    · intro hall
      obtain ⟨_, _, rfl, ⟨offset, size, hoff, hsize, rfl⟩, hlt, hle, rfl⟩ := hall
      obtain ⟨hpos, _⟩ := offsetOf_bounds haddr hoff
      dsimp only at hlt hle
      refine ⟨offset, hoff, size, hsize, ⟨by omega, by omega⟩, ?_⟩
      rw [Nat.add_sub_cancel_left]

/-- What an entry refers to is the same in another image that agrees there. -/
theorem referred_of_agree {image image' : Bytes} {es : List Entry} {type : Int} {b : Bytes}
    {e : Entry} {offset : Nat} (hes : ∀ e ∈ es, e.Addresses image.length)
    (hlen : image'.length = image.length) (hfirst : first? type es = some e)
    (hoff : offsetOf e.address image.length = .ok offset)
    (hagree : Bytes.Agree image' image (offset, offset + b.length))
    (hheader : type = typeStartupAcm → acmHeaderSize ≤ b.length)
    (h : referred image es type = .ok b) : referred image' es type = .ok b := by
  obtain ⟨e', r, hfirst', hregion, hlt, hle, hb⟩ := (referred_eq_ok_iff hes).1 h
  rw [hfirst] at hfirst'
  cases hfirst'
  obtain ⟨o, size, ho, _, rfl⟩ := Entry.region_eq_ok_iff.1 hregion
  rw [hoff] at ho
  cases ho
  rw [Int.toNat_natCast] at hregion hlt hle hb
  dsimp only at hlt hle hb
  rw [Nat.add_sub_cancel_left] at hb
  have hsize : b.length = size := by
    rw [hb, List.length_take, List.length_drop]
    omega
  rw [hsize] at hagree
  have hregion' : e.region image' = .ok (offset, offset + size) := by
    by_cases ht : e.type = typeStartupAcm
    · refine Entry.region_congr hlen (hagree.mono fun i hi => ⟨hi.1, ?_⟩) hregion
      have hhead := hheader ((type_of_first? hfirst).symm.trans ht)
      have := hi.2
      dsimp only at this ⊢
      omega
    · exact Entry.region_congr_of_ne ht hlen hregion
  refine (referred_eq_ok_iff (by rwa [hlen])).2
    ⟨e, _, hfirst, hregion', hlt, by rw [hlen]; exact hle, ?_⟩
  dsimp only
  rw [Nat.add_sub_cancel_left, hagree.slice_eq, hb]

end BootGuard.Fit
