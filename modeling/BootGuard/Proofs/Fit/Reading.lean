/-
  How reading from an image ends.

  Whatever the bytes of an image are, its table is either found inside the image or not found at
  all (`findTable_error`). The entries are then decoded from one end of the table to the other
  (`entriesAt_natCast`), as many as the header counts. The header is decoded before anything is
  known to be there but its text: a table whose text ends the image, or nearly, is the one that
  reading fails on with an error that is not the library's own (`HeaderCut`).
-/
import BootGuard.Proofs.Fit.Region

namespace BootGuard.Fit

/-! ## The place of the table -/

theorem findTable_bounds {image : Bytes} {offset : Nat} (h : findTable image = .ok offset) :
    offset + headText.length ≤ image.length := by
  obtain ⟨_, htext⟩ := findTable_eq_ok h
  have hlen := congrArg List.length htext
  have h8 : headText.length = 8 := rfl
  rw [List.length_take, List.length_drop, h8] at hlen
  omega

/-- The failure is that there is no table, or no entry in it. -/
def NoTable (e : Error) : Prop := ∃ cause, e = .tableNotFound cause

theorem findTable_error {image : Bytes} {e : Error} (h : findTable image = .error e) :
    NoTable e := by
  unfold findTable at h
  dsimp only at h
  split at h
  · cases h
    exact ⟨_, rfl⟩
  · split at h
    · cases h
      exact ⟨_, rfl⟩
    · split at h
      · cases h
        exact ⟨_, rfl⟩
      · split at h
        · cases h
        · cases h
          exact ⟨_, rfl⟩

/-! ## Decoding -/

theorem Entry.read_natCast (b : Bytes) (offset : Nat) : Entry.read b offset =
    if maxOffset < offset then .error .overflow
    else if b.length < offset + entrySize then .error .fieldRange
    else .ok (decode ((b.drop offset).take entrySize)) := by
  have hneg : ¬ (offset : Int) < 0 := by omega
  have hfar : ((offset : Int) < -maxOffset - 1 ∨ (maxOffset : Int) < offset) ↔
      maxOffset < offset := by omega
  have hpos : 0 < entrySize := by decide
  have hshort : (Bytes.shorterThan (b.drop offset) entrySize = true) ↔
      b.length < offset + entrySize := by
    rw [Bytes.shorterThan_iff, List.length_drop]
    omega
  unfold Entry.read
  dsimp only
  simp only [if_neg hneg, hfar, Int.toNat_natCast, hshort]

/-- What stands at an offset in an image, decoded as `count` entries. -/
def slots (image : Bytes) (offset count : Nat) : List Entry :=
  (List.range count).map fun i =>
    Entry.decode ((image.drop (offset + i * entrySize)).take entrySize)

theorem length_slots (image : Bytes) (offset count : Nat) :
    (slots image offset count).length = count := by
  rw [slots, List.length_map, List.length_range]

theorem slots_succ (image : Bytes) (offset count : Nat) : slots image offset (count + 1) =
    Entry.decode ((image.drop offset).take entrySize) ::
      slots image (offset + entrySize) count := by
  rw [slots, slots, List.range_succ_eq_map, List.map_cons, List.map_map, Nat.zero_mul,
    Nat.add_zero]
  congr 1
  refine List.map_congr_left fun i _ => ?_
  dsimp only [Function.comp_apply]
  rw [Nat.succ_mul, Nat.add_comm (i * entrySize), Nat.add_assoc]

theorem frontEntries_drop {image : Bytes} {offset count : Nat}
    (h : offset + count * entrySize ≤ image.length) :
    frontEntries (image.drop offset) count = .ok (slots image offset count) := by
  induction count generalizing offset with
  | zero => rfl
  | succ count ih =>
    rw [Nat.succ_mul] at h
    have hshort : ¬ Bytes.shorterThan (image.drop offset) entrySize = true := by
      rw [Bytes.shorterThan_iff, List.length_drop]
      omega
    rw [frontEntries, if_neg hshort, List.drop_drop, ih (by omega), ok_bind, slots_succ]
    rfl

/-- Reading at an offset in full: the header comes first, then the check of its count. -/
theorem entriesAt_natCast (image : Bytes) (offset : Nat) : entriesAt image offset =
    if Entry.maxOffset < offset then .error .overflow
    else if image.length < offset + entrySize then .error .fieldRange
    else
      let count := (Entry.decode ((image.drop offset).take entrySize)).size.toNat
      if count = 0 ∨ image.length < offset + count * entrySize then
        .error (.tableNotFound (.entryCount offset count))
      else .ok (slots image offset count) := by
  rw [entriesAt, Entry.read_natCast]
  split
  · rfl
  · split
    · rfl
    · rw [ok_bind]
      dsimp only
      generalize (Entry.decode ((image.drop offset).take entrySize)).size.toNat = count
      have hcond : (count = 0 ∨ (image.length : Int) < offset + count * entrySize) ↔
          (count = 0 ∨ image.length < offset + count * entrySize) := by omega
      by_cases hbad : count = 0 ∨ image.length < offset + count * entrySize
      · rw [if_pos (hcond.2 hbad), if_pos hbad]
        rfl
      · rw [if_neg (mt hcond.1 hbad), if_neg hbad]
        rw [not_or, Nat.not_lt] at hbad
        obtain ⟨n, rfl⟩ := Nat.exists_eq_succ_of_ne_zero hbad.1
        rw [readEntries, if_pos (Int.natCast_nonneg _), Int.toNat_natCast,
          frontEntries_drop hbad.2]

/-! ## Outcomes -/

/-- The text of the header ends so close to the end of the image that the header does not. -/
def HeaderCut (image : Bytes) : Prop := ∃ offset, findTable image = .ok offset ∧
  offset ≤ Entry.maxOffset ∧ image.length < offset + entrySize

/-- The table is too far from the start for an entry to be asked for there, which takes an image
of more than 2^63 bytes. -/
def HeaderFar (image : Bytes) : Prop :=
  ∃ offset, findTable image = .ok offset ∧ Entry.maxOffset < offset

/-- The outcome is a result as it should be, or a failure as it should be, except that the header
cannot be decoded. -/
structure Outcome {α : Type} (image : Bytes) (Good : α → Prop) (Own : Error → Prop)
    (x : Except Error α) : Prop where
  good : ∀ a, x = .ok a → Good a
  own : ∀ e, x = .error e → Own e ∨ e = .fieldRange ∨ e = .overflow
  cut : x = .error .fieldRange ↔ HeaderCut image
  far : x = .error .overflow ↔ HeaderFar image

section Outcome

variable {α β : Type} {image : Bytes} {offset : Nat} {Good : α → Prop} {Own : Error → Prop}

theorem headerCut_iff (h : findTable image = .ok offset) :
    HeaderCut image ↔ offset ≤ Entry.maxOffset ∧ image.length < offset + entrySize := by
  simp [HeaderCut, h]

theorem headerFar_iff (h : findTable image = .ok offset) :
    HeaderFar image ↔ Entry.maxOffset < offset := by
  simp [HeaderFar, h]

/-- What comes behind a reader adds results and failures of its own, none of them that of a
header. -/
theorem Outcome.bind {Good' : β → Prop} {Own' : Error → Prop} {x : Except Error α}
    {f : α → Except Error β} (hx : Outcome image Good Own x)
    (hown : ∀ e, Own e → Own' e) (hrange : ¬ Own' .fieldRange) (hoverflow : ¬ Own' .overflow)
    (hgood' : ∀ a, Good a → ∀ b, f a = .ok b → Good' b)
    (hown' : ∀ a, Good a → ∀ e, f a = .error e → Own' e) :
    Outcome image Good' Own' (x >>= f) := by
  have hfrom : ∀ e, ¬ Own' e → ((x >>= f) = .error e ↔ x = .error e) := by
    intro e he
    rw [bind_eq_error_iff]
    refine ⟨?_, .inl⟩
    rintro (h | ⟨a, ha, hf⟩)
    · exact h
    · exact absurd (hown' a (hx.good a ha) e hf) he
  refine ⟨?_, ?_, (hfrom _ hrange).trans hx.cut, (hfrom _ hoverflow).trans hx.far⟩
  · intro b hb
    obtain ⟨a, ha, hf⟩ := bind_eq_ok_iff.1 hb
    exact hgood' a (hx.good a ha) b hf
  · intro e he
    obtain h | ⟨a, ha, hf⟩ := bind_eq_error_iff.1 he
    · exact (hx.own e h).imp_left (hown e)
    · exact .inl (hown' a (hx.good a ha) e hf)

end Outcome

/-! ## The entries of an image -/

/-- The table is in the image from one end to the other, and these are its entries: as many as the
first of them counts, and at least that one. -/
structure ReadAt (image : Bytes) (offset : Nat) (es : List Entry) : Prop where
  found : findTable image = .ok offset
  counted : ∃ header, es.head? = some header ∧ header.size = es.length
  inside : offset + es.length * entrySize ≤ image.length
  decoded : es = slots image offset es.length

theorem ReadAt.addresses {image : Bytes} {offset : Nat} {es : List Entry}
    (h : ReadAt image offset es) : ∀ e ∈ es, e.Addresses image.length := by
  intro e he
  rw [h.decoded, slots] at he
  obtain ⟨i, _, rfl⟩ := List.mem_map.1 he
  exact .inl (Int.natCast_nonneg _)

theorem readAt_slots {image : Bytes} {offset count : Nat} (hfound : findTable image = .ok offset)
    (hcount : count = (Entry.decode ((image.drop offset).take entrySize)).size.toNat)
    (h0 : count ≠ 0) (hinside : offset + count * entrySize ≤ image.length) :
    ReadAt image offset (slots image offset count) where
  found := hfound
  counted := by
    obtain ⟨n, rfl⟩ := Nat.exists_eq_succ_of_ne_zero h0
    refine ⟨_, by rw [slots_succ, List.head?_cons], ?_⟩
    have hsize := (Entry.fits_decode ((image.drop offset).take entrySize)).1.1
    rw [length_slots, hcount]
    omega
  inside := by rwa [length_slots]
  decoded := by rw [length_slots]

/-- Only the two checks that decoding makes of the header itself are not the library's own. -/
theorem entries_outcome (image : Bytes) :
    Outcome image (fun es => ∃ offset, ReadAt image offset es) NoTable (entries image) := by
  unfold entries
  cases hfind : findTable image with
  | error e =>
    obtain ⟨cause, rfl⟩ := findTable_error hfind
    rw [error_bind]
    constructor <;> simp [NoTable, HeaderCut, HeaderFar, hfind]
  | ok offset =>
    have hcutIff := headerCut_iff hfind
    have hfarIff := headerFar_iff hfind
    rw [ok_bind, entriesAt_natCast]
    by_cases hfar : Entry.maxOffset < offset
    · rw [if_pos hfar]
      have hnear : ¬ offset ≤ Entry.maxOffset := Nat.not_le_of_lt hfar
      constructor <;> simp [hcutIff, hfarIff, hfar, hnear]
    rw [if_neg hfar]
    have hmax : offset ≤ Entry.maxOffset := Nat.le_of_not_lt hfar
    -- The header is decoded before its count is looked at, so its own end comes first.
    by_cases hcut : image.length < offset + entrySize
    · rw [if_pos hcut]
      constructor <;> simp [hcutIff, hfarIff, hmax, hcut]
    rw [if_neg hcut]
    dsimp only
    split
    · constructor <;> simp [NoTable, hcutIff, hfarIff, hmax, hcut]
    · rename_i hcount
      rw [not_or, Nat.not_lt] at hcount
      have hread := readAt_slots hfind rfl hcount.1 hcount.2
      refine ⟨?_, by simp, by simp [hcutIff, hcut], by simp [hfarIff, hmax]⟩
      rintro _ ⟨⟩
      exact ⟨offset, hread⟩

/-! ## What the entries refer to -/

theorem offsetOf_error {address imageSize : Int} {e : Error}
    (h : offsetOf address imageSize = .error e) : e.isOwn = true := by
  unfold offsetOf at h
  dsimp only at h
  by_cases hout : imageSize ≤ (if fourGiB - imageSize ≤ address then
      address - (fourGiB - imageSize) else address)
  · rw [if_pos hout] at h
    cases h
    rfl
  · rw [if_neg hout] at h
    cases h

theorem regionSize_error {image : Bytes} {entry : Entry} {offset : Nat} {e : Error}
    (h : regionSize image entry offset = .error e) : e.isOwn = true := by
  unfold regionSize acmSize at h
  dsimp only at h
  split at h
  · split at h
    · cases h
      rfl
    · split at h
      · cases h
        rfl
      · cases h
  · cases h

theorem referred_error {image : Bytes} {es : List Entry} {type : Int} {e : Error}
    (h : referred image es type = .error e) : e.isOwn = true := by
  unfold referred at h
  cases hfirst : first? type es with
  | none =>
    rw [hfirst] at h
    cases h
    rfl
  | some entry =>
    rw [hfirst] at h
    obtain h | ⟨offset, _, h⟩ := bind_eq_error_iff.1 h
    · exact offsetOf_error h
    · obtain h | ⟨size, _, h⟩ := bind_eq_error_iff.1 h
      · exact regionSize_error h
      · split at h
        · cases h
          rfl
        · cases h

/-- The bytes are a part of the image that is not empty. -/
def PartOf (image b : Bytes) : Prop :=
  b ≠ [] ∧ ∃ start, start + b.length ≤ image.length ∧ b = (image.drop start).take b.length

theorem partOf_of_referred {image : Bytes} {es : List Entry} {type : Int} {b : Bytes}
    (hes : ∀ e ∈ es, e.Addresses image.length) (h : referred image es type = .ok b) :
    PartOf image b := by
  obtain ⟨_, r, _, _, hlt, hle, rfl⟩ := (referred_eq_ok_iff hes).1 h
  have hlen : ((image.drop r.1).take (r.2 - r.1)).length = r.2 - r.1 := by
    rw [List.length_take, List.length_drop]
    omega
  refine ⟨?_, r.1, by omega, by rw [hlen]⟩
  rw [← List.length_pos_iff]
  omega

/-- Reading an image, wherever its pointer points. The table is found inside the image or not at
all. The entries are as many as the header counts, all from inside the image, and a payload that is
extracted is a part of the image. Failures are the library's own, except that of a header whose
text is in the image and whose end is not. -/
theorem reading_outcome (image : Bytes) (type : Int) :
    (∀ offset, findTable image = .ok offset → offset + headText.length ≤ image.length) ∧
    (∀ e, findTable image = .error e → NoTable e) ∧
    Outcome image (fun es => ∃ offset, ReadAt image offset es) NoTable (entries image) ∧
    Outcome image (PartOf image) (fun e => e.isOwn = true) (extract image type) := by
  refine ⟨fun _ => findTable_bounds, fun _ => findTable_error, entries_outcome image, ?_⟩
  rw [extract_eq]
  refine (entries_outcome image).bind ?_ (by decide) (by decide) ?_ ?_
  · rintro _ ⟨cause, rfl⟩
    rfl
  · rintro es ⟨offset, hread⟩ b hb
    exact partOf_of_referred (fun e he => hread.addresses e (List.mem_of_mem_tail he)) hb
  · intro es _ e he
    exact referred_error he

/-- Erased flash but for a pointer to its last eight bytes, where the text of a header stands. -/
def cutImage : Bytes := [0xF8, 0xFF, 0xFF, 0xFF, 0, 0, 0, 0] ++ Bytes.erased 0x30 ++ headText

example : HeaderCut cutImage ∧ entries cutImage = .error .fieldRange :=
  ⟨⟨0x38, by decide +kernel, by decide, by decide⟩, by decide +kernel⟩

end BootGuard.Fit
