/-
  Tables that have been written are found and read.

  `TableAt image offset header es` says where the table of an image is and what is in it.
  `entriesAt_of_written` is about any image in which an encoded table stands: as long as the
  number of its entries fits the header, a reader finds them, cut off to their fields. With the
  same pointer as before it finds the table itself, too (`findTable_of_written`).
-/
import BootGuard.Proofs.Fit.Entries
import BootGuard.Proofs.Fit.Intervals

namespace BootGuard.Fit

/-- The largest number of entries that a header can state, and one. -/
def maxEntries : Nat := 0x1000000

/-- The place of the address of the table in an image of `n` bytes. -/
def pointerInterval (n : Nat) : Nat × Nat := (n - pointerDistance, n - pointerDistance + 8)

/-- The table of the image is at `offset` and has these entries. -/
structure TableAt (image : Bytes) (offset : Nat) (header : Entry) (es : List Entry) : Prop where
  find : findTable image = .ok offset
  read : entriesAt image offset = .ok (header :: es)

/-! ## Finding the table -/

/-- What there is to know of an image whose table has been found. -/
theorem findTable_eq_ok {image : Bytes} {offset : Nat} (h : findTable image = .ok offset) :
    pointerDistance ≤ image.length ∧ (image.drop offset).take 8 = headText := by
  unfold findTable at h
  dsimp only at h
  split at h
  · cases h
  · rename_i hlen
    split at h
    · cases h
    · split at h
      · cases h
      · split at h
        · rename_i htext
          cases h
          exact ⟨Nat.le_of_not_lt hlen, htext⟩
        · cases h

/-- The table is found where it was, if the pointer and the text in front are the same. -/
theorem findTable_congr {image out : Bytes} {offset : Nat} (h : findTable image = .ok offset)
    (hlen : out.length = image.length)
    (hpointer : Bytes.Agree out image (pointerInterval image.length))
    (htext : (out.drop offset).take 8 = headText) : findTable out = .ok offset := by
  have hslice := hpointer.slice_eq
  unfold findTable at h ⊢
  dsimp only at h ⊢
  rw [hlen, hslice]
  split at h
  · cases h
  · rename_i hlt
    rw [if_neg hlt]
    split at h
    · cases h
    · rename_i hfour
      rw [if_neg hfour]
      split at h
      · cases h
      · rename_i o ho
        split at h
        · cases h
          exact if_pos htext
        · cases h

/-! ## Reading the entries -/

namespace Entry

/-- The place in a buffer of `n` bytes that an offset refers to; below zero it counts from the end
and may refer to a place in front of the buffer. -/
def start (n : Nat) (offset : Int) : Int := if offset < 0 then n + offset else offset

/-- There are sixteen bytes at an offset that can be asked for, as every offset into a buffer of
less than 2^63 bytes can. -/
structure Available (b : Bytes) (offset : Int) : Prop where
  asked : -maxOffset - 1 ≤ offset ∧ offset ≤ maxOffset
  inside : 0 ≤ start b.length offset
  enough : start b.length offset + entrySize ≤ b.length

/-- The sixteen bytes at an offset. Where they are available they are the slice from `offset` to
`offset + 16`, but for the offset -16: that slice would end at 0, and is empty. -/
def bytesAt (b : Bytes) (offset : Int) : Bytes :=
  (b.drop (start b.length offset).toNat).take entrySize

theorem bytesAt_natCast (b : Bytes) (offset : Nat) :
    bytesAt b offset = (b.drop offset).take entrySize := by
  rw [bytesAt, start, if_neg (Int.not_lt.2 (Int.natCast_nonneg _)), Int.toNat_natCast]

theorem available_natCast {b : Bytes} {offset : Nat} :
    Available b offset ↔ offset ≤ maxOffset ∧ entrySize ≤ (b.drop offset).length := by
  have hpos : 0 < entrySize := by decide
  have hstart : start b.length offset = offset := if_neg (Int.not_lt.2 (Int.natCast_nonneg _))
  rw [List.length_drop]
  constructor
  · intro h
    obtain ⟨_, _, henough⟩ := h
    omega
  · intro h
    exact ⟨by omega, by omega, by omega⟩

theorem Available.length_bytesAt {b : Bytes} {offset : Int} (h : Available b offset) :
    (bytesAt b offset).length = entrySize := by
  have hinside := h.inside
  have henough := h.enough
  rw [bytesAt, List.length_take, List.length_drop]
  omega

/-- An entry is read exactly where there are sixteen bytes, and from these. -/
theorem read_eq_ok_iff_available {b : Bytes} {offset : Int} {e : Entry} :
    read b offset = .ok e ↔ Available b offset ∧ e = decode (bytesAt b offset) := by
  have hpos : 0 < entrySize := by decide
  have hshort : Bytes.shorterThan (b.drop (start b.length offset).toNat) entrySize = true ↔
      b.length < (start b.length offset).toNat + entrySize := by
    rw [Bytes.shorterThan_iff, List.length_drop]
    omega
  unfold read
  dsimp only
  rw [← start]
  constructor
  · intro h
    split at h
    · cases h
    · rename_i hasked
      split at h
      · cases h
      · rename_i hinside
        split at h
        · cases h
        · rename_i hlen
          rw [hshort] at hlen
          cases h
          exact ⟨⟨by omega, by omega, by omega⟩, rfl⟩
  · intro h
    obtain ⟨⟨hasked, hinside, henough⟩, rfl⟩ := h
    have hlen : ¬ b.length < (start b.length offset).toNat + entrySize := by omega
    rw [if_neg (by omega), if_neg (by omega), if_neg (mt hshort.1 hlen), bytesAt]

theorem read_eq_ok_iff {b : Bytes} {offset : Nat} {e : Entry} :
    read b offset = .ok e ↔ offset ≤ maxOffset ∧ entrySize ≤ (b.drop offset).length ∧
      e = decode ((b.drop offset).take entrySize) := by
  rw [read_eq_ok_iff_available, available_natCast, bytesAt_natCast, and_assoc]

end Entry

theorem entriesAt_eq_ok_iff {image : Bytes} {offset : Nat} {es : List Entry} :
    entriesAt image offset = .ok es ↔ ∃ header, Entry.read image offset = .ok header ∧
      header.size.toNat ≠ 0 ∧ offset + header.size.toNat * entrySize ≤ image.length ∧
      frontEntries (image.drop offset) header.size.toNat = .ok es := by
  have hread : ∀ n, n ≠ 0 →
      readEntries image offset n = frontEntries (image.drop offset) n := by
    intro n hn
    cases n with
    | zero => exact absurd rfl hn
    | succ n => rw [readEntries, if_pos (Int.natCast_nonneg _), Int.toNat_natCast]
  simp only [entriesAt, bind_eq_ok_iff, ite_throw_eq_ok_iff, not_or]
  constructor
  · intro h
    obtain ⟨header, h1, ⟨h0, hle⟩, h2⟩ := h
    rw [hread _ h0] at h2
    exact ⟨header, h1, h0, by omega, h2⟩
  · intro h
    obtain ⟨header, h1, h0, hle, h2⟩ := h
    refine ⟨header, h1, ⟨h0, by omega⟩, ?_⟩
    rw [hread _ h0]
    exact h2

/-- The number of entries is that in the header, which is the first of them; the table lies in the
image. -/
theorem bounds_of_entriesAt {image : Bytes} {offset : Nat} {header : Entry} {es : List Entry}
    (h : entriesAt image offset = .ok (header :: es)) : offset ≤ Entry.maxOffset ∧
      offset + (es.length + 1) * entrySize ≤ image.length ∧ header.size = es.length + 1 ∧
      header = Entry.decode ((image.drop offset).take entrySize) ∧
      ∀ e ∈ es, ∃ x, e = Entry.decode x := by
  obtain ⟨header', hread, h0, hle, hfront⟩ := entriesAt_eq_ok_iff.1 h
  obtain ⟨hmax, hlen, rfl⟩ := Entry.read_eq_ok_iff.1 hread
  obtain ⟨hcount, hdecoded⟩ := frontEntries_eq_ok hfront
  have hfirst : header = Entry.decode ((image.drop offset).take entrySize) := by
    obtain ⟨n, hn⟩ := Nat.exists_eq_succ_of_ne_zero h0
    rw [hn, frontEntries] at hfront
    split at hfront
    · cases hfront
    · obtain ⟨es', _, hes⟩ := bind_eq_ok_iff.1 hfront
      cases hes
      rfl
  have hsize := (Entry.fits_decode ((image.drop offset).take entrySize)).1
  rw [← hfirst] at hle hcount hsize
  rw [List.length_cons] at hcount
  exact ⟨hmax, by rw [hcount]; exact hle, by omega, hfirst,
    fun e he => hdecoded e (List.mem_cons_of_mem _ he)⟩

/-- The table lies in the image, and the number of its entries fits the header. -/
theorem TableAt.bounds {image : Bytes} {offset : Nat} {header : Entry} {es : List Entry}
    (h : TableAt image offset header es) : offset ≤ Entry.maxOffset ∧
      offset + (es.length + 1) * entrySize ≤ image.length ∧ es.length + 1 < maxEntries ∧
      header = Entry.decode ((image.drop offset).take entrySize) ∧
      ∀ e ∈ es, ∃ x, e = Entry.decode x := by
  obtain ⟨hmax, hle, hsize, hfirst, hdecoded⟩ := bounds_of_entriesAt h.read
  have hfits := (Entry.fits_decode ((image.drop offset).take entrySize)).1.2
  rw [← hfirst, hsize] at hfits
  rw [maxEntries]
  exact ⟨hmax, hle, by omega, hfirst, hdecoded⟩

/-! ## Writing the table -/

/-- The sum of some bytes. -/
def byteSum : Bytes → Nat
  | [] => 0
  | x :: xs => x.toNat + byteSum xs

theorem byteSum_append (a b : Bytes) : byteSum (a ++ b) = byteSum a + byteSum b := by
  induction a with
  | nil => exact (Nat.zero_add _).symm
  | cons x xs ih => rw [List.cons_append, byteSum, byteSum, ih, Nat.add_assoc]

theorem toNat_checksum (b : Bytes) : (checksum b).toNat = (256 - byteSum b % 256) % 256 := by
  have hfold : ∀ (b : Bytes) (x : UInt8),
      (b.foldl (· + ·) x).toNat = (x.toNat + byteSum b) % 256 := by
    intro b
    induction b with
    | nil =>
      intro x
      exact (Nat.mod_eq_of_lt x.toNat_lt).symm
    | cons y ys ih =>
      intro x
      rw [List.foldl_cons, ih, UInt8.toNat_add, byteSum]
      omega
  rw [checksum, UInt8.toNat_sub, hfold, UInt8.toNat_zero, Nat.zero_add]
  rfl

/-- The checksum is the last byte of an entry, and nothing else depends on it. -/
theorem Entry.exists_front_of_encode {e : Entry} {b : Bytes} (h : e.encode = .ok b) :
    ∃ (front : Bytes) (v : UInt8), b = front ++ [v] ∧ front.length = 15 ∧ e.checksum = v.toNat ∧
      ∀ x : UInt8, ({ e with checksum := (x.toNat : Int) } : Entry).encode =
        .ok (front ++ [x]) := by
  obtain ⟨a, s, r, t, c, ha, hs, hr, ht, hc, rfl⟩ := Entry.encode_eq_ok_iff.1 h
  obtain ⟨hlc, hv⟩ := packInt_eq_ok_iff_toNatLe.1 hc
  obtain ⟨v, rfl⟩ := List.length_eq_one_iff.1 hlc
  have happend : ∀ x : UInt8, a ++ (s ++ (r ++ (t ++ [x]))) = a ++ (s ++ (r ++ t)) ++ [x] := by
    intro x
    simp only [List.append_assoc]
  refine ⟨a ++ (s ++ (r ++ t)), v, happend v, ?_, ?_, ?_⟩
  · simp only [List.length_append, length_of_packInt ha, length_of_packInt hs,
      length_of_packInt hr, length_of_packInt ht]
  · simpa [Bytes.toNatLe] using hv
  · intro x
    have hx : packInt 1 x.toNat = .ok [x] :=
      packInt_eq_ok_iff_toNatLe.2 ⟨rfl, by simp [Bytes.toNatLe]⟩
    exact Entry.encode_eq_ok_iff.2 ⟨a, s, r, t, [x], ha, hs, hr, ht, hx, (happend x).symm⟩

/-- The header of a table that is written: the number of entries and a checksum are new. With the
checksum the bytes of the table add up to zero, unless it does not count. -/
theorem encodeTable_eq_ok {header : Entry} {es : List Entry} {table : Bytes}
    (h : encodeTable header es = .ok table) : ∃ c : Int, encodeItems Entry.encode
      ({ header with size := es.length + 1, checksum := c } :: es) = .ok table ∧
      if header.checksumFlag = 0 then c = 0 else byteSum table % 256 = 0 := by
  simp only [encodeTable, encodeEntries_eq] at h
  obtain ⟨table', h1, h2⟩ := bind_eq_ok_iff.1 h
  split at h2
  · rename_i hflag
    cases h2
    refine ⟨0, h1, ?_⟩
    rw [if_pos hflag]
  · rename_i hflag
    obtain ⟨head, hhead, htable⟩ := bind_eq_ok_iff.1 h2
    cases htable
    simp only [encodeItems, bind_eq_ok_iff, pure_eq_ok, Except.ok.injEq] at h1 ⊢
    obtain ⟨b, hb, bs, hbs, rfl⟩ := h1
    have hdrop : (b ++ bs).drop entrySize = bs := List.drop_left' (Entry.length_of_encode hb)
    obtain ⟨front, v, rfl, _, hv, hany⟩ := Entry.exists_front_of_encode hb
    obtain rfl : v = 0 := UInt8.toNat_inj.1 (Int.natCast_inj.1 hv.symm)
    obtain rfl := Except.ok.inj (hhead.symm.trans (hany _))
    have hsum := toNat_checksum (front ++ [0] ++ bs)
    rw [hdrop]
    refine ⟨_, ⟨_, hhead, bs, hbs, rfl⟩, ?_⟩
    rw [if_neg hflag]
    simp only [byteSum_append, byteSum, UInt8.toNat_zero] at hsum ⊢
    omega

/-- The number of entries and the checksum in the header do not matter to a table that is
written, nor does what the fields of the entries cut off. -/
theorem encodeTable_cut (header : Entry) (size checksum : Int) (es : List Entry) :
    encodeTable { header with size := size, checksum := checksum } (es.map Entry.cut) =
      encodeTable header es := by
  have hitems : ∀ e : Entry, encodeEntries (e :: es.map Entry.cut) = encodeEntries (e :: es) := by
    intro e
    rw [encodeEntries, encodeEntries, encodeEntries_map_cut]
  simp only [encodeTable, List.length_map, hitems]

/-- The text in front is kept by decoding and encoding the header. -/
theorem take_encode_header {image : Bytes} {offset : Nat} {size c : Int} {b : Bytes}
    (hlen : entrySize ≤ (image.drop offset).length)
    (h : ({ Entry.decode ((image.drop offset).take entrySize) with
      size := size, checksum := c } : Entry).encode = .ok b) :
    b.take 8 = (image.drop offset).take 8 := by
  have hold : ((image.drop offset).take entrySize).length = entrySize := by
    rw [List.length_take, Nat.min_eq_left hlen]
  obtain ⟨a, s, v, t, c', h1, _, _, _, _, rfl⟩ := Entry.encode_eq_ok_iff.1 h
  obtain ⟨a', s', v', t', c'', h1', _, _, _, _, hparts⟩ :=
    Entry.encode_eq_ok_iff.1 (Entry.encode_decode hold)
  obtain rfl := Except.ok.inj (h1.symm.trans h1')
  have htake : ((image.drop offset).take entrySize).take 8 = a := by
    rw [hparts, List.take_left' (length_of_packInt h1)]
  rw [List.take_left' (length_of_packInt h1), ← htake, List.take_take]
  rfl

section Written

variable {image out table : Bytes} {offset : Nat} {header : Entry} {es es' : List Entry}

/-- The reader finds the header of a table that was written, its size cut off to its field. -/
theorem read_header_of_written (hmax : offset ≤ Entry.maxOffset)
    (henc : encodeTable header es' = .ok table)
    (hout : (out.drop offset).take table.length = table)
    (hfit : offset + table.length ≤ out.length) : ∃ head, Entry.read out offset = .ok head ∧
      head.size = (es'.length + 1 : Int) % maxEntries := by
  obtain ⟨c, hitems, _⟩ := encodeTable_eq_ok henc
  simp only [encodeItems, bind_eq_ok_iff, pure_eq_ok, Except.ok.injEq] at hitems
  obtain ⟨b, hb, bs, _, rfl⟩ := hitems
  have hlb := Entry.length_of_encode hb
  have hfront : (out.drop offset).take entrySize = b := by
    have hle : entrySize ≤ (b ++ bs).length := by
      rw [List.length_append]
      omega
    rw [← Nat.min_eq_left hle, ← List.take_take, hout, List.take_left' hlb]
  refine ⟨Entry.decode b, Entry.read_eq_ok_iff.2 ⟨hmax, ?_, by rw [hfront]⟩, ?_⟩
  · rw [List.length_append] at hfit
    rw [List.length_drop]
    omega
  · rw [Entry.decode_of_encode hb]
    rfl

/-- A reader finds the entries that were written, cut off to their fields, if their number fits
the header. -/
theorem entriesAt_of_written (hmax : offset ≤ Entry.maxOffset)
    (htype : 0 ≤ header.type ∧ header.type < 0x80) (henc : encodeTable header es' = .ok table)
    (hout : (out.drop offset).take table.length = table)
    (hfit : offset + table.length ≤ out.length)
    (hcount : es'.length + 1 < maxEntries) : ∃ c : Int, entriesAt out offset =
      .ok ({ header with size := es'.length + 1, checksum := c } :: es'.map Entry.cut) ∧
      if header.checksumFlag = 0 then c = 0 else byteSum table % 256 = 0 := by
  obtain ⟨head, hread, hsize⟩ := read_header_of_written hmax henc hout hfit
  obtain ⟨c, hitems, hc⟩ := encodeTable_eq_ok henc
  have hlentable := length_of_encodeEntries hitems
  have hfitsHeader : ({ header with size := es'.length + 1, checksum := c } : Entry).Fits := by
    rw [maxEntries] at hcount
    exact ⟨⟨by dsimp only; omega, by dsimp only; omega⟩, htype⟩
  have hcount' : head.size.toNat = es'.length + 1 := by
    rw [hsize]
    rw [maxEntries] at hcount ⊢
    omega
  refine ⟨c, entriesAt_eq_ok_iff.2 ⟨head, hread, ?_, ?_, ?_⟩, hc⟩
  · rw [hcount']
    exact Nat.succ_ne_zero _
  · rw [hcount']
    rw [hlentable, List.length_cons] at hfit
    exact hfit
  · have hsplit := List.take_append_drop table.length (out.drop offset)
    rw [hout] at hsplit
    rw [hcount', ← hsplit, ← Entry.cut_of_fits hfitsHeader, ← List.map_cons]
    exact frontEntries_of_encode hitems _

/-- A table that was written in the place of another is found as this was. -/
theorem findTable_of_written (htable : TableAt image offset header es)
    (hlen : out.length = image.length)
    (hpointer : Bytes.Agree out image (pointerInterval image.length))
    (henc : encodeTable header es' = .ok table)
    (hout : (out.drop offset).take table.length = table) : findTable out = .ok offset := by
  obtain ⟨_, _, _, hheader, _⟩ := htable.bounds
  obtain ⟨_, htext⟩ := findTable_eq_ok htable.find
  obtain ⟨c, hitems, _⟩ := encodeTable_eq_ok henc
  simp only [encodeItems, bind_eq_ok_iff, pure_eq_ok, Except.ok.injEq] at hitems
  obtain ⟨b, hb, bs, _, rfl⟩ := hitems
  have hlb := Entry.length_of_encode hb
  refine findTable_congr htable.find hlen hpointer ?_
  have hheadlen : entrySize ≤ (image.drop offset).length := by
    obtain ⟨_, hread, _⟩ := entriesAt_eq_ok_iff.1 htable.read
    exact (Entry.read_eq_ok_iff.1 hread).2.1
  have hle : 8 ≤ (b ++ bs).length := by
    rw [List.length_append, hlb, entrySize]
    omega
  rw [hheader] at hb
  rw [← htext, ← take_encode_header hheadlen hb, ← Nat.min_eq_left hle, ← List.take_take, hout,
    Nat.min_eq_left hle, List.take_append_of_le_length (by rw [hlb, entrySize]; omega)]

end Written

end BootGuard.Fit
