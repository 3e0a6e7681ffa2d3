/-
  Writing back what was read.

  An entry is packed into sixteen bytes without losing a bit: the bytes that it was read from are
  its encoding (`Entry.encode_of_read`), and an entry with fields of their widths is read from its
  encoding (`Entry.exists_encode_of_narrow`). Hence a table that was read is written back as it
  was, by induction on the number of its entries (`encodeEntries_of_readEntries`). With its header
  brought up to date it differs in no byte but that of the checksum
  (`encodeTable_of_encodeEntries`). `packing_lossless` puts these together.
-/
import BootGuard.Proofs.Fit.Table

namespace BootGuard.Fit

namespace Entry

/-! ## One entry -/

/-- What is read from sixteen bytes is written as these bytes. -/
theorem encode_of_read {b : Bytes} {offset : Int} {e : Entry} (h : read b offset = .ok e) :
    e.encode = .ok (bytesAt b offset) := by
  obtain ⟨havailable, rfl⟩ := read_eq_ok_iff_available.1 h
  exact encode_decode havailable.length_bytesAt

theorem read_zero {b : Bytes} (h : b.length = entrySize) : read b 0 = .ok (decode b) := by
  rw [← Int.natCast_zero, read_eq_ok_iff, List.drop_zero, h,
    List.take_of_length_le (Nat.le_of_eq h)]
  exact ⟨Nat.zero_le _, Nat.le_refl _, rfl⟩

/-- Every field but the size has a value of its width. -/
structure Narrow (e : Entry) : Prop where
  address : 0 ≤ e.address ∧ e.address < 0x10000000000000000
  rsvd : 0 ≤ e.rsvd ∧ e.rsvd < 0x100
  version : 0 ≤ e.version ∧ e.version < 0x10000
  type : 0 ≤ e.type ∧ e.type < 0x80
  checksumFlag : e.checksumFlag = 0 ∨ e.checksumFlag = 1
  checksum : 0 ≤ e.checksum ∧ e.checksum < 0x100

theorem cut_of_narrow {e : Entry} (h : e.Narrow) :
    e.cut = { e with size := e.size % 0x1000000 } := by
  rw [cut, Int.emod_eq_of_lt h.type.1 h.type.2]

/-- An entry with fields of their widths can be written, and is read from what was written but for
what its size has above 24 bits. -/
theorem exists_encode_of_narrow {e : Entry} (h : e.Narrow) : ∃ b, e.encode = .ok b ∧
    read b 0 = .ok { e with size := e.size % 0x1000000 } := by
  obtain ⟨haddress, hrsvd, hversion, htype, hflag, hchecksum⟩ := id h
  -- Two of the numbers hold two fields each, one above the other.
  have hsize : 0 ≤ e.rsvd * 0x1000000 + e.size % 0x1000000 ∧
      e.rsvd * 0x1000000 + e.size % 0x1000000 < Bytes.valueCount 4 := by
    have h4 : Bytes.valueCount 4 = 0x100000000 := by decide
    omega
  have hkind : 0 ≤ e.checksumFlag * 0x80 + e.type % 0x80 ∧
      e.checksumFlag * 0x80 + e.type % 0x80 < Bytes.valueCount 1 := by
    have h1 : Bytes.valueCount 1 = 0x100 := by decide
    omega
  have hencode := encode_eq_ok_iff.2 ⟨_, _, _, _, _, if_pos haddress, if_pos hsize,
    if_pos hversion, if_pos hkind, if_pos hchecksum, rfl⟩
  refine ⟨_, hencode, ?_⟩
  rw [read_zero (length_of_encode hencode), decode_of_encode hencode, cut_of_narrow h]

end Entry

/-! ## A table -/

/-- The bytes of `count` entries, the first of them at an offset. As long as the offset is below
zero it counts from the end. -/
def tableBytes (b : Bytes) (offset : Int) : Nat → Bytes
  | 0 => []
  | count + 1 => Entry.bytesAt b offset ++ tableBytes b (offset + entrySize) count

theorem tableBytes_natCast (b : Bytes) (offset count : Nat) :
    tableBytes b offset count = (b.drop offset).take (count * entrySize) := by
  induction count generalizing offset with
  | zero => rw [tableBytes, Nat.zero_mul, List.take_zero]
  | succ count ih =>
    rw [tableBytes, Entry.bytesAt_natCast, ← Int.natCast_add, ih, Nat.succ_mul,
      Nat.add_comm (count * entrySize), List.take_add, List.drop_drop]

theorem encodeEntries_of_frontEntries {b : Bytes} {count : Nat} {es : List Entry}
    (h : frontEntries b count = .ok es) :
    encodeEntries es = .ok (b.take (count * entrySize)) := by
  induction count generalizing b es with
  | zero =>
    cases h
    rw [Nat.zero_mul, List.take_zero, encodeEntries]
  | succ count ih =>
    rw [frontEntries] at h
    split at h
    · cases h
    · rename_i hshort
      obtain ⟨es', hes', h⟩ := bind_eq_ok_iff.1 h
      cases h
      rw [Bytes.shorterThan_iff, Nat.not_lt] at hshort
      have hhead : (b.take entrySize).length = entrySize := by
        rw [List.length_take, Nat.min_eq_left hshort]
      rw [encodeEntries, Entry.encode_decode hhead, ok_bind, ih hes', ok_bind, pure_eq_ok,
        Nat.succ_mul, Nat.add_comm, List.take_add]

/-- The entries that were read, one after the other, are written as the bytes they were read
from. -/
theorem encodeEntries_of_readEntries {image : Bytes} {offset : Int} {count : Nat}
    {es : List Entry} (h : readEntries image offset count = .ok es) :
    es.length = count ∧ encodeEntries es = .ok (tableBytes image offset count) := by
  induction count generalizing offset es with
  | zero =>
    cases h
    exact ⟨rfl, rfl⟩
  | succ count ih =>
    rw [readEntries] at h
    split at h
    · rename_i hoffset
      obtain ⟨n, rfl⟩ := Int.eq_ofNat_of_zero_le hoffset
      rw [tableBytes_natCast]
      exact ⟨(frontEntries_eq_ok h).1, encodeEntries_of_frontEntries h⟩
    · obtain ⟨e, he, h⟩ := bind_eq_ok_iff.1 h
      obtain ⟨es', hes', h⟩ := bind_eq_ok_iff.1 h
      cases h
      obtain ⟨hlen, henc⟩ := ih hes'
      refine ⟨by rw [List.length_cons, hlen], ?_⟩
      rw [encodeEntries, Entry.encode_of_read he, ok_bind, henc, ok_bind, pure_eq_ok, tableBytes]

theorem encodeEntries_of_entriesAt {image : Bytes} {offset : Int} {es : List Entry}
    (h : entriesAt image offset = .ok es) :
    encodeEntries es = .ok (tableBytes image offset es.length) := by
  simp only [entriesAt, bind_eq_ok_iff, ite_throw_eq_ok_iff] at h
  obtain ⟨header, _, _, h⟩ := h
  obtain ⟨hlen, henc⟩ := encodeEntries_of_readEntries h
  rw [henc, hlen]

/-- A table that was read is written over itself. -/
theorem overwrite_of_entriesAt {image table : Bytes} {offset : Nat} {es : List Entry}
    (h : entriesAt image offset = .ok es) (htable : encodeEntries es = .ok table) :
    image.overwrite offset table = image := by
  have henc := encodeEntries_of_entriesAt h
  rw [tableBytes_natCast, htable] at henc
  obtain ⟨header, _, _, hle, hfront⟩ := entriesAt_eq_ok_iff.1 h
  rw [← (frontEntries_eq_ok hfront).1] at hle
  obtain rfl := Except.ok.inj henc
  refine Bytes.overwrite_eq_self ?_
  rw [List.length_take, List.length_drop, Nat.min_eq_left (by omega)]

/-- The checksum in the header is as it is written: zero if it does not count, else what makes the
bytes of the table add up to zero. -/
def Balanced (header : Entry) (table : Bytes) : Prop :=
  if header.checksumFlag = 0 then header.checksum = 0 else byteSum table % 256 = 0

instance (header : Entry) (table : Bytes) : Decidable (Balanced header table) :=
  inferInstanceAs (Decidable (if header.checksumFlag = 0 then _ else _))

/-- A table whose header states the number of its entries is brought up to date in one byte, the
checksum. -/
theorem encodeTable_of_encodeEntries {header : Entry} {es : List Entry} {table : Bytes}
    (hsize : header.size = es.length + 1) (h : encodeEntries (header :: es) = .ok table) :
    ∃ v c : UInt8, table[15]? = some v ∧ encodeTable header es = .ok (table.set 15 c) ∧
      (v = c ↔ Balanced header table) := by
  simp only [encodeEntries, bind_eq_ok_iff, pure_eq_ok, Except.ok.injEq] at h
  obtain ⟨b, hb, rest, hrest, rfl⟩ := h
  obtain ⟨front, v, rfl, hlen, hv, hany⟩ := Entry.exists_front_of_encode hb
  have hset : ∀ x : UInt8, (front ++ [v] ++ rest).set 15 x = front ++ [x] ++ rest := by
    intro x
    rw [List.append_assoc, List.append_assoc, List.set_append_right _ _ (Nat.le_of_eq hlen), hlen,
      Nat.sub_self, List.singleton_append, List.set_cons_zero, List.singleton_append]
  have hget : (front ++ [v] ++ rest)[15]? = some v := by
    rw [List.append_assoc, List.getElem?_append_right (Nat.le_of_eq hlen), hlen]
    rfl
  -- The table is written with a checksum of zero first, as its sum is not known before.
  have hzero : encodeEntries ({ header with checksum := 0 } :: es) =
      .ok (front ++ [0] ++ rest) := by
    have hhead : ({ header with checksum := 0 } : Entry).encode = .ok (front ++ [0]) := hany 0
    rw [encodeEntries, hhead, ok_bind, hrest, ok_bind, pure_eq_ok]
  by_cases hflag : header.checksumFlag = 0
  · refine ⟨v, 0, hget, ?_, ?_⟩
    · simp only [encodeTable, ← hsize, hzero, ok_bind, if_pos hflag, pure_eq_ok, hset]
    · rw [Balanced, if_pos hflag, hv, ← UInt8.toNat_inj, UInt8.toNat_zero]
      exact Int.natCast_eq_zero.symm
  · have hdrop : (front ++ [0] ++ rest).drop entrySize = rest := by
      refine List.drop_left' ?_
      rw [List.length_append, hlen]
      rfl
    refine ⟨v, checksum (front ++ [0] ++ rest), hget, ?_, ?_⟩
    · simp only [encodeTable, ← hsize, hzero, ok_bind, if_neg hflag, hany, hdrop, pure_eq_ok, hset]
    · have hlt := v.toNat_lt
      rw [Balanced, if_neg hflag, ← UInt8.toNat_inj, toNat_checksum]
      simp only [byteSum_append, byteSum, UInt8.toNat_zero]
      omega

/-- A table that was read is brought up to date in the last byte of its header, if at all. -/
theorem encodeTable_of_entriesAt {image : Bytes} {offset : Nat} {header : Entry}
    {es : List Entry} (h : entriesAt image offset = .ok (header :: es)) :
    ∃ table, encodeTable header es = .ok table ∧
      (∀ i, i ≠ offset + 15 → (image.overwrite offset table)[i]? = image[i]?) ∧
      (image.overwrite offset table = image ↔
        Balanced header (tableBytes image offset (es.length + 1))) := by
  obtain ⟨_, hle, hsize, _⟩ := bounds_of_entriesAt h
  have henc := encodeEntries_of_entriesAt h
  rw [List.length_cons] at henc
  obtain ⟨v, c, hv, hnew, hbalanced⟩ := encodeTable_of_encodeEntries hsize henc
  have hlen := length_of_encodeEntries (encodeEntries_eq _ ▸ henc)
  rw [List.length_cons] at hlen
  have hlt : 15 < (es.length + 1) * entrySize := by
    rw [Nat.succ_mul, entrySize]
    omega
  have hset : image.overwrite offset ((tableBytes image offset (es.length + 1)).set 15 c) =
      image.set (offset + 15) c := by
    rw [Bytes.overwrite_set (by rw [hlen]; exact hle) (by rw [hlen]; exact hlt),
      overwrite_of_entriesAt h henc]
  refine ⟨_, hnew, ?_, ?_⟩
  · intro i hi
    rw [hset, List.getElem?_set_ne hi.symm]
  · rw [tableBytes_natCast, Bytes.getElem?_slice, if_pos hlt, List.getElem?_eq_some_iff] at hv
    obtain ⟨hin, rfl⟩ := hv
    rw [hset, ← hbalanced]
    constructor
    · intro heq
      have hget : (image.set (offset + 15) c)[offset + 15]? = some c := List.getElem?_set_self hin
      rw [heq, List.getElem?_eq_getElem hin] at hget
      exact Option.some.inj hget
    · rintro rfl
      exact List.set_getElem_self hin

/-- Packing loses nothing. The bytes that an entry is read from are those it is written as. An
entry with fields of their widths can be written, and all its fields are read again; of a size
that is too large it is what the size is modulo 2^24. So the entries of a table are written as the
bytes they were read from, and change nothing when they are written over them. If the header of a
table is brought up to date as well, no byte changes but that of its checksum, and none at all if
the checksum was as it should be. -/
theorem packing_lossless :
    (∀ (b : Bytes) (offset : Int), Entry.Available b offset →
      ∃ e, Entry.read b offset = .ok e ∧ e.encode = .ok (Entry.bytesAt b offset)) ∧
    (∀ e : Entry, e.Narrow → ∃ b, e.encode = .ok b ∧
      Entry.read b 0 = .ok { e with size := e.size % 0x1000000 } ∧
      (0 ≤ e.size ∧ e.size < 0x1000000 → Entry.read b 0 = .ok e)) ∧
    (∀ (image : Bytes) (offset : Int) (es : List Entry), entriesAt image offset = .ok es →
      encodeEntries es = .ok (tableBytes image offset es.length)) ∧
    (∀ (image table : Bytes) (offset : Nat) (es : List Entry), entriesAt image offset = .ok es →
      encodeEntries es = .ok table → image.overwrite offset table = image) ∧
    ∀ (image : Bytes) (offset : Nat) (header : Entry) (es : List Entry),
      entriesAt image offset = .ok (header :: es) → ∃ table, encodeTable header es = .ok table ∧
        (∀ i, i ≠ offset + 15 → (image.overwrite offset table)[i]? = image[i]?) ∧
        (image.overwrite offset table = image ↔
          Balanced header (tableBytes image offset (es.length + 1))) := by
  refine ⟨?_, ?_, fun _ _ _ => encodeEntries_of_entriesAt, fun _ _ _ _ => overwrite_of_entriesAt,
    fun _ _ _ _ => encodeTable_of_entriesAt⟩
  · intro b offset havailable
    have hread := Entry.read_eq_ok_iff_available.2 ⟨havailable, rfl⟩
    exact ⟨_, hread, Entry.encode_of_read hread⟩
  · intro e hnarrow
    obtain ⟨b, hencode, hread⟩ := Entry.exists_encode_of_narrow hnarrow
    refine ⟨b, hencode, hread, fun hsize => ?_⟩
    rw [hread, Int.emod_eq_of_lt hsize.1 hsize.2]

/-- A table whose checksum counts. Behind the header there are microcode with all bits in use and
an entry of another kind. -/
def mixedTable : Bytes :=
  headText ++ Bytes.ofNatLe 4 3 ++ Bytes.ofNatLe 2 0x0100 ++ [0x80, 0x12] ++
  Bytes.ofNatLe 8 0xFFFFFF00 ++ [0xEF, 0xCD, 0xAB, 0x5A] ++ Bytes.ofNatLe 2 0x0203 ++
    [0x81, 0x33] ++
  Bytes.ofNatLe 8 0x0070007100010402 ++ Bytes.zeros 6 ++ [0x0A, 0]

/-- An entry whose size takes a bit too many. -/
def largeEntry : Entry where
  address := 0xFFFFFFFFFFFFFFFF
  size := 0x1ABCDEF
  rsvd := 0xFF
  version := 0xFFFF
  type := typeMicrocode
  checksumFlag := 1
  checksum := 0xFF

theorem narrow_largeEntry : largeEntry.Narrow where
  address := by decide
  rsvd := by decide
  version := by decide
  type := by decide
  checksumFlag := by decide
  checksum := by decide

/-- The table is written over itself, with its header brought up to date too. Its second entry is
read from the end and written as it was. The large entry comes back with 24 bits of its size. -/
theorem packing_lossless_sample :
    (∃ e, Entry.read mixedTable (-32) = .ok e ∧
      e.encode = .ok ((mixedTable.drop 16).take entrySize)) ∧
    (∃ b, largeEntry.encode = .ok b ∧ Entry.read b 0 = .ok { largeEntry with size := 0xABCDEF }) ∧
    ∃ header es table, entriesAt mixedTable 0 = .ok (header :: es) ∧ es.length = 2 ∧
      encodeEntries (header :: es) = .ok mixedTable ∧ encodeTable header es = .ok table ∧
      mixedTable.overwrite 0 table = mixedTable := by
  obtain ⟨hread, hpack, hentries, -, hupdate⟩ := packing_lossless
  have htable : entriesAt mixedTable (0 : Nat) =
      .ok [Entry.decode (mixedTable.take 16), Entry.decode ((mixedTable.drop 16).take 16),
        Entry.decode ((mixedTable.drop 32).take 16)] := eq_ok_of_toOption (by decide +kernel)
  have hbytes : tableBytes mixedTable (0 : Nat) 3 = mixedTable := by decide +kernel
  obtain ⟨b, hencode, hlarge, -⟩ := hpack largeEntry narrow_largeEntry
  obtain ⟨table, hnew, -, hsame⟩ := hupdate mixedTable 0 _ _ htable
  refine ⟨hread mixedTable (-32) ⟨by decide, by decide, by decide⟩, ⟨b, hencode, hlarge⟩,
    _, _, table, htable, rfl, ?_, hnew, hsame.2 (by decide +kernel)⟩
  exact (hentries _ _ _ htable).trans (congrArg _ hbytes)

end BootGuard.Fit
