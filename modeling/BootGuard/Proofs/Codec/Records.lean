/-
  The records inside elements are read exactly as they are written.

  Each `reads_read` is a codec law in both directions: digests, lists of digests, segments, keys,
  signatures and key hashes. Nothing is lost and nothing is made up: lengths and counts that are
  derived when a record is written are those that were read.
-/
import BootGuard.Proofs.Codec.Fields
import BootGuard.Record.Key
import BootGuard.Record.KeyHash
import BootGuard.Record.Segment

namespace BootGuard

open Reader

/-! ## Digests -/

namespace Digest

theorem encode_eq_ok_iff {d : Digest} {b : Bytes} :
    d.encode = .ok b ↔ ∃ alg len, packInt 2 d.hashAlg = .ok alg ∧
      packInt 2 d.buffer.length = .ok len ∧ b = alg ++ len ++ d.buffer := by
  simp only [encode, bind_eq_ok_iff, pure_eq_ok, Except.ok.injEq]
  constructor
  · intro h
    obtain ⟨alg, h1, len, h2, rfl⟩ := h
    exact ⟨alg, len, h1, h2, rfl⟩
  · intro h
    obtain ⟨alg, len, h1, h2, rfl⟩ := h
    exact ⟨alg, h1, len, h2, rfl⟩

theorem length_of_encode {d : Digest} {b : Bytes} (h : d.encode = .ok b) : b.length = d.size := by
  obtain ⟨alg, len, h1, h2, rfl⟩ := encode_eq_ok_iff.1 h
  rw [List.length_append, List.length_append, length_of_packInt h1, length_of_packInt h2, size]

theorem reads_read : read.Reads fun d b => d.encode = .ok b := by
  refine (reads_bind (reads_take 4 _) fun head =>
    reads_bind (reads_take (Bytes.toNatLe (head.drop 2)) _) fun buffer =>
      reads_pure (⟨Bytes.toNatLe (head.take 2), buffer⟩ : Digest)).congr fun d b => ?_
  rw [encode_eq_ok_iff]
  constructor
  · intro h
    obtain ⟨head, b1, b2, ⟨rfl, h4⟩, ⟨buffer, b3, b4, ⟨rfl, hlen⟩, ⟨rfl, rfl⟩, rfl⟩, rfl⟩ := h
    refine ⟨b1.take 2, b1.drop 2, ?_, ?_, ?_⟩
    · rw [packInt_eq_ok_iff_toNatLe]
      exact ⟨by rw [List.length_take]; omega, rfl⟩
    · rw [packInt_eq_ok_iff_toNatLe]
      exact ⟨by rw [List.length_drop]; omega, by rw [hlen]⟩
    · rw [List.take_append_drop, List.append_nil]
  · intro h
    obtain ⟨alg, len, h1, h2, rfl⟩ := h
    obtain ⟨hl1, hv1⟩ := packInt_eq_ok_iff_toNatLe.1 h1
    obtain ⟨hl2, hv2⟩ := packInt_eq_ok_iff_toNatLe.1 h2
    have htake : (alg ++ len).take 2 = alg := by rw [← hl1]; simp
    have hdrop : (alg ++ len).drop 2 = len := by rw [← hl1]; simp
    refine ⟨alg ++ len, alg ++ len, d.buffer, ⟨rfl, by rw [List.length_append]; omega⟩,
      ⟨d.buffer, d.buffer, [], ⟨rfl, ?_⟩, ⟨?_, rfl⟩, by simp⟩, rfl⟩
    · rw [hdrop]
      exact_mod_cast hv2
    · rw [htake, ← hv1]

end Digest

/-! ## Lists of digests -/

namespace DigestList

theorem encodeDigests_eq (ds : List Digest) :
    encodeDigests ds = encodeItems Digest.encode ds := by
  induction ds with
  | nil => rfl
  | cons d ds ih => rw [encodeDigests, encodeItems, ih]

theorem length_of_encodeItems {ds : List Digest} {b : Bytes}
    (h : encodeItems Digest.encode ds = .ok b) : b.length = totalSize ds := by
  induction ds generalizing b with
  | nil =>
    cases h
    rfl
  | cons d ds ih =>
    simp only [encodeItems, bind_eq_ok_iff, pure_eq_ok, Except.ok.injEq] at h
    obtain ⟨b1, h1, b2, h2, rfl⟩ := h
    rw [List.length_append, Digest.length_of_encode h1, ih h2, totalSize]

theorem encode_eq_ok_iff {l : DigestList} {b : Bytes} :
    l.encode = .ok b ↔ l.algorithms.Nodup ∧ ∃ size count body, packInt 2 l.size = .ok size ∧
      packInt 2 l.digests.length = .ok count ∧
      encodeItems Digest.encode l.digests = .ok body ∧ b = size ++ count ++ body := by
  simp only [encode, bind_eq_ok_iff, pure_eq_ok, Except.ok.injEq, encodeDigests_eq]
  constructor
  · intro h
    obtain ⟨⟨⟩, hu, size, h1, count, h2, body, h3, rfl⟩ := h
    exact ⟨(Algorithm.checkUnique_eq_ok_iff _).1 hu, size, count, body, h1, h2, h3, rfl⟩
  · intro h
    obtain ⟨hu, size, count, body, h1, h2, h3, rfl⟩ := h
    exact ⟨(), (Algorithm.checkUnique_eq_ok_iff _).2 hu, size, h1, count, h2, body, h3, rfl⟩

theorem ofDigests_eq_ok_iff {ds : List Digest} {l : DigestList} :
    ofDigests ds = .ok l ↔ l.digests = ds ∧ l.algorithms.Nodup := by
  simp only [ofDigests, bind_eq_ok_iff, pure_eq_ok, Except.ok.injEq]
  constructor
  · intro h
    obtain ⟨⟨⟩, hu, rfl⟩ := h
    exact ⟨rfl, (Algorithm.checkUnique_eq_ok_iff _).1 hu⟩
  · intro h
    obtain ⟨rfl, hu⟩ := h
    exact ⟨(), (Algorithm.checkUnique_eq_ok_iff _).2 hu, rfl⟩

/-- What is left to do when the head and the digests of a list have been read: the list started
at `start` and stated `size`. -/
def finish (start : Int) (size count : Nat) (digests : List Digest) : Reader DigestList := do
  let stop ← Reader.position
  if stop - start ≠ size then
    Reader.fail (.invalidManifest (.digestListSize size count))
  else
    match ofDigests digests with
    | .ok l => return l
    | .error e => Reader.fail e

theorem finish_eq_ok_iff {start : Int} {size count : Nat} {ds : List Digest} {c c' : Cursor}
    {l : DigestList} : finish start size count ds c = .ok (l, c') ↔
      c.pos - start = size ∧ l.digests = ds ∧ l.algorithms.Nodup ∧ c' = c := by
  rw [finish, Reader.bind_eq_ok_iff]
  constructor
  · intro h
    obtain ⟨stop, m, h1, h2⟩ := h
    cases h1
    split at h2
    · cases h2
    · rename_i hs
      cases hl : ofDigests ds with
      | error e =>
        rw [hl] at h2
        cases h2
      | ok l' =>
        rw [hl] at h2
        cases h2
        obtain ⟨hd, hu⟩ := ofDigests_eq_ok_iff.1 hl
        exact ⟨Decidable.of_not_not hs, hd, hu, rfl⟩
  · intro h
    obtain ⟨hs, hd, hu, rfl⟩ := h
    refine ⟨c'.pos, c', rfl, ?_⟩
    rw [if_neg (not_not_intro hs), ofDigests_eq_ok_iff.2 ⟨hd, hu⟩]
    rfl

theorem read_eq : read = (do
    let start ← Reader.position
    let head ← Reader.take 4 .digestList
    let digests ← Reader.many Digest.read (Bytes.toNatLe (head.drop 2))
    finish start (Bytes.toNatLe (head.take 2)) (Bytes.toNatLe (head.drop 2)) digests) := rfl

-- The stated size is compared with how far the reader has moved, so this is no instance of
-- `reads_bind`: the places are followed by hand.
theorem reads_read : read.Reads fun l b => l.encode = .ok b := by
  intro c l c' hc
  rw [read_eq]
  simp only [Reader.bind_eq_ok_iff, encode_eq_ok_iff]
  constructor
  · intro h
    obtain ⟨start, m, h0, head, m1, h1, ds, m2, h2, h3⟩ := h
    cases h0
    obtain ⟨b1, ⟨rfl, h4⟩, hp1⟩ := (reads_take 4 _ c head m1 hc).1 h1
    obtain ⟨b2, ⟨hcount, hitems⟩, hp2⟩ :=
      (reads_items Digest.reads_read _ m1 ds m2 (hp1.pos_nonneg hc)).1 h2
    obtain ⟨hsize, rfl, hu, rfl⟩ := finish_eq_ok_iff.1 h3
    refine ⟨b1 ++ b2, ⟨hu, b1.take 2, b1.drop 2, b2, ?_, ?_, hitems, ?_⟩, hp1.trans hp2⟩
    · rw [packInt_eq_ok_iff_toNatLe]
      refine ⟨by rw [List.length_take]; omega, ?_⟩
      rw [hp2.pos, hp1.pos, length_of_encodeItems hitems] at hsize
      rw [size]
      push_cast
      omega
    · rw [packInt_eq_ok_iff_toNatLe]
      exact ⟨by rw [List.length_drop]; omega, by rw [hcount]⟩
    · rw [List.take_append_drop]
  · intro h
    obtain ⟨b, ⟨hu, sizeBytes, countBytes, body, h1, h2, hitems, rfl⟩, hp⟩ := h
    obtain ⟨hl1, hv1⟩ := packInt_eq_ok_iff_toNatLe.1 h1
    obtain ⟨hl2, hv2⟩ := packInt_eq_ok_iff_toNatLe.1 h2
    have htake : (sizeBytes ++ countBytes).take 2 = sizeBytes := by rw [← hl1]; simp
    have hdrop : (sizeBytes ++ countBytes).drop 2 = countBytes := by rw [← hl1]; simp
    obtain ⟨m1, hp1, hp2⟩ := Cursor.passes_append_iff.1 hp
    refine ⟨c.pos, c, rfl, sizeBytes ++ countBytes, m1, ?_, l.digests, c', ?_, ?_⟩
    · exact (reads_take 4 _ c _ m1 hc).2
        ⟨_, ⟨rfl, by rw [List.length_append]; omega⟩, hp1⟩
    · rw [hdrop]
      exact (reads_items Digest.reads_read _ m1 _ c' (hp1.pos_nonneg hc)).2
        ⟨body, ⟨by exact_mod_cast hv2, hitems⟩, hp2⟩
    · rw [finish_eq_ok_iff, htake]
      refine ⟨?_, rfl, hu, rfl⟩
      rw [hp2.pos, hp1.pos, length_of_encodeItems hitems, ← hv1, size, List.length_append, hl1,
        hl2]
      push_cast
      omega

end DigestList

/-! ## Segments -/

namespace Segment

theorem fields_lawful : IntField.Lawful fields := by simp [fields, IntField.Lawful]

theorem encodeAll_eq (ss : List Segment) : encodeAll ss = encodeItems encode ss := by
  induction ss with
  | nil => rfl
  | cons s ss ih => rw [encodeAll, encodeItems, ih]

theorem reads_read : read.Reads fun s b => s.encode = .ok b := by
  refine (reads_fields fields_lawful _ _).congr fun s b => ?_
  have hcopy : IntField.copyAll fields s {} = s := rfl
  rw [hcopy, encode]
  simp

end Segment

/-! ## Keys and signatures -/

/-- Data whose length has been computed, unless the computation failed. -/
theorem Reader.reads_data {σ : Type} (size : Except Error Int) (part : Part) (put : Bytes → σ) :
    Reads (match size with
      | .error e => Reader.fail e
      | .ok n => do
        let data ← Reader.take n.toNat part
        return put data)
      fun x b => ∃ n, size = .ok n ∧ b.length = n.toNat ∧ x = put b := by
  cases size with
  | error e => exact (reads_fail e).congr fun x b => by simp
  | ok n =>
    refine (reads_bind (reads_take n.toNat part) fun data => reads_pure (put data)).congr
      fun x b => ?_
    constructor
    · intro h
      obtain ⟨data, b1, b2, ⟨rfl, hl⟩, ⟨rfl, rfl⟩, rfl⟩ := h
      exact ⟨n, rfl, by simpa using hl, by simp⟩
    · intro h
      obtain ⟨_, ⟨⟩, hl, rfl⟩ := h
      exact ⟨b, b, [], ⟨rfl, hl⟩, ⟨rfl, rfl⟩, by simp⟩

section FieldsAndData

variable {σ : Type} {table : List (IntField σ)} (size : σ → Except Error Int) (data : σ → Bytes)

/-- Fields and the data behind them are encoded if the data has the length that the fields call
for. -/
theorem encodeAll_data_eq_ok_iff {s : σ} {mismatch : Int → Error} {b : Bytes} :
    (do
      let needed ← size s
      if ((data s).length : Int) ≠ needed then
        throw (mismatch needed)
      let head ← IntField.encodeAll table s
      return head ++ data s : Except Error Bytes) = .ok b ↔
    size s = .ok (data s).length ∧
      ∃ head, IntField.encodeAll table s = .ok head ∧ b = head ++ data s := by
  simp only [bind_eq_ok_iff, ite_throw_eq_ok_iff, pure_eq_ok, Except.ok.injEq]
  constructor
  · intro h
    obtain ⟨needed, hn, hl, head, hh, rfl⟩ := h
    exact ⟨by rw [hn, Decidable.of_not_not hl], head, hh, rfl⟩
  · intro h
    obtain ⟨hn, head, hh, rfl⟩ := h
    exact ⟨_, hn, not_not_intro rfl, head, hh, rfl⟩

/-- A reader of fields and of as much data as they call for, which `put` sets beside them. -/
theorem Reader.reads_fields_data (put : Bytes → σ → σ) (t : σ) (part part' : Part)
    (htable : IntField.Lawful table)
    (hsize : ∀ s head n, IntField.encodeAll table s = .ok head → size s = .ok n → 0 ≤ n)
    (hput : ∀ d s, data (put d s) = d ∧ size (put d s) = size s ∧
      IntField.encodeAll table (put d s) = IntField.encodeAll table s)
    (hcopy : ∀ s, put (data s) (IntField.copyAll table s t) = s) :
    Reads (do
        let s ← Reader.fields table part t
        match size s with
        | .error e => Reader.fail e
        | .ok n => do
          let data ← Reader.take n.toNat part'
          return put data s)
      fun s b => size s = .ok (data s).length ∧
        ∃ head, IntField.encodeAll table s = .ok head ∧ b = head ++ data s := by
  refine (reads_bind (reads_fields htable _ _) fun s =>
    reads_data (size s) _ fun data => put data s).congr fun s b => ?_
  constructor
  · intro h
    obtain ⟨s, head, d, ⟨hh, _⟩, ⟨n, hn, hl, rfl⟩, rfl⟩ := h
    obtain ⟨hdata, hsame, henc⟩ := hput d s
    have hpos := hsize s head n hh hn
    have hlen : (d.length : Int) = n := by omega
    rw [hdata, hsame, henc, hlen]
    exact ⟨hn, head, hh, rfl⟩
  · intro h
    obtain ⟨hn, head, hh, rfl⟩ := h
    obtain ⟨_, hsame, henc⟩ := hput (data s) (IntField.copyAll table s t)
    rw [hcopy] at hsame henc
    have hh' := henc.symm.trans hh
    have hidem : IntField.copyAll table s t =
        IntField.copyAll table (IntField.copyAll table s t) t :=
      (IntField.decodeAll_of_encodeAll hh t).symm.trans (IntField.decodeAll_of_encodeAll hh' t)
    exact ⟨_, head, data s, ⟨hh', hidem⟩,
      ⟨_, hsame.symm.trans hn, (Int.toNat_natCast _).symm, (hcopy s).symm⟩, rfl⟩

end FieldsAndData

namespace KeyDescriptor

theorem fields_lawful : IntField.Lawful fields := by simp [fields, IntField.Lawful]

theorem dataSize_bounds {alg bits n : Int} (hb : 0 ≤ bits) (h : dataSize alg bits = .ok n) :
    0 ≤ n ∧ n ≤ bits + 4 := by
  unfold dataSize bytesOfBits at h
  split at h
  · cases h
    omega
  · split at h
    · cases h
      omega
    · split at h
      · cases h
        omega
      · cases h

theorem keySize_bounds {k : KeyDescriptor} {b : Bytes}
    (h : IntField.encodeAll fields k = .ok b) : 0 ≤ k.keySize ∧ k.keySize < 0x10000 := by
  simp only [fields, IntField.encodeAll, bind_eq_ok_iff] at h
  obtain ⟨_, _, _, ⟨_, _, _, ⟨_, h3, _⟩, _⟩, _⟩ := h
  exact (packInt_eq_ok_iff.1 h3).1

theorem encode_eq_ok_iff {k : KeyDescriptor} {b : Bytes} :
    k.encode = .ok b ↔ dataSize k.keyAlg k.keySize = .ok k.data.length ∧
      ∃ head, IntField.encodeAll fields k = .ok head ∧ b = head ++ k.data := by
  unfold encode
  exact encodeAll_data_eq_ok_iff (fun x => dataSize x.keyAlg x.keySize) data

theorem reads_read : read.Reads fun k b => k.encode = .ok b := by
  refine (Reader.reads_fields_data (fun x => dataSize x.keyAlg x.keySize) data
    (fun d x => { x with data := d }) {} _ _ fields_lawful ?_ (fun _ _ => ⟨rfl, rfl, rfl⟩)
    fun _ => rfl).congr fun _ _ => encode_eq_ok_iff.symm
  intro k head n hh hn
  exact (dataSize_bounds (keySize_bounds hh).1 hn).1

end KeyDescriptor

namespace SignatureDescriptor

theorem fields_lawful : IntField.Lawful fields := by simp [fields, IntField.Lawful]

theorem dataSize_bounds {scheme bits n : Int} (hb : 0 ≤ bits)
    (h : dataSize scheme bits = .ok n) : 0 ≤ n ∧ n ≤ bits + 4 := by
  unfold dataSize bytesOfBits at h
  split at h
  · cases h
    omega
  · split at h
    · cases h
      omega
    · split at h
      · cases h
        omega
      · cases h

theorem keySize_bounds {s : SignatureDescriptor} {b : Bytes}
    (h : IntField.encodeAll fields s = .ok b) : 0 ≤ s.keySize ∧ s.keySize < 0x10000 := by
  simp only [fields, IntField.encodeAll, bind_eq_ok_iff] at h
  obtain ⟨_, _, _, ⟨_, _, _, ⟨_, h3, _⟩, _⟩, _⟩ := h
  exact (packInt_eq_ok_iff.1 h3).1

theorem encode_eq_ok_iff {s : SignatureDescriptor} {b : Bytes} :
    s.encode = .ok b ↔ dataSize s.sigScheme s.keySize = .ok s.data.length ∧
      ∃ head, IntField.encodeAll fields s = .ok head ∧ b = head ++ s.data := by
  unfold encode
  exact encodeAll_data_eq_ok_iff (fun x => dataSize x.sigScheme x.keySize) data

theorem reads_read : read.Reads fun s b => s.encode = .ok b := by
  refine (Reader.reads_fields_data (fun x => dataSize x.sigScheme x.keySize) data
    (fun d x => { x with data := d }) {} _ _ fields_lawful ?_ (fun _ _ => ⟨rfl, rfl, rfl⟩)
    fun _ => rfl).congr fun _ _ => encode_eq_ok_iff.symm
  intro s head n hh hn
  exact (dataSize_bounds (keySize_bounds hh).1 hn).1

end SignatureDescriptor

namespace KeySignature

theorem fields_lawful : IntField.Lawful fields := by simp [fields, IntField.Lawful]

theorem encode_eq_ok_iff {k : KeySignature} {b : Bytes} :
    k.encode = .ok b ↔ ∃ version key signature, IntField.encodeAll fields k = .ok version ∧
      k.key.encode = .ok key ∧ k.signature.encode = .ok signature ∧
      b = version ++ key ++ signature := by
  simp only [encode, bind_eq_ok_iff, pure_eq_ok, Except.ok.injEq]
  constructor
  · intro h
    obtain ⟨version, h1, key, h2, signature, h3, rfl⟩ := h
    exact ⟨version, key, signature, h1, h2, h3, rfl⟩
  · intro h
    obtain ⟨version, key, signature, h1, h2, h3, rfl⟩ := h
    exact ⟨version, h1, key, h2, signature, h3, rfl⟩

theorem reads_read : read.Reads fun k b => k.encode = .ok b := by
  refine (reads_bind (reads_fields fields_lawful _ _) fun k =>
    reads_bind KeyDescriptor.reads_read fun key =>
      reads_bind SignatureDescriptor.reads_read fun signature =>
        reads_pure { k with key := key, signature := signature }).congr fun k b => ?_
  rw [encode_eq_ok_iff]
  constructor
  · intro h
    obtain ⟨k, version, b1, ⟨hv, _⟩, ⟨key, kb, b2, hk, ⟨signature, sb, b3, hs, ⟨rfl, rfl⟩, rfl⟩,
      rfl⟩, rfl⟩ := h
    exact ⟨version, kb, sb, hv, hk, hs, by simp⟩
  · intro h
    obtain ⟨version, kb, sb, hv, hk, hs, rfl⟩ := h
    exact ⟨{ k with key := {}, signature := {} }, version, kb ++ sb, ⟨hv, rfl⟩,
      ⟨k.key, kb, sb, hk, ⟨k.signature, sb, [], hs, ⟨rfl, rfl⟩, by simp⟩, rfl⟩, by simp⟩

theorem ne_nil_of_encode {k : KeySignature} {b : Bytes} (h : k.encode = .ok b) : b ≠ [] := by
  obtain ⟨version, key, signature, hv, _, _, rfl⟩ := encode_eq_ok_iff.1 h
  have hl : version.length = 1 := IntField.length_of_encodeAll hv
  intro hnil
  simp only [List.append_eq_nil_iff] at hnil
  rw [hnil.1.1] at hl
  cases hl

theorem le_length_of_encode {k : KeySignature} {b : Bytes} (h : k.encode = .ok b) :
    13 ≤ b.length := by
  have hp : (Reader.start b 0).Passes b ⟨b.length, []⟩ :=
    ⟨(List.append_nil b).symm, (Int.zero_add _).symm⟩
  have hread := (reads_read (Reader.start b 0) k _ (Int.le_refl 0)).2 ⟨b, h, hp⟩
  have hle := consumes_read _ _ _ hread
  rw [List.length_nil, Nat.zero_add] at hle
  exact hle

/-- The sizes in the records bound the length of a key signature. -/
theorem length_of_encode_lt {k : KeySignature} {b : Bytes} (h : k.encode = .ok b) :
    b.length < 0x30000 := by
  obtain ⟨version, key, signature, hv, hk, hs, rfl⟩ := encode_eq_ok_iff.1 h
  obtain ⟨hkn, khead, hkh, rfl⟩ := KeyDescriptor.encode_eq_ok_iff.1 hk
  obtain ⟨hsn, shead, hsh, rfl⟩ := SignatureDescriptor.encode_eq_ok_iff.1 hs
  have hkbits := KeyDescriptor.keySize_bounds hkh
  have hsbits := SignatureDescriptor.keySize_bounds hsh
  have hkdata := KeyDescriptor.dataSize_bounds hkbits.1 hkn
  have hsdata := SignatureDescriptor.dataSize_bounds hsbits.1 hsn
  have hvlen : version.length = 1 := IntField.length_of_encodeAll hv
  have hklen : khead.length = 5 := IntField.length_of_encodeAll hkh
  have hslen : shead.length = 7 := IntField.length_of_encodeAll hsh
  simp only [List.length_append]
  omega

end KeySignature

/-! ## Key hashes -/

namespace KeyHash

theorem fields_lawful : IntField.Lawful fields := by simp [fields, IntField.Lawful]

theorem encodeAll_eq (ks : List KeyHash) : encodeAll ks = encodeItems encode ks := by
  induction ks with
  | nil => rfl
  | cons k ks ih => rw [encodeAll, encodeItems, ih]

theorem encode_eq_ok_iff {k : KeyHash} {b : Bytes} :
    k.encode = .ok b ↔ ∃ usage digest, IntField.encodeAll fields k = .ok usage ∧
      k.digest.encode = .ok digest ∧ b = usage ++ digest := by
  simp only [encode, bind_eq_ok_iff, pure_eq_ok, Except.ok.injEq]
  constructor
  · intro h
    obtain ⟨usage, h1, digest, h2, rfl⟩ := h
    exact ⟨usage, digest, h1, h2, rfl⟩
  · intro h
    obtain ⟨usage, digest, h1, h2, rfl⟩ := h
    exact ⟨usage, h1, digest, h2, rfl⟩

theorem reads_read : read.Reads fun k b => k.encode = .ok b := by
  refine (reads_bind (reads_fields fields_lawful _ _) fun k =>
    reads_bind Digest.reads_read fun digest =>
      reads_pure { k with digest := digest }).congr fun k b => ?_
  rw [encode_eq_ok_iff]
  constructor
  · intro h
    obtain ⟨k, usage, b1, ⟨hu, _⟩, ⟨digest, db, b2, hd, ⟨rfl, rfl⟩, rfl⟩, rfl⟩ := h
    exact ⟨usage, db, hu, hd, by simp⟩
  · intro h
    obtain ⟨usage, db, hu, hd, rfl⟩ := h
    exact ⟨{ k with digest := {} }, usage, db, ⟨hu, rfl⟩,
      ⟨k.digest, db, [], hd, ⟨rfl, rfl⟩, by simp⟩, rfl⟩

end KeyHash

end BootGuard
