/-
  Tables of integer fields.

  A table is lawful if what is set in one of its fields is found there and in no other field.
  A lawful table can be written and read: the packed fields of a record, set in any other
  record, make it agree with the first one in these fields (`decodeAll_of_encodeAll`), and
  fields that were read are packed into the bytes they were read from (`encodeAll_decodeAll`).
-/
import BootGuard.Proofs.Codec.Reads

namespace BootGuard

namespace IntField

variable {σ : Type}

/-- What is set in a field of the table is found there, and in no other field. -/
def Lawful : List (IntField σ) → Prop
  | [] => True
  | f :: fs => (∀ v s, f.get (f.set v s) = v) ∧ (∀ g ∈ fs, ∀ v s, f.get (g.set v s) = f.get s) ∧
      Lawful fs

/-- The record `t` with the fields of the table as they are in `s`. -/
def copyAll (fields : List (IntField σ)) (s t : σ) : σ :=
  fields.foldl (fun t f => f.set (f.get s) t) t

theorem length_of_encodeAll {fs : List (IntField σ)} {s : σ} {b : Bytes}
    (h : encodeAll fs s = .ok b) : b.length = totalWidth fs := by
  induction fs generalizing b with
  | nil =>
    cases h
    rfl
  | cons f fs ih =>
    simp only [encodeAll, bind_eq_ok_iff, pure_eq_ok, Except.ok.injEq] at h
    obtain ⟨b1, h1, b2, h2, rfl⟩ := h
    rw [List.length_append, length_of_packInt h1, ih h2, totalWidth]

/-- Setting further fields leaves a field that none of them touches. -/
theorem get_decodeAll {f : IntField σ} {fs : List (IntField σ)}
    (h : ∀ g ∈ fs, ∀ v s, f.get (g.set v s) = f.get s) (b : Bytes) (s : σ) :
    f.get (decodeAll fs b s) = f.get s := by
  induction fs generalizing b s with
  | nil => rfl
  | cons g gs ih =>
    rw [decodeAll, ih fun g' hg' => h g' (List.mem_cons_of_mem _ hg')]
    exact h g List.mem_cons_self _ _

theorem decodeAll_of_encodeAll {fs : List (IntField σ)} {s : σ} {b : Bytes}
    (h : encodeAll fs s = .ok b) (t : σ) : decodeAll fs b t = copyAll fs s t := by
  induction fs generalizing b t with
  | nil => rfl
  | cons f fs ih =>
    simp only [encodeAll, bind_eq_ok_iff, pure_eq_ok, Except.ok.injEq] at h
    obtain ⟨b1, h1, b2, h2, rfl⟩ := h
    obtain ⟨hl, hv⟩ := packInt_eq_ok_iff_toNatLe.1 h1
    have htake : (b1 ++ b2).take f.width = b1 := by rw [← hl]; simp
    have hdrop : (b1 ++ b2).drop f.width = b2 := by rw [← hl]; simp
    rw [decodeAll, htake, hdrop, ← hv, ih h2]
    rfl

/-- What follows the packed fields is not looked at. -/
theorem decodeAll_append {fs : List (IntField σ)} {a : Bytes} (h : a.length = totalWidth fs)
    (b : Bytes) (t : σ) : decodeAll fs (a ++ b) t = decodeAll fs a t := by
  induction fs generalizing a t with
  | nil => rfl
  | cons f fs ih =>
    rw [totalWidth] at h
    have hle : f.width ≤ a.length := by omega
    rw [decodeAll, decodeAll, List.take_append_of_le_length hle, List.drop_append_of_le_length hle,
      ih (by rw [List.length_drop]; omega)]

theorem encodeAll_decodeAll {fs : List (IntField σ)} (hfs : Lawful fs) {b : Bytes}
    (hb : b.length = totalWidth fs) (t : σ) : encodeAll fs (decodeAll fs b t) = .ok b := by
  induction fs generalizing b t with
  | nil =>
    obtain rfl := List.length_eq_zero_iff.1 hb
    rfl
  | cons f fs ih =>
    obtain ⟨hself, hother, hrest⟩ := hfs
    rw [totalWidth] at hb
    have hget : f.get (decodeAll (f :: fs) b t) = Bytes.toNatLe (b.take f.width) := by
      rw [decodeAll, get_decodeAll hother, hself]
    have hpack : packInt f.width (f.get (decodeAll (f :: fs) b t)) = .ok (b.take f.width) := by
      rw [hget, packInt_eq_ok_iff_toNatLe]
      exact ⟨by rw [List.length_take]; omega, rfl⟩
    have htail : encodeAll fs (decodeAll (f :: fs) b t) = .ok (b.drop f.width) :=
      ih hrest (by rw [List.length_drop]; omega) _
    rw [encodeAll, hpack, ok_bind, htail, ok_bind, pure_eq_ok, List.take_append_drop]

/-- The bytes that were read into the fields of `t` are those packed from the result. -/
theorem eq_decodeAll_iff {fs : List (IntField σ)} (hfs : Lawful fs) {s t : σ} {b : Bytes} :
    (b.length = totalWidth fs ∧ s = decodeAll fs b t) ↔
      encodeAll fs s = .ok b ∧ s = copyAll fs s t := by
  constructor
  · intro h
    obtain ⟨hb, rfl⟩ := h
    have henc := encodeAll_decodeAll hfs hb t
    exact ⟨henc, decodeAll_of_encodeAll henc t⟩
  · intro h
    obtain ⟨henc, hs⟩ := h
    refine ⟨length_of_encodeAll henc, ?_⟩
    rw [decodeAll_of_encodeAll henc t]
    exact hs

end IntField

theorem Reader.reads_fields {σ : Type} {table : List (IntField σ)} (h : IntField.Lawful table)
    (part : Part) (t : σ) :
    (Reader.fields table part t).Reads fun s b =>
      IntField.encodeAll table s = .ok b ∧ s = IntField.copyAll table s t := by
  refine (Reader.reads_bind (Reader.reads_take _ part) fun b =>
    Reader.reads_pure (IntField.decodeAll table b t)).congr fun s b => ?_
  rw [← IntField.eq_decodeAll_iff h]
  constructor
  · intro hall
    obtain ⟨x, b1, b2, ⟨rfl, hl⟩, ⟨rfl, rfl⟩, rfl⟩ := hall
    simpa using hl
  · intro hall
    obtain ⟨hl, hs⟩ := hall
    exact ⟨b, b, [], ⟨rfl, hl⟩, ⟨hs, rfl⟩, by simp⟩

/-! ## Lists of records -/

/-- The encodings of the items of a list, one behind the other. -/
def encodeItems {α : Type} (encode : α → Except Error Bytes) : List α → Except Error Bytes
  | [] => .ok []
  | a :: as => do
    let b ← encode a
    let bs ← encodeItems encode as
    return b ++ bs

section EncodeItems

variable {α : Type} {encode : α → Except Error Bytes}

theorem encodeItems_eq_ok_iff {as : List α} {b : Bytes} :
    encodeItems encode as = .ok b ↔ Reader.WrittenAll (fun a b => encode a = .ok b) as b := by
  induction as generalizing b with
  | nil => simp [encodeItems, Reader.WrittenAll, eq_comm]
  | cons a as ih =>
    simp only [encodeItems, Reader.WrittenAll, bind_eq_ok_iff, pure_eq_ok, Except.ok.injEq, ← ih]
    constructor
    · intro h
      obtain ⟨b1, h1, b2, h2, rfl⟩ := h
      exact ⟨b1, b2, h1, h2, rfl⟩
    · intro h
      obtain ⟨b1, b2, h1, h2, rfl⟩ := h
      exact ⟨b1, h1, b2, h2, rfl⟩

theorem encodeItems_append {as as' : List α} {b b' : Bytes} (h : encodeItems encode as = .ok b)
    (h' : encodeItems encode as' = .ok b') : encodeItems encode (as ++ as') = .ok (b ++ b') := by
  induction as generalizing b with
  | nil =>
    cases h
    exact h'
  | cons a as ih =>
    simp only [encodeItems, bind_eq_ok_iff, pure_eq_ok, Except.ok.injEq] at h
    obtain ⟨b1, h1, b2, h2, rfl⟩ := h
    rw [List.cons_append, encodeItems, h1, ok_bind, ih h2, ok_bind, pure_eq_ok,
      List.append_assoc]

theorem encodeItems_singleton (a : α) : encodeItems encode [a] = encode a := by
  rw [encodeItems, encodeItems]
  cases encode a with
  | error e => rfl
  | ok b => rw [ok_bind, ok_bind, pure_eq_ok, List.append_nil]

theorem exists_encode_of_mem {as : List α} {b : Bytes} (h : encodeItems encode as = .ok b) {a : α}
    (ha : a ∈ as) : ∃ x, encode a = .ok x := by
  induction as generalizing b with
  | nil => cases ha
  | cons a' as ih =>
    simp only [encodeItems, bind_eq_ok_iff] at h
    obtain ⟨b1, h1, b2, h2, _⟩ := h
    obtain rfl | ha := List.mem_cons.1 ha
    · exact ⟨b1, h1⟩
    · exact ih h2 ha

end EncodeItems

/-- A loop that reads as many records as there are in a list reads the list. -/
theorem Reader.reads_items {α : Type} {r : Reader α} {encode : α → Except Error Bytes}
    (hr : r.Reads fun a b => encode a = .ok b) (n : Nat) :
    (Reader.many r n).Reads fun as b => as.length = n ∧ encodeItems encode as = .ok b :=
  (Reader.reads_many hr n).congr fun _ _ => by rw [encodeItems_eq_ok_iff]

end BootGuard
