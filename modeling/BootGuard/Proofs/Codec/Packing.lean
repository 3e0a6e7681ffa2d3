/-
  What packing comes to when every field fits.

  With integer fields that fit their widths there is still what is derived: lengths, counts and
  sizes, each in one or two bytes. Some are looked at before they are packed, others are not, so a
  structure that is too large is refused or fails as a number out of range, whichever comes first.
  `Packs` states the conditions of both; it goes through a sequence of steps (`Packs.bind`) and
  through a list (`packs_encodeItems`), and so there is one statement for every record.
-/
import BootGuard.Proofs.Codec.Elements
import BootGuard.Proofs.Codec.Cuts
import Mathlib.Algebra.GroupWithZero.Nat

namespace BootGuard

/-- The failures that say that a structure breaks a rule. -/
def Error.IsStructural : Error → Prop
  | invalidManifest _ | duplicateAlgorithm _ => True
  | _ => False

/-- Packing succeeds exactly if `fits`, and finds a number out of its range exactly if
`overflows`. Else it is refused because a structure breaks a rule. Only a size that is too `vast`
to be written makes a message fail. -/
structure Packs {α : Type} (x : Except Error α) (fits overflows vast : Prop) : Prop where
  ok_iff : (∃ a, x = .ok a) ↔ fits
  range_iff : x = .error .fieldRange ↔ overflows
  refused : ∀ e, x = .error e → e = .fieldRange ∨ e.IsStructural ∨ e = .badValue .numeral ∧ vast

/-! ## Steps in sequence -/

section Sequence

variable {α β : Type} {x : Except Error α} {fits overflows vast fits' overflows' vast' : Prop}

theorem packs_of_eq_ok {a : α} (h : x = .ok a) : Packs x True False False := by
  subst h
  exact ⟨by simp, by simp, by simp⟩

theorem packs_pure (a : α) : Packs (pure a : Except Error α) True False False := packs_of_eq_ok rfl

theorem packs_error {e : Error} (h : e.IsStructural) :
    Packs (.error e : Except Error α) False False False := by
  refine ⟨by simp, ?_, ?_⟩
  · refine ⟨?_, False.elim⟩
    rintro ⟨⟩
    exact h
  · rintro _ ⟨⟩
    exact .inr (.inl h)

theorem Packs.congr (h : Packs x fits overflows vast) (hfits : fits ↔ fits')
    (hoverflows : overflows ↔ overflows') (hvast : vast → vast') :
    Packs x fits' overflows' vast' where
  ok_iff := h.ok_iff.trans hfits
  range_iff := h.range_iff.trans hoverflows
  refused e he := (h.refused e he).imp_right (.imp_right (.imp_right hvast))

/-- A step that finds a number out of range comes behind steps that succeed. -/
theorem Packs.bind {f : α → Except Error β} (hx : Packs x fits overflows vast)
    (hf : ∀ a, x = .ok a → Packs (f a) fits' overflows' vast') :
    Packs (x >>= f) (fits ∧ fits') (overflows ∨ fits ∧ overflows') (vast ∨ vast') := by
  refine ⟨?_, ?_, ?_⟩
  · constructor
    · rintro ⟨b, hb⟩
      obtain ⟨a, ha, hfa⟩ := bind_eq_ok_iff.1 hb
      exact ⟨hx.ok_iff.1 ⟨a, ha⟩, (hf a ha).ok_iff.1 ⟨b, hfa⟩⟩
    · rintro ⟨h, h'⟩
      obtain ⟨a, ha⟩ := hx.ok_iff.2 h
      obtain ⟨b, hfa⟩ := (hf a ha).ok_iff.2 h'
      exact ⟨b, bind_eq_ok_iff.2 ⟨a, ha, hfa⟩⟩
  · rw [bind_eq_error_iff, hx.range_iff]
    refine or_congr_right ?_
    constructor
    · rintro ⟨a, ha, hfa⟩
      exact ⟨hx.ok_iff.1 ⟨a, ha⟩, (hf a ha).range_iff.1 hfa⟩
    · rintro ⟨h, h'⟩
      obtain ⟨a, ha⟩ := hx.ok_iff.2 h
      exact ⟨a, ha, (hf a ha).range_iff.2 h'⟩
  · intro e he
    obtain he | ⟨a, ha, hfa⟩ := bind_eq_error_iff.1 he
    · exact (hx.refused e he).imp_right (.imp_right (.imp_right .inl))
    · exact ((hf a ha).refused e hfa).imp_right (.imp_right (.imp_right .inr))

/-- A check in front of further steps refuses what it does not let through. -/
theorem Packs.check {p : Prop} [Decidable p] {e : Error} {f : PUnit → Except Error β}
    (he : e.IsStructural) (hf : Packs (f ⟨⟩) fits overflows vast) :
    Packs (if p then (throw e : Except Error PUnit) >>= f else f ⟨⟩) (¬ p ∧ fits)
      (¬ p ∧ overflows) vast := by
  by_cases hp : p
  · rw [if_pos hp]
    exact (packs_error he).congr (by simp [hp]) (by simp [hp]) False.elim
  · rw [if_neg hp]
    exact hf.congr (by simp [hp]) (by simp [hp]) id

end Sequence

/-! ## Lists -/

/-- In front of an item that overflows there are only items that fit. -/
def FirstOverflow {α : Type} (fits overflows : α → Prop) (as : List α) : Prop :=
  ∃ front a back, as = front ++ a :: back ∧ (∀ b ∈ front, fits b) ∧ overflows a

section Items

variable {α : Type} {fits overflows vast : α → Prop}

theorem firstOverflow_nil : ¬ FirstOverflow fits overflows [] := by
  rintro ⟨front, a, back, heq, _⟩
  simp at heq

theorem firstOverflow_cons {a : α} {as : List α} : FirstOverflow fits overflows (a :: as) ↔
    overflows a ∨ fits a ∧ FirstOverflow fits overflows as := by
  constructor
  · rintro ⟨front, b, back, heq, hfront, hb⟩
    cases front with
    | nil =>
      cases heq
      exact .inl hb
    | cons c front =>
      cases heq
      exact .inr ⟨hfront _ List.mem_cons_self, front, b, back, rfl,
        fun d hd => hfront d (List.mem_cons_of_mem _ hd), hb⟩
  · rintro (ha | ⟨ha, front, b, back, rfl, hfront, hb⟩)
    · exact ⟨[], a, as, rfl, by simp, ha⟩
    · exact ⟨a :: front, b, back, rfl, by simpa using ⟨ha, hfront⟩, hb⟩

/-- Items that do not overflow if they fit, and fit if they do not. -/
theorem firstOverflow_not_iff {as : List α} :
    FirstOverflow fits (fun a => ¬ fits a) as ↔ ¬ ∀ a ∈ as, fits a := by
  induction as with
  | nil => simp [firstOverflow_nil]
  | cons a as ih =>
    rw [firstOverflow_cons, ih, List.forall_mem_cons]
    tauto

theorem packs_encodeItems {encode : α → Except Error Bytes} {as : List α}
    (h : ∀ a ∈ as, Packs (encode a) (fits a) (overflows a) (vast a)) :
    Packs (encodeItems encode as) (∀ a ∈ as, fits a) (FirstOverflow fits overflows as)
      (∃ a ∈ as, vast a) := by
  induction as with
  | nil => exact (packs_of_eq_ok rfl).congr (by simp) (by simp [firstOverflow_nil]) False.elim
  | cons a as ih =>
    have ha := h a List.mem_cons_self
    have has := ih fun b hb => h b (List.mem_cons_of_mem _ hb)
    rw [encodeItems]
    refine (ha.bind fun b _ => has.bind fun bs _ => packs_pure (b ++ bs)).congr ?_ ?_ ?_
    · rw [List.forall_mem_cons, and_true]
    · rw [firstOverflow_cons, and_false, or_false]
    · rw [or_false, List.exists_mem_cons_iff]
      exact id

theorem length_of_encodeItems {encode : α → Except Error Bytes} {size : α → Nat}
    (hsize : ∀ a b, encode a = .ok b → b.length = size a) {as : List α} {b : Bytes}
    (h : encodeItems encode as = .ok b) : b.length = (as.map size).sum := by
  induction as generalizing b with
  | nil =>
    cases h
    rfl
  | cons a as ih =>
    simp only [encodeItems, bind_eq_ok_iff, pure_eq_ok, Except.ok.injEq] at h
    obtain ⟨b1, h1, b2, h2, rfl⟩ := h
    rw [List.length_append, hsize _ _ h1, ih h2, List.map_cons, List.sum_cons]

end Items

/-! ## Integers -/

theorem packs_packInt (w n : Nat) : Packs (packInt w n) (n < Bytes.valueCount w)
    (¬ n < Bytes.valueCount w) False := by
  by_cases h : n < Bytes.valueCount w
  · have hok : packInt w n = .ok (Bytes.ofNatLe w n) := by
      rw [packInt, if_pos (by omega), Int.toNat_natCast]
    exact (packs_of_eq_ok hok).congr (by simp [h]) (by simp [h]) id
  · have herror : packInt w n = .error .fieldRange := by
      rw [packInt, if_neg (by omega)]
    rw [herror]
    exact ⟨by simp [h], by simp [h], by simp⟩

namespace IntField

variable {σ : Type}

/-- Every integer field of the table fits its width. -/
def AllFit (fields : List (IntField σ)) (s : σ) : Prop := ∀ f ∈ fields, f.Fits s

instance (fields : List (IntField σ)) (s : σ) : Decidable (AllFit fields s) :=
  inferInstanceAs (Decidable (∀ f ∈ fields, f.Fits s))

theorem AllFit.append {fields fields' : List (IntField σ)} {s : σ}
    (h : AllFit (fields ++ fields') s) : AllFit fields s ∧ AllFit fields' s :=
  List.forall_mem_append.1 h

theorem packInt_of_fits {f : IntField σ} {s : σ} (h : f.Fits s) :
    packInt f.width (f.get s) = .ok (Bytes.ofNatLe f.width (f.get s).toNat) := if_pos h

theorem exists_encodeAll {fields : List (IntField σ)} {s : σ} (h : AllFit fields s) :
    ∃ b, encodeAll fields s = .ok b := by
  induction fields with
  | nil => exact ⟨[], rfl⟩
  | cons f fs ih =>
    obtain ⟨bs, hbs⟩ := ih fun g hg => h g (List.mem_cons_of_mem _ hg)
    refine ⟨Bytes.ofNatLe f.width (f.get s).toNat ++ bs, ?_⟩
    rw [encodeAll, packInt_of_fits (h f List.mem_cons_self), ok_bind, hbs, ok_bind, pure_eq_ok]

theorem packs_encodeAll {fields : List (IntField σ)} {s : σ} (h : AllFit fields s) :
    Packs (encodeAll fields s) True False False := by
  obtain ⟨b, hb⟩ := exists_encodeAll h
  exact packs_of_eq_ok hb

end IntField

open IntField (AllFit packs_encodeAll)

/-! ## Records -/

namespace Digest

/-- The algorithm fits; how long the buffer is does not matter. -/
def FieldsFit (d : Digest) : Prop := AllFit fields d

theorem packs_encode {d : Digest} (h : d.FieldsFit) :
    Packs d.encode (d.buffer.length ≤ Frame.maxSize) (¬ d.buffer.length ≤ Frame.maxSize) False := by
  have hlt : d.buffer.length < Bytes.valueCount 2 ↔ d.buffer.length ≤ Frame.maxSize :=
    Nat.lt_succ_iff
  have halg := IntField.packInt_of_fits (h _ List.mem_cons_self)
  refine ((packs_of_eq_ok halg).bind fun alg _ => (packs_packInt 2 d.buffer.length).bind
    fun length _ => packs_pure (alg ++ length ++ d.buffer)).congr ?_ ?_ ?_
  · simp [hlt]
  · simp [hlt]
  · simp

end Digest

namespace DigestList

/-- The algorithms fit. -/
def FieldsFit (l : DigestList) : Prop := ∀ d ∈ l.digests, d.FieldsFit

theorem length_le_totalSize (ds : List Digest) : ds.length ≤ totalSize ds := by
  induction ds with
  | nil => exact Nat.le_refl _
  | cons d ds ih =>
    rw [List.length_cons, totalSize, Digest.size]
    omega

theorem size_le_totalSize {ds : List Digest} {d : Digest} (h : d ∈ ds) :
    d.size ≤ totalSize ds := by
  induction ds with
  | nil => cases h
  | cons x xs ih =>
    rw [totalSize]
    obtain rfl | h := List.mem_cons.1 h
    · exact Nat.le_add_right _ _
    · exact Nat.le_trans (ih h) (Nat.le_add_left _ _)

theorem length_of_encode {l : DigestList} {b : Bytes} (h : l.encode = .ok b) :
    b.length = l.size := by
  obtain ⟨_, size, count, body, h1, h2, h3, rfl⟩ := encode_eq_ok_iff.1 h
  rw [List.length_append, List.length_append, length_of_packInt h1, length_of_packInt h2,
    length_of_encodeItems h3, DigestList.size]

theorem packs_checkUnique (l : DigestList) :
    Packs (Algorithm.checkUnique l.algorithms) l.algorithms.Nodup False False := by
  cases h : Algorithm.checkUnique l.algorithms with
  | ok u =>
    have hnodup := (Algorithm.checkUnique_eq_ok_iff _).1 h
    exact (packs_of_eq_ok rfl).congr (by simp [hnodup]) Iff.rfl id
  | error e =>
    have hnodup : ¬ l.algorithms.Nodup := by
      intro hnodup
      rw [(Algorithm.checkUnique_eq_ok_iff _).2 hnodup] at h
      cases h
    have he : e.IsStructural := by
      unfold Algorithm.checkUnique at h
      split at h <;> cases h
      trivial
    exact (packs_error he).congr (by simp [hnodup]) Iff.rfl id

/-- A list whose size can be stated has no digest and no count that cannot. -/
theorem packs_encode {l : DigestList} (h : l.FieldsFit) :
    Packs l.encode (l.algorithms.Nodup ∧ l.size ≤ Frame.maxSize)
      (l.algorithms.Nodup ∧ ¬ l.size ≤ Frame.maxSize) False := by
  have hcount : l.size ≤ Frame.maxSize → l.digests.length ≤ Frame.maxSize := by
    have := length_le_totalSize l.digests
    rw [size]
    omega
  have hitems : l.size ≤ Frame.maxSize → ∀ d ∈ l.digests, d.buffer.length ≤ Frame.maxSize := by
    intro hsize d hd
    have := size_le_totalSize hd
    rw [Digest.size] at this
    rw [size] at hsize
    omega
  have hlt : ∀ n, n < Bytes.valueCount 2 ↔ n ≤ Frame.maxSize := fun n => Nat.lt_succ_iff
  have hbody := packs_encodeItems fun d hd => Digest.packs_encode (h d hd)
  rw [encode, encodeDigests_eq]
  refine ((packs_checkUnique l).bind fun _ _ => (packs_packInt 2 l.size).bind fun size _ =>
    (packs_packInt 2 l.digests.length).bind fun count _ => hbody.bind fun body _ =>
      packs_pure (size ++ count ++ body)).congr ?_ ?_ ?_
  · rw [hlt, hlt]
    tauto
  · rw [hlt, hlt, firstOverflow_not_iff]
    tauto
  · simp

end DigestList

namespace Segment

def FieldsFit (s : Segment) : Prop := AllFit fields s

theorem packs_encodeItems {ss : List Segment} (h : ∀ s ∈ ss, s.FieldsFit) :
    Packs (encodeItems encode ss) True False False := by
  refine (BootGuard.packs_encodeItems fun s hs => packs_encodeAll (h s hs)).congr ?_ ?_ ?_
  · simp
  · simp [FirstOverflow]
  · simp

end Segment

namespace KeyHash

/-- The usage and the algorithm fit. -/
def FieldsFit (k : KeyHash) : Prop := AllFit fields k ∧ k.digest.FieldsFit

/-- The length of the encoding. -/
def size (k : KeyHash) : Nat := IntField.totalWidth fields + k.digest.size

theorem length_of_encode {k : KeyHash} {b : Bytes} (h : k.encode = .ok b) :
    b.length = k.size := by
  obtain ⟨usage, digest, h1, h2, rfl⟩ := encode_eq_ok_iff.1 h
  rw [List.length_append, IntField.length_of_encodeAll h1, Digest.length_of_encode h2, size]

theorem packs_encode {k : KeyHash} (h : k.FieldsFit) :
    Packs k.encode (k.digest.buffer.length ≤ Frame.maxSize)
      (¬ k.digest.buffer.length ≤ Frame.maxSize) False := by
  refine ((packs_encodeAll h.1).bind fun usage _ => (Digest.packs_encode h.2).bind
    fun digest _ => packs_pure (usage ++ digest)).congr ?_ ?_ ?_ <;> simp

end KeyHash

/-! ## Key signatures -/

/-- The fields fit, the algorithm is known, and the data is as long as it asks for. -/
def KeyDescriptor.Consistent (k : KeyDescriptor) : Prop :=
  AllFit KeyDescriptor.fields k ∧ KeyDescriptor.dataSize k.keyAlg k.keySize = .ok k.data.length

/-- The fields fit, the scheme is known, and the data is as long as it asks for. -/
def SignatureDescriptor.Consistent (s : SignatureDescriptor) : Prop :=
  AllFit SignatureDescriptor.fields s ∧
    SignatureDescriptor.dataSize s.sigScheme s.keySize = .ok s.data.length

/-- The key and the signature are consistent. -/
def KeySignature.Consistent (k : KeySignature) : Prop :=
  AllFit KeySignature.fields k ∧ k.key.Consistent ∧ k.signature.Consistent

theorem KeySignature.packs_encode? {s : Option KeySignature} (h : ∀ k ∈ s, k.Consistent) :
    Packs (KeySignature.encode? s) True False False := by
  cases s with
  | none => exact packs_of_eq_ok rfl
  | some k =>
    obtain ⟨hversion, ⟨hkey, hkeyData⟩, ⟨hsignature, hsignatureData⟩⟩ := h k rfl
    obtain ⟨version, hv⟩ := IntField.exists_encodeAll hversion
    obtain ⟨key, hk⟩ := IntField.exists_encodeAll hkey
    obtain ⟨signature, hs⟩ := IntField.exists_encodeAll hsignature
    exact packs_of_eq_ok (KeySignature.encode_eq_ok_iff.2 ⟨version, _, _, hv,
      KeyDescriptor.encode_eq_ok_iff.2 ⟨hkeyData, key, hk, rfl⟩,
      SignatureDescriptor.encode_eq_ok_iff.2 ⟨hsignatureData, signature, hs, rfl⟩, rfl⟩)

/-! ## Frames -/

namespace Frame

variable {kind : ElementKind} {structVer var0 : Int} {body : Bytes}
  (hver : 0 ≤ structVer ∧ structVer < Bytes.valueCount 1)
  (hvar : 0 ≤ var0 ∧ var0 < Bytes.valueCount 1)
include hver hvar

theorem packs_encode {size : Int} (hsize : 0 ≤ size ∧ size < Bytes.valueCount 2) :
    Packs (encode kind structVer var0 size body) True False False :=
  packs_of_eq_ok (encode_eq_ok_iff.2 ⟨_, _, _, if_pos hver, if_pos hvar, if_pos hsize, rfl⟩)

/-- The size of the whole is looked at before it is packed. -/
theorem packs_encodeSized {size : Nat} (hsize : headSize + body.length = size) :
    Packs (encodeSized kind structVer var0 body) (size ≤ maxSize) False
      (Text.isWritable size = false) := by
  have hcast : ((headSize : Int) + body.length) = size := by
    rw [← hsize]
    exact (Int.natCast_add _ _).symm
  rw [encodeSized, hcast]
  by_cases hle : size ≤ maxSize
  · have hfits : 0 ≤ (size : Int) ∧ (size : Int) < Bytes.valueCount 2 :=
      ⟨Int.natCast_nonneg _, Int.ofNat_lt.2 (Nat.lt_succ_of_le hle)⟩
    exact (packs_encode hver hvar hfits).congr (by simp [hle]) Iff.rfl False.elim
  · have hgt : (size : Int) > maxSize := by omega
    rw [encode, if_pos hgt, throw_eq_error, error_bind]
    cases hw : Text.isWritable size with
    | true =>
      have he : (Error.invalidManifest (.oversizedElement kind size)).IsStructural := trivial
      rw [Error.reporting, if_pos (by simp [hw])]
      exact (packs_error he).congr (by simp [hle]) Iff.rfl False.elim
    | false =>
      rw [Error.reporting, if_neg (by simp [hw])]
      exact ⟨by simp [hle], by simp, by simp⟩

end Frame

end BootGuard
