/-
  Readers that know where what they read ends.

  `SelfDelimiting r` says that what the reader `r` yields is decided by the bytes it passes, and
  that every proper part of these bytes is refused as too short, not as something else. The
  combinators of readers keep this, so the readers of key signatures and of elements have it.
  An element is the one place where a part may be legal: behind the head of a signature element.
-/
import BootGuard.Proofs.Codec.Elements

namespace BootGuard

/-- The computation fails because the input is too short. -/
def TooShort {α : Type} (x : Except Error α) : Prop := ∃ cause, x = .error (.truncated cause)

theorem TooShort.bind {α β : Type} {x : Except Error α} (h : TooShort x)
    (f : α → Except Error β) : TooShort (x >>= f) := by
  obtain ⟨cause, rfl⟩ := h
  exact ⟨cause, rfl⟩

/-- Lengths below this are written in messages whatever happens. -/
def sizeLimit : Nat := 100000000

theorem isWritable_of_lt {n : Nat} (h : n < sizeLimit) : Text.isWritable n = true := by
  have hpow : ∀ digits, 8 ≤ digits → Nat.pow 10 8 ≤ Nat.pow 10 digits := fun _ hdigits =>
    Nat.pow_le_pow_right (by decide) hdigits
  have hlimit : ∀ digits, 8 ≤ digits → n < Nat.pow 10 digits := fun digits hdigits =>
    Nat.lt_of_lt_of_le h (hpow digits hdigits)
  exact decide_eq_true (hlimit Text.maxDecimalDigits (by decide))

namespace Reader

variable {α β : Type}

/-- What the reader yields is decided by the bytes that it passes, whatever follows them, and a
part of these bytes is refused as too short. -/
def SelfDelimiting (r : Reader α) : Prop :=
  ∀ (c c' : Cursor) (a : α), 0 ≤ c.pos → r c = .ok (a, c') → ∃ b, c.Passes b c' ∧
    (∀ tail, r ⟨c.pos, b ++ tail⟩ = .ok (a, ⟨c'.pos, tail⟩)) ∧
    ∀ k < b.length, k < sizeLimit → TooShort (r ⟨c.pos, b.take k⟩)

theorem selfDelimiting_pure (a : α) : SelfDelimiting (pure a) := by
  rintro c c' x _ ⟨⟩
  refine ⟨[], Cursor.passes_nil_iff.2 rfl, fun tail => rfl, fun k hk => ?_⟩
  cases hk

theorem selfDelimiting_fail (e : Error) : SelfDelimiting (fail e : Reader α) := by
  rintro c c' a _ ⟨⟩

theorem selfDelimiting_position : SelfDelimiting position := by
  rintro c c' p _ ⟨⟩
  refine ⟨[], Cursor.passes_nil_iff.2 rfl, fun tail => rfl, fun k hk => ?_⟩
  cases hk

/-- Too few bytes are refused as such. -/
theorem tooShort_take {n : Nat} {part : Part} {c : Cursor} (hc : 0 ≤ c.pos)
    (hlen : c.rest.length < n) (hlimit : c.rest.length < sizeLimit) :
    TooShort (take n part c) := by
  have hleft : ((c.rest.length + (-c.pos).toNat : Nat) : Int) = c.rest.length := by
    omega
  have hshort : c.rest.shorterThan n = true := (Bytes.shorterThan_iff _ _).2 hlen
  unfold take
  rw [hshort, Bool.or_true, if_pos rfl]
  dsimp only
  rw [hleft, Error.reporting, if_pos (by simp [isWritable_of_lt hlimit])]
  exact ⟨_, rfl⟩

theorem selfDelimiting_take (n : Nat) (part : Part) : SelfDelimiting (take n part) := by
  intro c c' a hc h
  obtain ⟨b, ⟨rfl, hlen⟩, hp⟩ := (reads_take n part c a c' hc).1 h
  refine ⟨b, hp, fun tail => ?_, fun k hk hlimit => ?_⟩
  · exact (reads_take n part ⟨c.pos, b ++ tail⟩ b ⟨c'.pos, tail⟩ hc).2
      ⟨b, ⟨rfl, hlen⟩, rfl, hp.pos⟩
  · have hk' : (b.take k).length = k := List.length_take_of_le (Nat.le_of_lt hk)
    refine tooShort_take hc ?_ ?_
    · rw [hk', ← hlen]
      exact hk
    · rw [hk']
      exact hlimit

theorem selfDelimiting_bind {r : Reader α} {f : α → Reader β} (hr : r.SelfDelimiting)
    (hf : ∀ a, (f a).SelfDelimiting) : (r >>= f).SelfDelimiting := by
  intro c c' x hc h
  obtain ⟨a, m, h1, h2⟩ := bind_eq_ok_iff.1 h
  obtain ⟨b1, hp1, htail1, hcut1⟩ := hr c m a hc h1
  obtain ⟨b2, hp2, htail2, hcut2⟩ := hf a m c' x (hp1.pos_nonneg hc) h2
  have hseq : ∀ rest, (r >>= f) ⟨c.pos, b1 ++ rest⟩ = f a ⟨m.pos, rest⟩ := fun rest =>
    bind_of_eq_ok (htail1 rest)
  refine ⟨b1 ++ b2, hp1.trans hp2, fun tail => ?_, fun k hk hlimit => ?_⟩
  · rw [List.append_assoc, hseq, htail2]
  · rw [List.length_append] at hk
    by_cases hfirst : k < b1.length
    · rw [List.take_append_of_le_length (Nat.le_of_lt hfirst)]
      exact (hcut1 k hfirst hlimit).bind _
    · rw [List.take_append, List.take_of_length_le (Nat.le_of_not_lt hfirst), hseq]
      exact hcut2 _ (by omega) (by omega)

theorem selfDelimiting_unless {p : Prop} [Decidable p] (e : Error) {r : Reader α}
    (hr : r.SelfDelimiting) : SelfDelimiting (if p then fail e else r) := by
  split
  · exact selfDelimiting_fail e
  · exact hr

theorem selfDelimiting_number (w : Nat) (part : Part) :
    (number w part).SelfDelimiting :=
  selfDelimiting_bind (selfDelimiting_take w part) fun b => selfDelimiting_pure b.toNatLe

theorem selfDelimiting_fields {σ : Type} (table : List (IntField σ)) (part : Part) (s : σ) :
    (fields table part s).SelfDelimiting :=
  selfDelimiting_bind (selfDelimiting_take _ part) fun b =>
    selfDelimiting_pure (IntField.decodeAll table b s)

theorem selfDelimiting_many {r : Reader α} (hr : r.SelfDelimiting) (n : Nat) :
    (many r n).SelfDelimiting := by
  induction n with
  | zero => exact selfDelimiting_pure []
  | succ n ih =>
    exact selfDelimiting_bind hr fun a => selfDelimiting_bind ih fun as =>
      selfDelimiting_pure (a :: as)

/-- A part of a written form is too short for the reader of such forms. -/
theorem SelfDelimiting.tooShort {r : Reader α} {W : α → Bytes → Prop} (h : r.SelfDelimiting)
    (hr : r.Reads W) {pos : Int} {a : α} {b : Bytes} {k : Nat} (hpos : 0 ≤ pos) (hw : W a b)
    (hk : k < b.length) (hlimit : k < sizeLimit) : TooShort (r ⟨pos, b.take k⟩) := by
  have hp : Cursor.Passes ⟨pos, b⟩ b ⟨pos + b.length, []⟩ := ⟨(List.append_nil b).symm, rfl⟩
  obtain ⟨b', hp', _, hcut⟩ := h _ _ a hpos ((hr ⟨pos, b⟩ a _ hpos).2 ⟨b, hw, hp⟩)
  obtain rfl : b = b' := hp'.rest.trans (List.append_nil b')
  exact hcut k hk hlimit

end Reader

open Reader

/-! ## Frames -/

namespace Frame

theorem selfDelimiting_readHead (kind : ElementKind) : (readHead kind).SelfDelimiting :=
  selfDelimiting_bind selfDelimiting_position fun _ =>
    selfDelimiting_bind (selfDelimiting_take headSize _) fun b =>
      selfDelimiting_unless _ (selfDelimiting_pure (⟨Bytes.toNatLe ((b.drop 8).take 1),
        Bytes.toNatLe ((b.drop 9).take 1), Bytes.toNatLe (b.drop 10)⟩ : Head))

/-- The stated size is compared with what there is before anything of the body is read. -/
theorem selfDelimiting_sized {α : Type} {body : Reader α} {W : α → Bytes → Prop}
    (hbody : body.Reads W) (kind : ElementKind) (size : Nat) :
    (sized kind size body).SelfDelimiting := by
  intro c c' a hc h
  obtain ⟨b, ⟨hw, rfl⟩, hp⟩ := (reads_sized hbody kind size c a c' hc).1 h
  refine ⟨b, hp, fun tail => ?_, fun k hk _ => ?_⟩
  · exact (reads_sized hbody kind _ ⟨c.pos, b ++ tail⟩ a ⟨c'.pos, tail⟩ hc).2
      ⟨b, ⟨hw, rfl⟩, rfl, hp.pos⟩
  · have hshort : Bytes.shorterThan (b.take k) b.length = true := by
      rw [Bytes.shorterThan_iff, List.length_take]
      omega
    unfold sized
    rw [if_neg (by omega), Nat.add_sub_cancel_left, if_pos hshort]
    exact ⟨_, rfl⟩

end Frame

/-! ## Records -/

theorem Digest.selfDelimiting_read : read.SelfDelimiting :=
  selfDelimiting_bind (selfDelimiting_take 4 _) fun head =>
    selfDelimiting_bind (selfDelimiting_take (Bytes.toNatLe (head.drop 2)) _) fun buffer =>
      selfDelimiting_pure (⟨Bytes.toNatLe (head.take 2), buffer⟩ : Digest)

theorem Segment.selfDelimiting_read : read.SelfDelimiting := selfDelimiting_fields fields _ _

theorem DigestList.selfDelimiting_read : read.SelfDelimiting := by
  refine selfDelimiting_bind selfDelimiting_position fun start =>
    selfDelimiting_bind (selfDelimiting_take 4 _) fun head =>
      selfDelimiting_bind (selfDelimiting_many Digest.selfDelimiting_read _) fun digests =>
        selfDelimiting_bind selfDelimiting_position fun stop => selfDelimiting_unless _ ?_
  cases ofDigests digests with
  | ok l => exact selfDelimiting_pure l
  | error e => exact selfDelimiting_fail e

theorem KeyHash.selfDelimiting_read : read.SelfDelimiting :=
  selfDelimiting_bind (selfDelimiting_fields fields _ _) fun k =>
    selfDelimiting_bind Digest.selfDelimiting_read fun digest =>
      selfDelimiting_pure { k with digest := digest }

theorem Reader.selfDelimiting_data {σ : Type} (size : Except Error Int) (part : Part)
    (put : Bytes → σ) : SelfDelimiting (match size with
      | .error e => Reader.fail e
      | .ok n => do
        let data ← Reader.take n.toNat part
        return put data) := by
  cases size with
  | error e => exact selfDelimiting_fail e
  | ok n =>
    exact selfDelimiting_bind (selfDelimiting_take n.toNat part) fun data =>
      selfDelimiting_pure (put data)

theorem KeyDescriptor.selfDelimiting_read : read.SelfDelimiting :=
  selfDelimiting_bind (selfDelimiting_fields fields _ _) fun k =>
    selfDelimiting_data (dataSize k.keyAlg k.keySize) _ fun data => { k with data := data }

theorem SignatureDescriptor.selfDelimiting_read : read.SelfDelimiting :=
  selfDelimiting_bind (selfDelimiting_fields fields _ _) fun s =>
    selfDelimiting_data (dataSize s.sigScheme s.keySize) _ fun data => { s with data := data }

theorem KeySignature.selfDelimiting_read : read.SelfDelimiting :=
  selfDelimiting_bind (selfDelimiting_fields fields _ _) fun k =>
    selfDelimiting_bind KeyDescriptor.selfDelimiting_read fun key =>
      selfDelimiting_bind SignatureDescriptor.selfDelimiting_read fun signature =>
        selfDelimiting_pure { k with key := key, signature := signature }

/-! ## Elements -/

theorem PolicyHeader.selfDelimiting_read : read.SelfDelimiting :=
  selfDelimiting_bind (Frame.selfDelimiting_readHead _) fun head =>
    Frame.selfDelimiting_sized (reads_readBody { structVer := head.structVer, var0 := head.var0 })
      _ head.size

theorem BootBlock.selfDelimiting_read : read.SelfDelimiting :=
  selfDelimiting_bind (Frame.selfDelimiting_readHead _) fun head =>
    Frame.selfDelimiting_sized (reads_readBody { structVer := head.structVer, var0 := head.var0 })
      _ head.size

theorem TrustedBoot.selfDelimiting_read : read.SelfDelimiting :=
  selfDelimiting_bind (Frame.selfDelimiting_readHead _) fun head =>
    Frame.selfDelimiting_sized (reads_readBody { structVer := head.structVer, var0 := head.var0 })
      _ head.size

theorem KeyManifestBody.selfDelimiting_read : read.SelfDelimiting :=
  selfDelimiting_bind (Frame.selfDelimiting_readHead _) fun head =>
    selfDelimiting_bind (selfDelimiting_take fixedSize _) fun b =>
      selfDelimiting_bind (selfDelimiting_many KeyHash.selfDelimiting_read _) fun hashes =>
        selfDelimiting_pure (IntField.decodeAll bodyFields (b.drop 5)
          { structVer := head.structVer
            var0 := head.var0
            rsvdSize := head.size
            rsvd2 := (b.drop 2).take 3
            hashes := hashes }, Bytes.toNatLe (b.take 2))

-- The end of the input decides whether there is a key signature, so this reader does not know
-- where it ends: a part that is just the head is read as an element without one.
theorem SignatureElement.tooShort_read {e : SignatureElement} {pos : Int} {b : Bytes} {k : Nat}
    (hpos : 0 ≤ pos) (he : e.encode = .ok b) (hk : k < b.length) (hhead : k ≠ Frame.headSize)
    (hlimit : k < sizeLimit) : TooShort (read ⟨pos, b.take k⟩) := by
  obtain ⟨body, hbody, henc⟩ := encode_eq_ok_iff.1 he
  obtain ⟨head, hwritten, rfl⟩ := Frame.encode_eq_ok_iff_head.1 henc
  have hlen : head.length = Frame.headSize := Frame.length_of_encode hwritten
  obtain ⟨size, hsize⟩ := Int.eq_ofNat_of_zero_le (Frame.size_nonneg_of_encode hwritten)
  rw [hsize] at hwritten
  have hreads := Frame.reads_readHead .signature
  rw [List.length_append] at hk
  unfold read
  by_cases hfirst : k < head.length
  · rw [List.take_append_of_le_length (Nat.le_of_lt hfirst)]
    exact ((Frame.selfDelimiting_readHead .signature).tooShort hreads
      (a := ⟨e.structVer, e.var0, size⟩) hpos hwritten hfirst hlimit).bind _
  · obtain ⟨s, hs⟩ : ∃ s, e.keySignature = some s := by
      cases hs : e.keySignature with
      | none =>
        rw [hs] at hbody
        cases hbody
        exact absurd hk hfirst
      | some s => exact ⟨s, rfl⟩
    rw [hs] at hbody
    have hrest : ¬ (body.take (k - head.length)).isEmpty = true := by
      rw [List.isEmpty_iff, ← List.length_eq_zero_iff, List.length_take]
      omega
    have hread : Frame.readHead .signature ⟨pos, head ++ body.take (k - head.length)⟩ =
        .ok (⟨e.structVer, e.var0, size⟩, ⟨pos + head.length, body.take (k - head.length)⟩) :=
      (hreads _ _ _ hpos).2 ⟨head, hwritten, Cursor.passes_mk _ _ _⟩
    have hshort : TooShort (KeySignature.read ⟨pos + head.length, body.take (k - head.length)⟩) :=
      KeySignature.selfDelimiting_read.tooShort KeySignature.reads_read (by omega) hbody
        (by omega) (by omega)
    rw [List.take_append, List.take_of_length_le (Nat.le_of_not_lt hfirst)]
    rw [Reader.bind_of_eq_ok hread, Reader.bind_of_eq_ok rfl, if_neg hrest]
    exact hshort.bind _

namespace Element

theorem tooShort_peekId {c : Cursor} (hc : 0 ≤ c.pos) (h : c.rest.length < 8) :
    TooShort (peekId c) := by
  have hshort : TooShort (take 8 .structureId c) :=
    tooShort_take hc h (Nat.lt_trans h (by decide))
  obtain ⟨cause, hcause⟩ := hshort
  unfold peekId
  rw [hcause]
  exact ⟨cause, rfl⟩

/-- A part of an element of a given kind is too short, except the head of a signature element. -/
theorem tooShort_readKind {e : Element} {pos : Int} {b : Bytes} {k : Nat} (hpos : 0 ≤ pos)
    (hw : e.Written b) (hk : k < b.length)
    (hhead : ∀ s, e = .signature s → k ≠ Frame.headSize) (hlimit : k < sizeLimit) :
    TooShort (readKind e.kind ⟨pos, b.take k⟩) := by
  cases e with
  | policyHeader h offset =>
    exact (PolicyHeader.selfDelimiting_read.tooShort PolicyHeader.reads_read (a := (h, offset))
      hpos hw hk hlimit).bind _
  | bootBlock e =>
    exact (BootBlock.selfDelimiting_read.tooShort BootBlock.reads_read hpos hw hk hlimit).bind _
  | trustedBoot e =>
    exact (TrustedBoot.selfDelimiting_read.tooShort TrustedBoot.reads_read hpos hw hk
      hlimit).bind _
  | signature e =>
    exact (SignatureElement.tooShort_read hpos hw hk (hhead e rfl) hlimit).bind _
  | keyManifest body offset =>
    exact (KeyManifestBody.selfDelimiting_read.tooShort KeyManifestBody.reads_read
      (a := (body, offset)) hpos hw hk hlimit).bind _

theorem tooShort_read {e : Element} {pos : Int} {b : Bytes} {k : Nat} (hpos : 0 ≤ pos)
    (hw : e.Written b) (hk : k < b.length)
    (hhead : ∀ s, e = .signature s → k ≠ Frame.headSize) (hlimit : k < sizeLimit) :
    TooShort (read ⟨pos, b.take k⟩) := by
  have hlen : (b.take k).length = k := List.length_take_of_le (Nat.le_of_lt hk)
  by_cases h8 : k < 8
  · unfold read
    rw [Reader.bind_of_eq_ok rfl]
    exact (tooShort_peekId hpos (hlen.symm ▸ h8)).bind _
  · have hid : (b.take k).take 8 = e.kind.id := by
      rw [List.take_take, Nat.min_eq_left (Nat.le_of_not_lt h8), hw.take_eq_id]
    rw [read_of_take_eq_id hpos hid]
    exact tooShort_readKind hpos hw hk hhead hlimit

end Element

end BootGuard
