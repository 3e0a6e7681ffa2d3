/-
  How reading fails.

  Whatever the bytes are, a reader either yields something or refuses the input with a failure
  of one of four families. `Guarded` says so for every place that is not before the start; the
  combinators of readers keep it, provided that what they are asked to take is bounded, so that
  a message can state how much there is. A place before the start has no such bound, and that is
  the one exception for elements (`Element.run_read_guarded`).
-/
import BootGuard.Proofs.Codec.Cuts

namespace BootGuard

/-- The families of failures with which decoding refuses its input. -/
def Error.IsRefusal : Error → Prop
  | truncated _ | unsupportedElement _ | invalidManifest _ | duplicateAlgorithm _ => True
  | _ => False

namespace Reader

variable {α β : Type}

/-- The outcome is a step forward from the place `c`, as far as bytes were taken, or a refusal. -/
def Proceeds (c : Cursor) : Except Error (α × Cursor) → Prop
  | .ok (_, c') => c.pos ≤ c'.pos ∧ c'.pos + c'.rest.length = c.pos + c.rest.length
  | .error e => e.IsRefusal

/-- The reader yields something or refuses the input, wherever it is asked. -/
def Guarded (r : Reader α) : Prop := ∀ c, 0 ≤ c.pos → Proceeds c (r c)

theorem Guarded.pos_nonneg {r : Reader α} (h : r.Guarded) {c c' : Cursor} {a : α}
    (hc : 0 ≤ c.pos) (hr : r c = .ok (a, c')) : 0 ≤ c'.pos := by
  have hout := h c hc
  rw [hr] at hout
  exact Int.le_trans hc hout.1

theorem guarded_pure (a : α) : Guarded (pure a) := fun _ _ => ⟨Int.le_refl _, rfl⟩

theorem guarded_position : Guarded position := fun _ _ => ⟨Int.le_refl _, rfl⟩

theorem guarded_atEnd : Guarded atEnd := fun _ _ => ⟨Int.le_refl _, rfl⟩

theorem guarded_fail {e : Error} (h : e.IsRefusal) : Guarded (fail e : Reader α) := fun _ _ => h

/-- What the second reader is asked with is what the first one yields somewhere. -/
theorem guarded_bind {r : Reader α} {f : α → Reader β} (hr : r.Guarded)
    (hf : ∀ a, (∃ c c', 0 ≤ c.pos ∧ r c = .ok (a, c')) → (f a).Guarded) :
    (r >>= f).Guarded := by
  intro c hc
  have hfirst := hr c hc
  cases hrc : r c with
  | error e =>
    rw [hrc] at hfirst
    have hbind : (r >>= f) c = .error e := by
      show (r c >>= fun p => f p.1 p.2) = _
      rw [hrc, error_bind]
    rw [hbind]
    exact hfirst
  | ok p =>
    obtain ⟨a, m⟩ := p
    have hm := hr.pos_nonneg hc hrc
    have hsecond := hf a ⟨c, m, hc, hrc⟩ m hm
    rw [hrc] at hfirst
    rw [bind_of_eq_ok hrc]
    cases hfa : f a m with
    | error e =>
      rw [hfa] at hsecond
      exact hsecond
    | ok q =>
      rw [hfa] at hsecond
      exact ⟨Int.le_trans hfirst.1 hsecond.1, hsecond.2.trans hfirst.2⟩

theorem Guarded.map {r : Reader α} (h : r.Guarded) (f : α → β) : (f <$> r).Guarded :=
  guarded_bind (f := fun a => pure (f a)) h fun a _ => guarded_pure (f a)

/-- How many bytes there are can be stated if more are asked for, and these are bounded. -/
theorem guarded_take {n : Nat} (hn : n ≤ sizeLimit) (part : Part) : (take n part).Guarded := by
  intro c hc
  by_cases hlen : c.rest.length < n
  · obtain ⟨cause, hcause⟩ : TooShort (take n part c) :=
      tooShort_take hc hlen (Nat.lt_of_lt_of_le hlen hn)
    rw [hcause]
    trivial
  · have hshort : c.rest.shorterThan n = false := by
      rw [← Bytes.shorterThan_iff] at hlen
      exact Bool.eq_false_iff.2 hlen
    have hneg : decide (c.pos < 0) = false := decide_eq_false (Int.not_lt.2 hc)
    unfold take
    rw [hneg, hshort, Bool.or_false, if_neg Bool.false_ne_true]
    refine ⟨Int.le_add_of_nonneg_right (Int.natCast_nonneg n), ?_⟩
    dsimp only
    rw [List.length_drop]
    omega

theorem length_of_take {n : Nat} {part : Part} {c c' : Cursor} {b : Bytes} (hc : 0 ≤ c.pos)
    (h : take n part c = .ok (b, c')) : b.length = n := by
  obtain ⟨_, ⟨rfl, hlen⟩, _⟩ := (reads_take n part c b c' hc).1 h
  exact hlen

theorem guarded_number {width : Nat} (hwidth : width ≤ sizeLimit) (part : Part) :
    (number width part).Guarded :=
  guarded_bind (guarded_take hwidth part) fun b _ => guarded_pure b.toNatLe

theorem guarded_fields {σ : Type} {table : List (IntField σ)}
    (hwidth : IntField.totalWidth table ≤ sizeLimit) (part : Part) (s : σ) :
    (fields table part s).Guarded :=
  guarded_bind (guarded_take hwidth part) fun b _ => guarded_pure (IntField.decodeAll table b s)

theorem guarded_many {r : Reader α} (hr : r.Guarded) (n : Nat) : (many r n).Guarded := by
  induction n with
  | zero => exact guarded_pure []
  | succ n ih =>
    exact guarded_bind hr fun a _ => guarded_bind ih fun as _ => guarded_pure (a :: as)

/-- Data whose length has been computed, unless the computation was refused. -/
theorem guarded_data {size : Except Error Int} {part : Part} {put : Bytes → α}
    (herror : ∀ e, size = .error e → e.IsRefusal) (hok : ∀ n, size = .ok n → n ≤ sizeLimit) :
    Guarded (match size with
      | .error e => Reader.fail e
      | .ok n => do
        let data ← Reader.take n.toNat part
        return put data) := by
  cases size with
  | error e => exact guarded_fail (herror e rfl)
  | ok n =>
    have hn := hok n rfl
    exact guarded_bind (guarded_take (by omega) part) fun data _ => guarded_pure (put data)

end Reader

/-- The value of two bytes is a number of bytes that can be taken. -/
theorem Bytes.toNatLe_le_sizeLimit {b : Bytes} (h : b.length ≤ 2) : b.toNatLe ≤ sizeLimit := by
  have hlt := Bytes.toNatLe_lt b
  have hle : Bytes.valueCount b.length ≤ Bytes.valueCount 2 := by
    have : b.length = 0 ∨ b.length = 1 ∨ b.length = 2 := by omega
    obtain h | h | h := this <;> rw [h] <;> decide
  have : Bytes.valueCount 2 ≤ sizeLimit := by decide
  omega

open Reader

/-! ## Records -/

theorem Digest.guarded_read : read.Guarded := by
  refine guarded_bind (guarded_take (by decide) _) fun head hhead => ?_
  obtain ⟨c, c', hc, hr⟩ := hhead
  have hlen := length_of_take hc hr
  refine guarded_bind (guarded_take ?_ _) fun buffer _ => guarded_pure _
  refine Bytes.toNatLe_le_sizeLimit (Nat.le_of_eq ?_)
  rw [List.length_drop, hlen]

theorem DigestList.guarded_read : read.Guarded := by
  refine guarded_bind guarded_position fun start _ => ?_
  refine guarded_bind (guarded_take (by decide) _) fun head _ => ?_
  refine guarded_bind (guarded_many Digest.guarded_read _) fun digests _ => ?_
  refine guarded_bind guarded_position fun stop _ => ?_
  split
  · exact guarded_fail trivial
  · split
    · exact guarded_pure _
    · rename_i e he
      -- Only an algorithm that stands twice is left to refuse.
      refine guarded_fail ?_
      unfold ofDigests Algorithm.checkUnique at he
      split at he
      · cases he
        trivial
      · cases he

theorem Segment.guarded_read : read.Guarded := guarded_fields (by decide) _ _

theorem KeyDescriptor.guarded_read : read.Guarded := by
  refine guarded_bind (guarded_fields (by decide) _ _) fun k hk => guarded_data ?_ ?_
  · intro e he
    unfold dataSize at he
    split at he
    · cases he
    · split at he
      · cases he
      · split at he
        · cases he
        · cases he
          trivial
  · intro n hn
    obtain ⟨c, c', hc, hr⟩ := hk
    obtain ⟨_, ⟨hencode, _⟩, _⟩ := (reads_fields fields_lawful _ _ c k c' hc).1 hr
    have hbits := keySize_bounds hencode
    have := dataSize_bounds hbits.1 hn
    have : (0x10000 : Int) + 4 ≤ sizeLimit := by decide
    omega

theorem SignatureDescriptor.guarded_read : read.Guarded := by
  refine guarded_bind (guarded_fields (by decide) _ _) fun s hs => guarded_data ?_ ?_
  · intro e he
    unfold dataSize at he
    split at he
    · cases he
    · split at he
      · cases he
      · split at he
        · cases he
        · cases he
          trivial
  · intro n hn
    obtain ⟨c, c', hc, hr⟩ := hs
    obtain ⟨_, ⟨hencode, _⟩, _⟩ := (reads_fields fields_lawful _ _ c s c' hc).1 hr
    have hbits := keySize_bounds hencode
    have := dataSize_bounds hbits.1 hn
    have : (0x10000 : Int) + 4 ≤ sizeLimit := by decide
    omega

theorem KeySignature.guarded_read : read.Guarded :=
  guarded_bind (guarded_fields (by decide) _ _) fun _ _ =>
    guarded_bind KeyDescriptor.guarded_read fun _ _ =>
      guarded_bind SignatureDescriptor.guarded_read fun _ _ => guarded_pure _

theorem KeyHash.guarded_read : read.Guarded :=
  guarded_bind (guarded_fields (by decide) _ _) fun _ _ =>
    guarded_bind Digest.guarded_read fun _ _ => guarded_pure _

/-! ## Elements -/

namespace Frame

theorem guarded_readHead (kind : ElementKind) : (readHead kind).Guarded := by
  refine guarded_bind guarded_position fun start _ => ?_
  refine guarded_bind (guarded_take (by decide) _) fun b _ => ?_
  split
  · exact guarded_fail trivial
  · exact guarded_pure _

/-- A body that asks for more than the stated size is refused, but not as too short. -/
theorem guarded_sized {α : Type} {kind : ElementKind} {size : Nat} {body : Reader α}
    (hbody : body.Guarded) : (sized kind size body).Guarded := by
  intro c hc
  unfold sized
  split
  · trivial
  · split
    · trivial
    · rename_i hshort
      have hlen : size - headSize ≤ c.rest.length :=
        Nat.le_of_not_lt fun hlt => hshort ((Bytes.shorterThan_iff _ _).2 hlt)
      have hout := hbody ⟨c.pos, c.rest.take (size - headSize)⟩ hc
      split
      · trivial
      · rename_i e _ he
        rw [he] at hout
        exact hout
      · rename_i a c' hbody'
        rw [hbody'] at hout
        split
        · rename_i hempty
          obtain ⟨hle, hend⟩ := hout
          refine ⟨hle, ?_⟩
          rw [List.isEmpty_iff.1 hempty] at hend
          simp only [List.length_nil, List.length_take] at hend
          simp only [List.length_drop]
          omega
        · trivial

end Frame

theorem PolicyHeader.guarded_read : read.Guarded :=
  guarded_bind (Frame.guarded_readHead _) fun _ _ =>
    Frame.guarded_sized (guarded_bind (guarded_take (by decide) _) fun _ _ => guarded_pure _)

theorem BootBlock.guarded_read : read.Guarded := by
  refine guarded_bind (Frame.guarded_readHead _) fun _ _ => Frame.guarded_sized ?_
  refine guarded_bind (guarded_fields (by decide) _ _) fun _ _ => ?_
  refine guarded_bind Digest.guarded_read fun _ _ => ?_
  refine guarded_bind (guarded_fields (by decide) _ _) fun _ _ => ?_
  refine guarded_bind DigestList.guarded_read fun _ _ => ?_
  refine guarded_bind Digest.guarded_read fun _ _ => ?_
  refine guarded_bind (guarded_take (by decide) _) fun _ _ => ?_
  refine guarded_bind (guarded_number (by decide) _) fun count _ => ?_
  split
  · exact guarded_fail trivial
  · exact guarded_bind (guarded_many Segment.guarded_read count) fun _ _ => guarded_pure _

theorem TrustedBoot.guarded_read : read.Guarded := by
  refine guarded_bind (Frame.guarded_readHead _) fun _ _ => Frame.guarded_sized ?_
  refine guarded_bind (guarded_fields (by decide) _ _) fun _ _ => ?_
  refine guarded_bind DigestList.guarded_read fun _ _ => ?_
  refine guarded_bind (guarded_take (by decide) _) fun _ _ => ?_
  refine guarded_bind (guarded_number (by decide) _) fun count _ => ?_
  exact guarded_bind (guarded_many Segment.guarded_read count) fun _ _ => guarded_pure _

theorem SignatureElement.guarded_read : read.Guarded := by
  refine guarded_bind (Frame.guarded_readHead _) fun _ _ => ?_
  refine guarded_bind guarded_atEnd fun stop _ => ?_
  split
  · exact guarded_pure _
  · exact guarded_bind KeySignature.guarded_read fun _ _ => guarded_pure _

theorem KeyManifestBody.guarded_read : read.Guarded :=
  guarded_bind (Frame.guarded_readHead _) fun _ _ =>
    guarded_bind (guarded_take (by decide) _) fun _ _ =>
      guarded_bind (guarded_many KeyHash.guarded_read _) fun _ _ => guarded_pure _

namespace Element

theorem guarded_readKind (k : ElementKind) : (readKind k).Guarded := by
  cases k with
  | policyHeader => exact PolicyHeader.guarded_read.map _
  | bootBlock => exact BootBlock.guarded_read.map _
  | trustedBoot => exact TrustedBoot.guarded_read.map _
  | signature => exact SignatureElement.guarded_read.map _
  | keyManifest => exact KeyManifestBody.guarded_read.map _

theorem guarded_peekId : peekId.Guarded := by
  intro c hc
  have hout := guarded_take (n := 8) (by decide) .structureId c hc
  unfold peekId
  cases htake : Reader.take 8 .structureId c with
  | error e =>
    rw [htake] at hout
    exact hout
  | ok p => exact ⟨Int.le_refl _, rfl⟩

theorem guarded_read : read.Guarded := by
  refine guarded_bind guarded_position fun start _ => ?_
  refine guarded_bind guarded_peekId fun id _ => ?_
  split
  · exact guarded_readKind _
  · exact guarded_fail trivial

/-- Before the start of a byte string there is no structure ID. The message states how far the
end is, if that number can be written. -/
theorem read_of_neg {c : Cursor} (hc : c.pos < 0) :
    read c = .error ((Error.truncated (.shortage .structureId 8 c.pos
      (c.rest.length + (-c.pos).toNat))).reporting [(c.rest.length : Int) - c.pos]) := by
  have hleft : ((c.rest.length + (-c.pos).toNat : Nat) : Int) = c.rest.length - c.pos := by
    omega
  have hpeek : peekId c = .error ((Error.truncated (.shortage .structureId 8 c.pos
      (c.rest.length + (-c.pos).toNat))).reporting [(c.rest.length : Int) - c.pos]) := by
    unfold peekId Reader.take
    rw [decide_eq_true hc, Bool.true_or, if_pos rfl]
    dsimp only
    rw [hleft]
  show (peekId c >>= _) = _
  rw [hpeek, error_bind]

/-- Reading an element at any offset of any byte string yields the element and a number of bytes
that are there, or refuses the input. The exception is a number too large to be written: how far
before its end the byte string was read. -/
theorem run_read_guarded (b : Bytes) (offset : Int) :
    match read.run b offset with
    | .ok (_, n) => 0 ≤ offset ∧ 12 ≤ n ∧ offset + n ≤ b.length
    | .error e =>
      if 0 ≤ offset ∨ Text.isWritable (b.length - offset) then e.IsRefusal
      else e = .badValue .numeral := by
  unfold Reader.run
  by_cases hoffset : 0 ≤ offset
  · have hout := guarded_read (Reader.start b offset) hoffset
    cases hread : read (Reader.start b offset) with
    | error e =>
      rw [hread] at hout
      dsimp only
      rw [if_pos (.inl hoffset)]
      exact hout
    | ok p =>
      obtain ⟨e, c'⟩ := p
      rw [hread] at hout
      have hconsumes := consumes_read _ e c' hread
      obtain ⟨_, hend⟩ := hout
      simp only [Reader.start, List.length_drop] at hend hconsumes
      refine ⟨hoffset, ?_, ?_⟩ <;> omega
  · have hneg : offset < 0 := Int.not_le.1 hoffset
    have hrest : (Reader.start b offset).rest.length = b.length := by
      rw [Reader.start, Int.toNat_of_nonpos (Int.le_of_lt hneg), List.drop_zero]
    have hread := read_of_neg (c := Reader.start b offset) hneg
    rw [hrest] at hread
    rw [hread]
    dsimp only [Reader.start]
    unfold Error.reporting
    cases hwritable : Text.isWritable (b.length - offset) with
    | true => simp [hwritable, Error.IsRefusal]
    | false => simp [hwritable, hoffset]

end Element

end BootGuard
