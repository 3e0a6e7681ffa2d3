/-
  How reading manifests fails.

  Whatever the bytes are, a manifest is read that obeys the structural rules, or the input is
  refused with a failure of one of four families (`guarded_decoding`). The loop over the elements
  of a boot policy manifest goes on from places that are not before the start, so every element
  in it is read or refused.
-/
import BootGuard.Manifest.Reading
import BootGuard.Proofs.Codec.Refusals

namespace BootGuard

/-- A result that satisfies `P`, or a refusal. -/
def OrRefused {α : Type} (P : α → Prop) : Except Error α → Prop
  | .ok a => P a
  | .error e => e.IsRefusal

theorem OrRefused.bind {α β : Type} {P : α → Prop} {Q : β → Prop} {x : Except Error α}
    {f : α → Except Error β} (hx : OrRefused P x) (hf : ∀ a, P a → OrRefused Q (f a)) :
    OrRefused Q (x >>= f) := by
  cases x with
  | error e => exact hx
  | ok a => exact hf a hx

/-- A check in front of further steps refuses what it does not let through. -/
theorem OrRefused.check {β : Type} {Q : β → Prop} {p : Prop} [Decidable p] {e : Error}
    {f : PUnit → Except Error β} (he : e.IsRefusal) (hf : OrRefused Q (f ⟨⟩)) :
    OrRefused Q (if p then (throw e : Except Error PUnit) >>= f else f ⟨⟩) := by
  split
  · exact he
  · exact hf

/-- A guarded reader yields a later place or refuses its input. -/
theorem Reader.Guarded.orRefused {α : Type} {r : Reader α} (h : r.Guarded) {c : Cursor}
    (hc : 0 ≤ c.pos) : OrRefused (fun p => 0 ≤ p.2.pos) (r c) := by
  have hout := h c hc
  cases hr : r c with
  | error e =>
    rw [hr] at hout
    exact hout
  | ok p => exact h.pos_nonneg hc hr

/-! ## Structural rules -/

theorem BootPolicy.validate_orRefused (p : BootPolicy) :
    OrRefused (fun _ => p.validate = .ok ()) p.validate := by
  cases hv : p.validate with
  | ok u => rfl
  | error e =>
    unfold validate at hv
    split at hv
    · cases hv
      trivial
    · split at hv
      · cases hv
        trivial
      · split at hv
        · cases hv
          trivial
        · split at hv
          · cases hv
            trivial
          · cases hv

theorem KeyManifest.checkHashes_orRefused (seen : List (Int × Int)) (hs : List KeyHash) :
    OrRefused (fun _ => True) (checkHashes seen hs) := by
  induction hs generalizing seen with
  | nil => trivial
  | cons h hs ih =>
    rw [checkHashes]
    split
    · trivial
    · exact ih _

theorem KeyManifest.validate_orRefused (k : KeyManifest) :
    OrRefused (fun _ => k.validate = .ok ()) k.validate := by
  have hout := checkHashes_orRefused [] k.body.hashes
  unfold validate
  cases hv : checkHashes [] k.body.hashes with
  | ok u => rfl
  | error e =>
    rw [hv] at hout
    exact hout

/-! ## Boot policy manifests -/

namespace BootPolicy

theorem Found.add_orRefused (strict : Bool) (offset : Int) (f : Found) (e : Element) :
    OrRefused (fun _ => True) (f.add strict offset e) := by
  unfold Found.add
  split
  · split <;> trivial
  · split <;> trivial
  · trivial
  · trivial

/-- One element after the other is read, or the input is refused at one of them. -/
theorem readElements_orRefused (strict : Bool) (f : Found) (c : Cursor) (hc : 0 ≤ c.pos) :
    OrRefused (fun _ => True) (readElements strict f c) := by
  fun_induction readElements strict f c with
  | case1 => trivial
  | case2 => trivial
  | case3 f c _ _ e he =>
    have hout := Element.guarded_read c hc
    rw [he] at hout
    exact hout
  | case4 f c _ _ e c' _ _ e' he' =>
    have hout := f.add_orRefused strict c.pos e
    rw [he'] at hout
    exact hout
  | case5 f c _ _ e c' he _ f' _ ih => exact ih (Element.guarded_read.pos_nonneg hc he)

theorem ofBytes_orRefused (strict : Bool) (b : Bytes) :
    OrRefused (fun p => p.validate = .ok ()) (ofBytes strict b) := by
  have hheader := PolicyHeader.guarded_read.orRefused (c := Reader.start b 0) (Int.le_refl 0)
  refine hheader.bind fun p hp => ?_
  obtain ⟨⟨header, offset⟩, c⟩ := p
  refine (readElements_orRefused strict {} c hp).bind fun found _ => ?_
  split
  · trivial
  · refine (validate_orRefused _).bind fun _ hvalid => ?_
    exact OrRefused.check trivial hvalid

end BootPolicy

/-! ## Key manifests -/

theorem KeyManifest.ofBytes_orRefused (b : Bytes) :
    OrRefused (fun k => k.validate = .ok ()) (ofBytes b) := by
  have hbody := KeyManifestBody.guarded_read.orRefused (c := Reader.start b 0) (Int.le_refl 0)
  refine hbody.bind fun p hp => ?_
  obtain ⟨⟨body, offset⟩, c⟩ := p
  refine OrRefused.check trivial ((validate_orRefused _).bind fun _ hvalid => ?_)
  dsimp only
  split
  · exact hvalid
  · refine (KeySignature.guarded_read.orRefused hp).bind fun q _ => ?_
    exact OrRefused.check trivial hvalid

/-! ## Manifests of either kind -/

theorem Manifest.ofBytes_orRefused (strict : Bool) (b : Bytes) :
    OrRefused (fun m => m.validate = .ok ()) (ofBytes strict b) := by
  have hid := Element.guarded_peekId.orRefused (c := Reader.start b 0) (Int.le_refl 0)
  refine hid.bind fun p _ => ?_
  obtain ⟨id, c⟩ := p
  dsimp only
  split
  · exact (KeyManifest.ofBytes_orRefused b).bind (f := fun k => pure (keyManifest k)) fun _ h => h
  · exact (BootPolicy.ofBytes_orRefused strict b).bind (f := fun p => pure (bootPolicy p))
      fun _ h => h
  · trivial
  · trivial

/-- Decoding fails in no other way than by refusing its input. An element at any offset of any
byte string is read with a number of bytes that are there, or refused; the exception is an offset
so far before the start that the message has a number too large to be written. A manifest of any
byte string is read and obeys the structural rules, or is refused. -/
theorem Manifest.guarded_decoding (strict : Bool) (b : Bytes) (offset : Int) :
    (match Element.read.run b offset with
      | .ok (_, n) => 0 ≤ offset ∧ 12 ≤ n ∧ offset + n ≤ b.length
      | .error e =>
        if 0 ≤ offset ∨ Text.isWritable (b.length - offset) then e.IsRefusal
        else e = .badValue .numeral) ∧
    match ofBytes strict b with
    | .ok m => m.validate = .ok ()
    | .error e => e.IsRefusal := by
  refine ⟨Element.run_read_guarded b offset, ?_⟩
  have hout := ofBytes_orRefused strict b
  cases h : ofBytes strict b with
  | ok m =>
    rw [h] at hout
    exact hout
  | error e =>
    rw [h] at hout
    exact hout

end BootGuard
