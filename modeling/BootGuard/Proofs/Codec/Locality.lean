/-
  An element depends on its own bytes alone.

  What `Element.read` yields at an offset is an element whose written form stands there, and
  how long that form is (`Element.run_read_eq_ok_iff`); neither the bytes in front of the offset
  nor those behind the element are part of this. The one exception is a signature element
  without a key signature: that there is none shows in the end of the input.
-/
import BootGuard.Proofs.Codec.Refusals

namespace BootGuard

/-- The bytes from an offset on are the front of what stands there. -/
theorem Bytes.range_of_drop {b x rest : Bytes} {offset : Nat} (h : b.drop offset = x ++ rest)
    (hx : x ≠ []) : b.range offset (offset + x.length) = x := by
  have hlen := congrArg List.length h
  rw [List.length_drop, List.length_append] at hlen
  have hpos := List.length_pos_iff.2 hx
  have hstart : place b.length offset = offset := by
    rw [place, if_neg (by omega), Int.toNat_natCast]
    omega
  have hstop : place b.length (offset + x.length) = offset + x.length := by
    rw [place, if_neg (by omega)]
    omega
  rw [range, hstart, hstop, h, Nat.add_sub_cancel_left, List.take_left]

namespace Element

/-- An element is read at an offset exactly if its written form stands there. -/
theorem run_read_eq_ok_iff {b : Bytes} {offset n : Int} {e : Element} :
    read.run b offset = .ok (e, n) ↔ 0 ≤ offset ∧ ∃ x rest, e.Written x ∧
      b.drop offset.toNat = x ++ rest ∧ n = x.length ∧ (e.EndsInput → rest = []) := by
  constructor
  · intro h
    have hguard := run_read_guarded b offset
    rw [h] at hguard
    obtain ⟨hoffset, _⟩ := hguard
    obtain ⟨c, hc, rfl⟩ := Reader.run_eq_ok_iff.1 h
    obtain ⟨⟨x, hw, hp⟩, hend⟩ := (read_eq_ok_iff hoffset).1 hc
    refine ⟨hoffset, x, c.rest, hw, hp.rest, ?_, hend⟩
    rw [hp.pos]
    dsimp only [Reader.start]
    omega
  · intro h
    obtain ⟨hoffset, x, rest, hw, hrest, rfl, hend⟩ := h
    refine Reader.run_eq_ok_iff.2 ⟨⟨offset + x.length, rest⟩,
      (read_eq_ok_iff hoffset).2 ⟨⟨x, hw, ?_⟩, hend⟩, ?_⟩
    · rw [Reader.start, hrest]
      exact Cursor.passes_mk _ _ _
    · dsimp only
      omega

/-- An element that was read is read again wherever its bytes stand, with the offset that it
carries; a signature element without a key signature only at the end of the input. These bytes
are its encoding, except those of a key manifest's body whose offset is not its length. -/
theorem run_read_local {b : Bytes} {offset n : Int} {e : Element}
    (h : read.run b offset = .ok (e, n)) (p s : Bytes) :
    (read.run (p ++ b.range offset (offset + n) ++ s) p.length = .ok (e, n) ↔
      (e.EndsInput → s = [])) ∧
    (e.encode = .ok (b.range offset (offset + n)) ↔
      ∀ body stored, e = .keyManifest body stored → (stored : Int) = n) := by
  obtain ⟨hoffset, x, rest, hw, hrest, rfl, -⟩ := run_read_eq_ok_iff.1 h
  have hrange := Bytes.range_of_drop hrest hw.ne_nil
  rw [Int.toNat_of_nonneg hoffset] at hrange
  rw [hrange]
  constructor
  · have hdrop : (p ++ x ++ s).drop ((p.length : Int)).toNat = x ++ s := by
      rw [Int.toNat_natCast, List.append_assoc, List.drop_left]
    rw [run_read_eq_ok_iff, hdrop]
    constructor
    · intro hread
      obtain ⟨_, y, tail, _, heq, hlen, hend⟩ := hread
      obtain ⟨rfl, rfl⟩ := List.append_inj heq (Int.natCast_inj.1 hlen)
      exact hend
    · intro hend
      exact ⟨Int.natCast_nonneg _, x, s, hw, rfl, rfl, hend⟩
  · rw [hw.encode_eq_iff]
    simp only [Int.natCast_inj]

/-- A signature element without a key signature behind a byte that belongs to none. -/
def sampleBare : Bytes := 0 :: (ElementKind.signature.id ++ [0x20, 0, 0, 0])

/-- The body of a key manifest with the offset zero, between two bytes that belong to none. -/
def sampleUnset : Bytes :=
  0 :: (ElementKind.keyManifest.id ++ [0x21, 0, 0, 0] ++ Bytes.zeros 8 ++ [11, 0, 0, 0]) ++ [0]

/-- The signature element is read when it is cut out, but not with a byte behind it. The body is
read among other bytes, and not encoded as it was read. -/
theorem run_read_local_sample :
    (read.run sampleBare 1 = .ok (.signature { keySignature := none }, 12) ∧
      read.run (sampleBare.range 1 13) 0 = .ok (.signature { keySignature := none }, 12) ∧
      read.run (sampleBare.range 1 13 ++ [0]) 0 ≠
        .ok (.signature { keySignature := none }, 12)) ∧
    read.run sampleUnset 1 = .ok (.keyManifest {} 0, 24) ∧
    read.run ([1, 2] ++ sampleUnset.range 1 25 ++ [3]) 2 = .ok (.keyManifest {} 0, 24) ∧
    (Element.keyManifest {} 0).encode ≠ .ok (sampleUnset.range 1 25) := by
  have hbare : read.run sampleBare 1 = .ok (.signature { keySignature := none }, 12) :=
    eq_ok_of_toOption (by decide +kernel)
  have hunset : read.run sampleUnset 1 = .ok (.keyManifest {} 0, 24) :=
    eq_ok_of_toOption (by decide +kernel)
  refine ⟨⟨hbare, ?_, ?_⟩, hunset, (run_read_local hunset [1, 2] [3]).1.2 nofun, ?_⟩
  · have hcut := (run_read_local hbare [] []).1.2 fun _ => rfl
    rw [List.append_nil] at hcut
    exact hcut
  · intro hcut
    exact absurd ((run_read_local hbare [] [0]).1.1 hcut rfl) (List.cons_ne_nil _ _)
  · intro henc
    exact absurd ((run_read_local hunset [] []).2.1 henc {} 0 rfl) (by decide)

end Element

end BootGuard
