/-
  What checking a key signature that was read comes to.

  The records of a key signature that was read have as much data as their sizes say
  (`KeySignature.sized_of_run`). So every number that a check starts with is there, and what can
  still go wrong is that the numbers are no key, or that a point has no coordinates. These
  failures are not of this library's own families; `verify_read` says exactly when they
  occur, and that nothing else but a key of another algorithm is refused.
-/
import BootGuard.Proofs.Codec.Records
import BootGuard.Proofs.Crypto.Standard
import BootGuard.Proofs.Signing.Signature

namespace BootGuard

open Crypto

/-! ## Records that were read -/

/-- Nothing is read in front of a byte string. -/
theorem Reader.pos_nonneg_of_fields {σ : Type} {table : List (IntField σ)} {part : Part} {s a : σ}
    {c c' : Cursor} (h : fields table part s c = .ok (a, c')) : 0 ≤ c.pos := by
  obtain ⟨_, _, htake, _⟩ := bind_eq_ok_iff.1 h
  unfold take at htake
  by_contra hneg
  rw [decide_eq_true (Int.not_le.1 hneg), Bool.true_or, if_pos rfl] at htake
  cases htake

/-- The data of both records are as long as the records say. -/
structure KeySignature.Sized (s : KeySignature) : Prop where
  bits : 0 ≤ s.key.keySize
  key : KeyDescriptor.dataSize s.key.keyAlg s.key.keySize = .ok s.key.data.length
  signature : SignatureDescriptor.dataSize s.signature.sigScheme s.signature.keySize =
    .ok s.signature.data.length

theorem KeySignature.sized_of_run {s : KeySignature} {b : Bytes} {offset n : Int}
    (h : read.run b offset = .ok (s, n)) : s.Sized := by
  obtain ⟨_, hread, _⟩ := Reader.run_eq_ok_iff.1 h
  obtain ⟨_, _, hfields, _⟩ := Reader.bind_eq_ok_iff.1 hread
  obtain ⟨_, hencode, _⟩ := (reads_read _ _ _ (Reader.pos_nonneg_of_fields hfields)).1 hread
  obtain ⟨_, _, _, _, hkey, hsignature, _⟩ := encode_eq_ok_iff.1 hencode
  obtain ⟨hsize, _, hhead, _⟩ := KeyDescriptor.encode_eq_ok_iff.1 hkey
  exact ⟨(KeyDescriptor.keySize_bounds hhead).1, hsize,
    (SignatureDescriptor.encode_eq_ok_iff.1 hsignature).1⟩

namespace KeyDescriptor

/-- The exponent of an RSA key. -/
def exponent (k : KeyDescriptor) : Nat := Bytes.toNatLe (k.data.take 4)

/-- The modulus of an RSA key. -/
def modulus (k : KeyDescriptor) : Nat := Bytes.toNatLe (k.data.drop 4)

/-- The first coordinate of a key on a curve. -/
def abscissa (k : KeyDescriptor) (curve : Curve) : Nat :=
  Bytes.toNatLe (k.data.take curve.fieldSize)

/-- The second coordinate of a key on a curve. -/
def ordinate (k : KeyDescriptor) (curve : Curve) : Nat :=
  Bytes.toNatLe (k.data.drop curve.fieldSize)

end KeyDescriptor

namespace Signing

/-! ## Failures -/

/-- The numbers of a signature on a curve. -/
def signatureNumbers (s : KeySignature) (curve : Curve) : Nat × Nat :=
  (Bytes.toNatLe (s.signature.data.take curve.orderSize),
    Bytes.toNatLe (s.signature.data.drop curve.orderSize))

variable {lib : Primitives}

/-- The failures of a check that leave this library's own families: the numbers of an RSA key are
no key, those of a key on a curve are no point, or the sum to compare with is the neutral point. -/
inductive Escapes (lib : Primitives) (message : Bytes) (s : KeySignature) : Error → Prop
  | rsaKey {f : HashFunction} (checks : ChecksRsa s f)
      (bad : Rsa.isPublicKey s.key.modulus s.key.exponent = false) :
      Escapes lib message s (.badValue .rsaKey)
  | point {f : HashFunction} {curve : Curve} (checks : ChecksCurve s f curve)
      (bad : curve.contains (s.key.abscissa curve) (s.key.ordinate curve) = false) :
      Escapes lib message s .malformedPoint
  | neutral {f : HashFunction} {curve : Curve} (checks : ChecksCurve s f curve)
      (good : curve.contains (s.key.abscissa curve) (s.key.ordinate curve) = true)
      (sum : lib.ecdsaVerify? f curve (s.key.abscissa curve) (s.key.ordinate curve) message
        (signatureNumbers s curve).1 (signatureNumbers s curve).2 = none) :
      Escapes lib message s (.wrongKind .neutralPoint)

/-- The key is of an algorithm that nothing is checked with. -/
structure Unknown (s : KeySignature) : Prop where
  populated : s.key.populated = true
  sizes : s.signature.keySize = s.key.keySize
  alg : s.key.keyAlg ≠ Algorithm.rsa ∧ s.key.keyAlg ≠ Algorithm.ecc

/-! ## What is checked -/

/-- There is an exponent in front of every modulus. -/
theorem ChecksRsa.verify_of_sized (hlib : lib.Lawful) {s : KeySignature} {f : HashFunction}
    (h : ChecksRsa s f) (hsized : s.Sized) (message : Bytes) : verify lib message (some s) =
      if Rsa.isPublicKey s.key.modulus s.key.exponent then
        .ok (lib.rsaVerify f s.key.modulus s.key.exponent message s.signature.data.reverse)
      else .error (.badValue .rsaKey) := by
  have hsize := hsized.key
  rw [h.alg] at hsize
  have hlen : bytesOfBits s.key.keySize + 4 = s.key.data.length := Except.ok.inj hsize
  have hbits := hsized.bits
  rw [h.verify_eq, verifyRsa, if_neg (by unfold bytesOfBits at hlen; omega)]
  dsimp only
  rw [hlib.isRsaKey_eq]
  rfl

/-- The sizes of keys on a curve are those of its coordinates. -/
theorem bytesOfBits_of_curve {bits : Int} {curve : Curve}
    (h : (CurveName.ofBits? bits).bind (·.curve?) = some curve) :
    bytesOfBits bits = curve.fieldSize ∧ curve.fieldSize = curve.orderSize := by
  obtain ⟨c, hbits, hc⟩ := Option.bind_eq_some_iff.1 h
  have hsizes : c = .p224 ∧ bits = 224 ∨ c = .p256 ∧ bits = 256 ∨ c = .p384 ∧ bits = 384 := by
    unfold CurveName.ofBits? at hbits
    split_ifs at hbits with h224 h256 h384
    · exact .inl ⟨(Option.some.inj hbits).symm, h224⟩
    · exact .inr (.inl ⟨(Option.some.inj hbits).symm, h256⟩)
    · exact .inr (.inr ⟨(Option.some.inj hbits).symm, h384⟩)
  obtain ⟨rfl, rfl⟩ | ⟨rfl, rfl⟩ | ⟨rfl, rfl⟩ := hsizes <;> cases hc <;> exact ⟨rfl, rfl⟩

/-- The data of the key are two coordinates, and those of the signature two numbers. -/
theorem ChecksCurve.verify_of_sized (hlib : lib.Lawful) {s : KeySignature} {f : HashFunction}
    {curve : Curve} (h : ChecksCurve s f curve) (hsized : s.Sized) (message : Bytes) :
    verify lib message (some s) =
      if curve.contains (s.key.abscissa curve) (s.key.ordinate curve) then
        match lib.ecdsaVerify? f curve (s.key.abscissa curve) (s.key.ordinate curve) message
          (signatureNumbers s curve).1 (signatureNumbers s curve).2 with
        | some answer => .ok answer
        | none => .error (.wrongKind .neutralPoint)
      else .error .malformedPoint := by
  obtain ⟨hbytes, hsize⟩ := bytesOfBits_of_curve h.curve
  have hkey := hsized.key
  rw [h.alg] at hkey
  have hkey : 2 * bytesOfBits s.key.keySize = s.key.data.length := Except.ok.inj hkey
  have hdata := hsized.signature
  rw [h.scheme, h.sizes] at hdata
  have hdata : 2 * bytesOfBits s.key.keySize = s.signature.data.length := Except.ok.inj hdata
  have hparts : ∀ (b : Bytes) (w : Nat), (2 * w : Int) = b.length →
      (b.take w).length = w ∧ (b.drop w).length = w := by
    intro b w hb
    rw [List.length_take, List.length_drop]
    omega
  obtain ⟨hx, hy⟩ := hparts s.key.data curve.fieldSize (by rw [← hbytes]; exact hkey)
  obtain ⟨hr, hs⟩ := hparts s.signature.data curve.orderSize
    (by rw [← hsize, ← hbytes]; exact hdata)
  calc verify lib message (some s)
    _ = verifyEcdsa lib f curve s.key.data s.signature.data message := h.verify_eq message
    _ = verifyEcdsa lib f curve
          (s.key.data.take curve.fieldSize ++ s.key.data.drop curve.fieldSize)
          (s.signature.data.take curve.orderSize ++ s.signature.data.drop curve.orderSize)
          message := by rw [List.take_append_drop, List.take_append_drop]
    _ = _ := verifyEcdsa_append hlib hsize hx hy hr hs

theorem Unknown.verify_eq {s : KeySignature} (h : Unknown s) (message : Bytes) :
    verify lib message (some s) = .error (.unsupportedAlgorithm (.verification s.key.keyAlg)) := by
  simp only [verify, h.populated, h.sizes, h.alg.1, h.alg.2, bne_self_eq_false, Bool.not_true,
    Bool.or_self, Bool.false_eq_true, if_false]

/-- Tags that ask for no check are answered. -/
theorem verify_eq_false {s : KeySignature} (hrsa : ∀ f, ¬ ChecksRsa s f)
    (hcurve : ∀ f curve, ¬ ChecksCurve s f curve) (hknown : ¬ Unknown s) (message : Bytes) :
    verify lib message (some s) = .ok false := by
  unfold verify
  dsimp only
  split
  · rfl
  · rename_i hsame
    simp only [Bool.or_eq_true, Bool.not_eq_true', bne_iff_ne, not_or, Bool.not_eq_false,
      not_not] at hsame
    obtain ⟨hpopulated, hsizes⟩ := hsame
    split
    · rename_i halg
      split
      · rename_i f hf
        split
        · rename_i hscheme
          exact absurd ⟨hsizes, halg, hscheme, hf⟩ (hrsa f)
        · rfl
      · rfl
    · rename_i hnotRsa
      split
      · rename_i halg
        split
        · rename_i f curve hf hc
          split
          · rename_i hscheme
            exact absurd ⟨hsizes, halg, hscheme, hf, hc⟩ (hcurve f curve)
          · rfl
        · rfl
      · rename_i hnotEcc
        exact absurd ⟨hpopulated, hsizes, hnotRsa, hnotEcc⟩ hknown

theorem Escapes.isOwn_eq {message : Bytes} {s : KeySignature} {e : Error}
    (h : Escapes lib message s e) : e.isOwn = false := by
  cases h <;> rfl

theorem Escapes.verify_eq (hlib : lib.Lawful) {message : Bytes} {s : KeySignature} {e : Error}
    (hsized : s.Sized) (h : Escapes lib message s e) : verify lib message (some s) = .error e := by
  cases h with
  | rsaKey checks bad =>
    rw [checks.verify_of_sized hlib hsized, bad]
    rfl
  | point checks bad =>
    rw [checks.verify_of_sized hlib hsized, bad]
    rfl
  | neutral checks good sum =>
    rw [checks.verify_of_sized hlib hsized, if_pos good, sum]

/-- A check of records of the right sizes is answered, or fails for one of four reasons. -/
theorem cases_of_verify_eq_error (hlib : lib.Lawful) {message : Bytes} {s : KeySignature}
    {e : Error} (hsized : s.Sized) (h : verify lib message (some s) = .error e) :
    Escapes lib message s e ∨ Unknown s := by
  by_cases hrsa : ∃ f, ChecksRsa s f
  · obtain ⟨f, checks⟩ := hrsa
    rw [checks.verify_of_sized hlib hsized] at h
    split at h
    · cases h
    · rename_i bad
      cases h
      exact .inl (.rsaKey checks (Bool.eq_false_iff.2 bad))
  · by_cases hcurve : ∃ f curve, ChecksCurve s f curve
    · obtain ⟨f, curve, checks⟩ := hcurve
      rw [checks.verify_of_sized hlib hsized] at h
      split at h
      · rename_i good
        split at h
        · cases h
        · rename_i sum
          cases h
          exact .inl (.neutral checks good sum)
      · rename_i bad
        cases h
        exact .inl (.point checks (Bool.eq_false_iff.2 bad))
    · by_cases hknown : Unknown s
      · exact .inr hknown
      · rw [verify_eq_false (fun f hf => hrsa ⟨f, hf⟩)
          (fun f curve hf => hcurve ⟨f, curve, hf⟩) hknown] at h
        cases h

/-- Checking a key signature that was read is answered, or refused because the key is of another
algorithm; it fails in another way exactly where the numbers of the key are no key, its coordinates
no point, or the sum to compare with has no coordinates. -/
theorem verify_read (hlib : lib.Lawful) {s : KeySignature} {b : Bytes} {offset n : Int}
    (h : KeySignature.read.run b offset = .ok (s, n)) (message : Bytes) (e : Error) :
    ((verify lib message (some s) = .error e ∧ e.isOwn = true) ↔
      Unknown s ∧ e = .unsupportedAlgorithm (.verification s.key.keyAlg)) ∧
    ((verify lib message (some s) = .error e ∧ e.isOwn = false) ↔ Escapes lib message s e) := by
  have hsized := KeySignature.sized_of_run h
  refine ⟨⟨fun herror => ?_, fun hall => ?_⟩, ⟨fun herror => ?_, fun hescapes => ?_⟩⟩
  · obtain ⟨herror, hown⟩ := herror
    obtain hescapes | hknown := cases_of_verify_eq_error hlib hsized herror
    · rw [hescapes.isOwn_eq] at hown
      cases hown
    · rw [hknown.verify_eq] at herror
      exact ⟨hknown, (Except.error.inj herror).symm⟩
  · obtain ⟨hknown, rfl⟩ := hall
    exact ⟨hknown.verify_eq message, rfl⟩
  · obtain ⟨herror, hforeign⟩ := herror
    obtain hescapes | hknown := cases_of_verify_eq_error hlib hsized herror
    · exact hescapes
    · rw [hknown.verify_eq] at herror
      cases herror
      cases hforeign
  · exact ⟨hescapes.verify_eq hlib hsized, hescapes.isOwn_eq⟩

/-! ## A key without an exponent -/

/-- The tags of an RSA key of 8 bits, with an exponent and a modulus of zero, and of a signature
with that key under SHA256. -/
def hollowBytes : Bytes :=
  [0x10, 0x01, 0x00, 0x10, 0x08, 0x00, 0x00, 0x00, 0x00, 0x00, 0x00,
   0x14, 0x00, 0x10, 0x08, 0x00, 0x0B, 0x00, 0x00]

def hollowSignature : KeySignature where
  key := { keyAlg := Algorithm.rsa, keySize := 8, data := Bytes.zeros 5 }
  signature :=
    { sigScheme := Algorithm.rsassa, keySize := 8, hashAlg := Algorithm.sha256, data := [0x00] }

theorem run_hollow : KeySignature.read.run hollowBytes 0 = .ok (hollowSignature, 19) :=
  eq_ok_of_toOption (by decide +kernel)

/-- It is read, and then no message can be checked with it. -/
theorem verify_read_sample : KeySignature.read.run hollowBytes 0 = .ok (hollowSignature, 19) ∧
    (verify .standard [] (some hollowSignature) = .error (.badValue .rsaKey) ∧
      (Error.badValue .rsaKey).isOwn = false) := by
  refine ⟨run_hollow, ?_⟩
  refine (verify_read Primitives.standard_lawful run_hollow [] (.badValue .rsaKey)).2.2 ?_
  exact .rsaKey ⟨rfl, rfl, rfl, rfl⟩ rfl

end Signing

end BootGuard
