/-
  Signatures that are made are accepted.

  What the operations are relied on for is `KeyMaterial.AcceptsOwn`: a signature made with the
  private part of a key is one under its public part. `verify_of_sign` carries this over to key
  signatures, which hold numbers as bytes with the lowest one first.
-/
import BootGuard.Proofs.Codec.Reads
import BootGuard.Proofs.Crypto.Width
import BootGuard.Signing.Signature

namespace BootGuard

open Crypto

/-! ## Curves -/

/-- The curves of the keys that can be described: the sizes of a key name the curve, and
coordinates take as many bytes as the numbers of a signature. -/
theorem CurveName.curve?_eq_some {c : CurveName} {curve : Curve} (h : c.curve? = some curve) :
    CurveName.ofBits? (8 * curve.orderSize : Nat) = some c ∧
      curve.fieldSize = curve.orderSize ∧ 0 < curve.order := by
  cases c <;> cases h <;> decide +kernel

/-! ## Keys -/

namespace KeyMaterial

/-- A key that manifests can be signed with: one on a curve, or an RSA key whose public part can
be loaded. -/
def Supported : KeyMaterial → Prop
  | rsaPrivate n e _ => Rsa.isPublicKey n e = true
  | ecPrivate _ _ _ _ _ => True
  | _ => False

/-- What the operations are relied on for: what they sign they accept, and on a curve the public
part is a point. -/
def AcceptsOwn (lib : Primitives) : KeyMaterial → Prop
  | rsaPrivate n e d => ∀ f message s, lib.rsaSign? f n d message = some s →
    lib.rsaVerify f n e message s = true
  | ecPrivate _ c secret x y => ∀ curve, c.curve? = some curve →
    curve.contains x y = true ∧ ∀ f message r s, lib.ecdsaSign f curve secret message = (r, s) →
      lib.ecdsaVerify? f curve x y message r s = some true
  | _ => True

theorem describeRsa_eq_ok_iff {n e : Nat} {key : KeyDescriptor} :
    describeRsa n e = .ok key ↔ ∃ exponent, packInt 4 e = .ok exponent ∧ bitLength n % 8 = 0 ∧
      key = {
        keyAlg := Algorithm.rsa
        keySize := bitLength n
        data := exponent ++ Bytes.ofNatLe (bitLength n / 8) n } := by
  simp only [describeRsa, bind_eq_ok_iff, ite_throw_eq_ok_iff, pure_eq_ok, Except.ok.injEq,
    ne_eq, Decidable.not_not, eq_comm (b := key)]

theorem describePoint_eq_ok_iff {c : CurveName} {x y : Nat} {key : KeyDescriptor} :
    describePoint c x y = .ok key ↔ ∃ curve, c.curve? = some curve ∧
      key = {
        keyAlg := Algorithm.ecc
        keySize := (8 * curve.orderSize : Nat)
        data := Bytes.ofNatLe curve.fieldSize x ++ Bytes.ofNatLe curve.fieldSize y } := by
  unfold describePoint
  cases c.curve? with
  | none => simp
  | some curve => simp [eq_comm (b := key)]

end KeyMaterial

namespace Signing

variable {lib : Primitives}

/-- The signature that a key makes, with the data `data`. -/
def signatureOf (key : KeyDescriptor) (alg : Int) (data : Bytes) : KeySignature where
  key := key
  signature :=
    { sigScheme := key.sigScheme, keySize := key.keySize, hashAlg := alg, data := data }

theorem sign_eq_ok_iff {message : Bytes} {material : KeyMaterial} {bound : Option KeySignature}
    {asked : Option Algorithm.Spec} {s : KeySignature} :
    sign lib message material bound asked = .ok s ↔ ∃ signer key alg data,
      material.toPrivate = .ok signer ∧ material.describe = .ok key ∧
      checkBound bound key = .ok () ∧ (chooseHash asked bound key).resolve = .ok alg ∧
      signatureData lib signer alg message = .ok data ∧
      s = signatureOf key alg data := by
  simp only [sign, signatureOf, bind_eq_ok_iff, pure_eq_ok, Except.ok.injEq, eq_comm (b := s)]
  constructor
  · intro h
    obtain ⟨signer, h1, key, h2, ⟨⟩, h3, alg, h4, data, h5, rfl⟩ := h
    exact ⟨signer, key, alg, data, h1, h2, h3, h4, h5, rfl⟩
  · intro h
    obtain ⟨signer, key, alg, data, h1, h2, h3, h4, h5, rfl⟩ := h
    exact ⟨signer, h1, key, h2, (), h3, alg, h4, data, h5, rfl⟩

/-- What is bound is a key signature whose data are zeros, as many as a signature has. -/
theorem boundKey_eq_ok_iff {material : KeyMaterial} {asked : Option Algorithm.Spec}
    {present : Option KeySignature} {bound : KeySignature} :
    bind present material asked = .ok bound ↔ ∃ key size alg, material.describe = .ok key ∧
      SignatureDescriptor.dataSize key.sigScheme key.keySize = .ok size ∧
      (chooseHash asked present key).resolve = .ok alg ∧
      bound = signatureOf key alg (Bytes.zeros size.toNat) := by
  simp only [bind, signatureOf, bind_eq_ok_iff, pure_eq_ok, Except.ok.injEq, eq_comm (b := bound)]
  constructor
  · intro h
    obtain ⟨key, hkey, size, hsize, alg, halg, rfl⟩ := h
    exact ⟨key, size, alg, hkey, hsize, halg, rfl⟩
  · intro h
    obtain ⟨key, size, alg, hkey, hsize, halg, rfl⟩ := h
    exact ⟨key, hkey, size, hsize, alg, halg, rfl⟩

theorem signatureData_rsa {n d : Nat} {alg : Int} {message data : Bytes}
    (h : signatureData lib (.rsa n d) alg message = .ok data) :
    ∃ f s, signingHash? alg = some f ∧ lib.rsaSign? f n d message = some s ∧
      data = s.reverse := by
  unfold signatureData at h
  cases hf : signingHash? alg with
  | none =>
    rw [hf] at h
    cases h
  | some f =>
    simp only [hf] at h
    split at h
    · rename_i s hs
      exact ⟨f, s, rfl, hs, (Except.ok.inj h).symm⟩
    · cases h

theorem signatureData_ec {c : CurveName} {curve : Curve} (hc : c.curve? = some curve)
    {secret : Nat} {alg : Int} {message data : Bytes}
    (h : signatureData lib (.ec c secret) alg message = .ok data) :
    ∃ f r s, signingHash? alg = some f ∧ lib.ecdsaSign f curve secret message = (r, s) ∧
      data = Bytes.ofNatLe curve.orderSize r ++ Bytes.ofNatLe curve.orderSize s := by
  unfold signatureData at h
  cases hf : signingHash? alg with
  | none =>
    rw [hf] at h
    cases h
  | some f =>
    simp only [hf, hc] at h
    exact ⟨f, _, _, rfl, rfl, (Except.ok.inj h).symm⟩

/-! ## Which check is made -/

/-- The tags of a key signature ask for a check of an RSA signature with a hash function. -/
structure ChecksRsa (s : KeySignature) (f : HashFunction) : Prop where
  sizes : s.signature.keySize = s.key.keySize
  alg : s.key.keyAlg = Algorithm.rsa
  scheme : s.signature.sigScheme = Algorithm.rsassa
  hash : signingHash? s.signature.hashAlg = some f

/-- The tags of a key signature ask for a check of a signature on a curve with a hash function. -/
structure ChecksCurve (s : KeySignature) (f : HashFunction) (curve : Curve) : Prop where
  sizes : s.signature.keySize = s.key.keySize
  alg : s.key.keyAlg = Algorithm.ecc
  scheme : s.signature.sigScheme = Algorithm.ecdsa
  hash : signingHash? s.signature.hashAlg = some f
  curve : (CurveName.ofBits? s.key.keySize).bind (·.curve?) = some curve

theorem ChecksRsa.verify_eq {s : KeySignature} {f : HashFunction} (h : ChecksRsa s f)
    (message : Bytes) :
    verify lib message (some s) = verifyRsa lib f s.key.data s.signature.data message := by
  have hpopulated : s.key.populated = true := by
    rw [KeyDescriptor.populated, h.alg]
    rfl
  simp only [verify, hpopulated, h.alg, h.sizes, h.scheme, h.hash, bne_self_eq_false,
    Bool.not_true, Bool.or_self, Bool.false_eq_true, if_false, if_true]

theorem ChecksCurve.verify_eq {s : KeySignature} {f : HashFunction} {curve : Curve}
    (h : ChecksCurve s f curve) (message : Bytes) :
    verify lib message (some s) = verifyEcdsa lib f curve s.key.data s.signature.data message := by
  have hpopulated : s.key.populated = true := by
    rw [KeyDescriptor.populated, h.alg]
    rfl
  have hne : ¬ Algorithm.ecc = Algorithm.rsa := by decide
  simp only [verify, hpopulated, h.alg, hne, h.sizes, h.scheme, h.hash, h.curve,
    bne_self_eq_false, Bool.not_true, Bool.or_self, Bool.false_eq_true, if_false, if_true]

/-- Of a key and a signature with numbers of the right lengths these numbers are checked. -/
theorem verifyEcdsa_append (hlib : lib.Lawful) {f : HashFunction} {curve : Curve}
    {x y r s message : Bytes} (hsize : curve.fieldSize = curve.orderSize)
    (hx : x.length = curve.fieldSize) (hy : y.length = curve.fieldSize)
    (hr : r.length = curve.orderSize) (hs : s.length = curve.orderSize) :
    verifyEcdsa lib f curve (x ++ y) (r ++ s) message =
      if curve.contains x.toNatLe y.toNatLe then
        match lib.ecdsaVerify? f curve x.toNatLe y.toNatLe message r.toNatLe s.toNatLe with
        | some answer => .ok answer
        | none => .error (.wrongKind .neutralPoint)
      else .error .malformedPoint := by
  have hhalf : (x ++ y).length / 2 = curve.fieldSize := by
    rw [List.length_append]
    omega
  have hparts : ∀ u v : Bytes, u.length = curve.fieldSize →
      reverseParts curve.fieldSize (u ++ v) = (u.reverse, v.reverse) := by
    intro u v hu
    rw [reverseParts, List.take_left' hu, List.drop_left' hu]
  unfold verifyEcdsa
  dsimp only
  rw [hhalf, hparts x y hx, hparts r s (hr.trans hsize.symm)]
  dsimp only
  rw [hlib.decodePoint?_append (by rw [List.length_reverse, hx])
    (by rw [List.length_reverse, hy])]
  simp only [Bytes.toNatBe_reverse, List.length_reverse]
  by_cases hpoint : curve.contains x.toNatLe y.toNatLe = true
  · rw [if_pos hpoint, if_pos hpoint]
    exact if_neg (by simp [hr, hs])
  · rw [if_neg hpoint, if_neg hpoint]

/-- An RSA signature that is accepted as numbers is accepted as the bytes of a key signature. -/
theorem verifyRsa_of_verify (hlib : lib.Lawful) {f : HashFunction} {n e : Nat}
    {exponent message s : Bytes} (he : packInt 4 e = .ok exponent) (hbits : bitLength n % 8 = 0)
    (hkey : Rsa.isPublicKey n e = true) (h : lib.rsaVerify f n e message s = true) :
    verifyRsa lib f (exponent ++ Bytes.ofNatLe (bitLength n / 8) n) s.reverse message =
      .ok true := by
  obtain ⟨hlen, hval⟩ := packInt_eq_ok_iff_toNatLe.1 he
  have hn : n < Bytes.valueCount (bitLength n / 8) := by
    rw [Bytes.lt_valueCount_iff]
    omega
  unfold verifyRsa
  dsimp only
  rw [if_neg (by rw [List.length_append]; omega), List.take_left' hlen, List.drop_left' hlen,
    Bytes.toNatLe_ofNatLe_of_lt hn, ← Int.natCast_inj.1 hval, hlib.isRsaKey_eq,
    if_pos hkey, List.reverse_reverse, h]

/-- The same for a signature on a curve. -/
theorem verifyEcdsa_of_verify (hlib : lib.Lawful) {f : HashFunction} {c : CurveName}
    {curve : Curve} {x y r s : Nat} {message : Bytes} (hc : c.curve? = some curve)
    (hpoint : curve.contains x y = true) (hr : r < curve.order) (hs : s < curve.order)
    (h : lib.ecdsaVerify? f curve x y message r s = some true) :
    verifyEcdsa lib f curve (Bytes.ofNatLe curve.fieldSize x ++ Bytes.ofNatLe curve.fieldSize y)
      (Bytes.ofNatLe curve.orderSize r ++ Bytes.ofNatLe curve.orderSize s) message = .ok true := by
  obtain ⟨_, hsize, _⟩ := CurveName.curve?_eq_some hc
  have hxy : x < curve.p ∧ y < curve.p := by
    simp only [Curve.contains, Bool.and_eq_true, decide_eq_true_eq] at hpoint
    exact hpoint.1
  have hfield : ∀ z, z < curve.p → Bytes.toNatLe (Bytes.ofNatLe curve.fieldSize z) = z :=
    fun z hz => Bytes.toNatLe_ofNatLe_of_lt (Nat.lt_trans hz (lt_valueCount curve.p))
  have horder : ∀ z, z < curve.order → Bytes.toNatLe (Bytes.ofNatLe curve.orderSize z) = z :=
    fun z hz => Bytes.toNatLe_ofNatLe_of_lt (Nat.lt_trans hz (lt_valueCount curve.order))
  rw [verifyEcdsa_append hlib hsize (Bytes.length_ofNatLe _ _) (Bytes.length_ofNatLe _ _)
    (Bytes.length_ofNatLe _ _) (Bytes.length_ofNatLe _ _), hfield x hxy.1, hfield y hxy.2,
    horder r hr, horder s hs, if_pos hpoint, h]

/-- The data of a signature is accepted where the primitive accepts its own. -/
theorem verify_of_signatureData (hlib : lib.Lawful) {material : KeyMaterial}
    {signer : PrivateKey} {key : KeyDescriptor} {alg : Int} {data message : Bytes}
    (hsupported : material.Supported) (haccepts : material.AcceptsOwn lib)
    (hsigner : material.toPrivate = .ok signer) (hkey : material.describe = .ok key)
    (hdata : signatureData lib signer alg message = .ok data) :
    verify lib message (some (signatureOf key alg data)) = .ok true := by
  cases material with
  | rsaPrivate n e d =>
    cases hsigner
    obtain ⟨exponent, he, hbits, rfl⟩ := KeyMaterial.describeRsa_eq_ok_iff.1 hkey
    obtain ⟨f, s, hf, hs, rfl⟩ := signatureData_rsa hdata
    rw [ChecksRsa.verify_eq ⟨rfl, rfl, rfl, hf⟩]
    exact verifyRsa_of_verify hlib he hbits hsupported (haccepts f message s hs)
  | ecPrivate kind c secret x y =>
    cases hsigner
    obtain ⟨curve, hc, rfl⟩ := KeyMaterial.describePoint_eq_ok_iff.1 hkey
    obtain ⟨hpoint, hown⟩ := haccepts curve hc
    obtain ⟨hbits, _, horder⟩ := CurveName.curve?_eq_some hc
    obtain ⟨f, r, s, hf, hrs, rfl⟩ := signatureData_ec hc hdata
    have hlt := hlib.ecdsaSign_lt f horder secret message
    rw [hrs] at hlt
    have hcurve : (CurveName.ofBits? (8 * curve.orderSize : Nat)).bind (·.curve?) =
        some curve := by
      rw [hbits]
      exact hc
    rw [ChecksCurve.verify_eq ⟨rfl, rfl, rfl, hf, hcurve⟩]
    exact verifyEcdsa_of_verify hlib hc hpoint hlt.1 hlt.2 (hown f message r s hrs)
  | _ => cases hsigner

/-- A key signature that was made is one of the message. -/
theorem verify_of_sign (hlib : lib.Lawful) {message : Bytes} {material : KeyMaterial}
    {bound : Option KeySignature} {asked : Option Algorithm.Spec} {s : KeySignature}
    (hsupported : material.Supported) (haccepts : material.AcceptsOwn lib)
    (h : sign lib message material bound asked = .ok s) :
    verify lib message (some s) = .ok true := by
  obtain ⟨signer, key, alg, data, hsigner, hkey, _, _, hdata, rfl⟩ := sign_eq_ok_iff.1 h
  exact verify_of_signatureData hlib hsupported haccepts hsigner hkey hdata

end Signing

end BootGuard
