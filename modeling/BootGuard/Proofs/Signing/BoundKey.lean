/-
  Whether a key is the one that is bound.

  A descriptor is compared field by field with the one that is bound. This tells public keys
  apart because no two of them have the same descriptor (`PublicPart.describe_injective`): the
  size is that of the modulus or names the curve, and the data are numbers of known lengths. So
  signing under a bound key is refused exactly for another public key (`sign_bound_iff`).
-/
import BootGuard.Proofs.Crypto.Standard
import BootGuard.Proofs.Signing.Signature
import BootGuard.Signing.KeyMaking

namespace BootGuard

open Crypto

theorem Bytes.ofNatLe_injective {w m n : Nat} (hm : m < valueCount w) (hn : n < valueCount w)
    (h : ofNatLe w m = ofNatLe w n) : m = n := by
  rw [← toNatLe_ofNatLe_of_lt hm, h, toNatLe_ofNatLe_of_lt hn]

theorem KeyDescriptor.eq_of_fields {k k' : KeyDescriptor} (halg : k.keyAlg = k'.keyAlg)
    (hversion : k.version = k'.version) (hsize : k.keySize = k'.keySize)
    (hdata : k.data = k'.data) : k = k' := by
  cases k
  cases k'
  simp_all

/-- A report of numbers that can all be written is the failure itself. -/
theorem Error.reporting_of_writable {numbers : List Int} {e : Error}
    (h : ∀ n ∈ numbers, Text.isWritable n = true) : e.reporting numbers = e :=
  if_pos (List.all_eq_true.2 h)

/-! ## Public parts -/

/-- What is public of a key, whatever it is handed in as. -/
inductive PublicPart
  | rsa (modulus exponent : Nat)
  | point (curve : CurveName) (x y : Nat)
deriving DecidableEq, Repr

namespace PublicPart

/-- A descriptor can hold the numbers: a modulus of whole bytes and an exponent of four bytes, or
the coordinates of a point over the field of its curve. -/
def Describable : PublicPart → Prop
  | rsa n e => bitLength n % 8 = 0 ∧ e < 0x100000000
  | point c x y => ∃ curve, c.curve? = some curve ∧ x < curve.p ∧ y < curve.p

/-- The descriptor of a key with these numbers. -/
def describe : PublicPart → Except Error KeyDescriptor
  | rsa n e => KeyMaterial.describeRsa n e
  | point c x y => KeyMaterial.describePoint c x y

theorem Describable.exists_describe {v : PublicPart} (h : v.Describable) :
    ∃ key, v.describe = .ok key := by
  cases v with
  | rsa n e =>
    obtain ⟨hbits, he⟩ := h
    have hfits : (0 : Int) ≤ e ∧ (e : Int) < Bytes.valueCount 4 :=
      ⟨Int.natCast_nonneg e, Int.ofNat_lt.2 he⟩
    have hexponent := packInt_eq_ok_iff.2 ⟨hfits, rfl⟩
    exact ⟨_, KeyMaterial.describeRsa_eq_ok_iff.2 ⟨_, hexponent, hbits, rfl⟩⟩
  | point c x y =>
    obtain ⟨curve, hc, _⟩ := h
    exact ⟨_, KeyMaterial.describePoint_eq_ok_iff.2 ⟨curve, hc, rfl⟩⟩

/-- A descriptor is of one of two kinds, and of the current version. -/
theorem kind_of_describe {v : PublicPart} {key : KeyDescriptor} (h : v.describe = .ok key) :
    key.version = 0x10 ∧ (key.keyAlg = Algorithm.rsa ∨ key.keyAlg = Algorithm.ecc) := by
  cases v with
  | rsa n e =>
    obtain ⟨_, _, _, rfl⟩ := KeyMaterial.describeRsa_eq_ok_iff.1 h
    exact ⟨rfl, .inl rfl⟩
  | point c x y =>
    obtain ⟨_, _, rfl⟩ := KeyMaterial.describePoint_eq_ok_iff.1 h
    exact ⟨rfl, .inr rfl⟩

/-! ### Descriptors tell public parts apart -/

theorem describeRsa_injective {n n' e e' : Nat} {key : KeyDescriptor}
    (h : KeyMaterial.describeRsa n e = .ok key) (h' : KeyMaterial.describeRsa n' e' = .ok key) :
    n = n' ∧ e = e' := by
  obtain ⟨exponent, he, hbits, rfl⟩ := KeyMaterial.describeRsa_eq_ok_iff.1 h
  obtain ⟨exponent', he', _, heq⟩ := KeyMaterial.describeRsa_eq_ok_iff.1 h'
  obtain ⟨hlen, hval⟩ := packInt_eq_ok_iff_toNatLe.1 he
  obtain ⟨hlen', hval'⟩ := packInt_eq_ok_iff_toNatLe.1 he'
  injection heq with _ _ hsize hdata
  have hsize : bitLength n = bitLength n' := Int.natCast_inj.1 hsize
  rw [← hsize] at hdata
  obtain ⟨hexponent, hmodulus⟩ := List.append_inj hdata (hlen.trans hlen'.symm)
  have hfits : ∀ m, bitLength m = bitLength n → m < Bytes.valueCount (bitLength n / 8) := by
    intro m hm
    rw [Bytes.lt_valueCount_iff]
    omega
  refine ⟨Bytes.ofNatLe_injective (hfits n rfl) (hfits n' hsize.symm) hmodulus, ?_⟩
  rw [← Int.natCast_inj, hval, hval', hexponent]

theorem describePoint_injective {c c' : CurveName} {x y x' y' : Nat} {key : KeyDescriptor}
    (hv : (point c x y).Describable) (hw : (point c' x' y').Describable)
    (h : KeyMaterial.describePoint c x y = .ok key)
    (h' : KeyMaterial.describePoint c' x' y' = .ok key) : c = c' ∧ x = x' ∧ y = y' := by
  obtain ⟨curve, hc, hx, hy⟩ := hv
  obtain ⟨curve', hc', hx', hy'⟩ := hw
  obtain ⟨_, hcurve, rfl⟩ := KeyMaterial.describePoint_eq_ok_iff.1 h
  obtain rfl := Option.some.inj (hc.symm.trans hcurve)
  obtain ⟨_, hcurve', heq⟩ := KeyMaterial.describePoint_eq_ok_iff.1 h'
  obtain rfl := Option.some.inj (hc'.symm.trans hcurve')
  injection heq with _ _ hsize hdata
  -- the size of the key names the curve, and so gives the lengths of the coordinates
  have hname : c' = c := by
    have hbits := (CurveName.curve?_eq_some hc).1
    rw [hsize, (CurveName.curve?_eq_some hc').1] at hbits
    exact Option.some.inj hbits
  subst hname
  obtain rfl := Option.some.inj (hc.symm.trans hc')
  have hfits : ∀ z, z < curve.p → z < Bytes.valueCount curve.fieldSize := fun z hz =>
    Nat.lt_trans hz (lt_valueCount curve.p)
  have hlen : (Bytes.ofNatLe curve.fieldSize x).length =
      (Bytes.ofNatLe curve.fieldSize x').length := by
    rw [Bytes.length_ofNatLe, Bytes.length_ofNatLe]
  obtain ⟨hxs, hys⟩ := List.append_inj hdata hlen
  exact ⟨rfl, Bytes.ofNatLe_injective (hfits x hx) (hfits x' hx') hxs,
    Bytes.ofNatLe_injective (hfits y hy) (hfits y' hy') hys⟩

theorem describeRsa_ne_describePoint {n e x y : Nat} {c : CurveName} {key : KeyDescriptor}
    (h : KeyMaterial.describeRsa n e = .ok key) : KeyMaterial.describePoint c x y ≠ .ok key := by
  intro h'
  obtain ⟨_, _, _, rfl⟩ := KeyMaterial.describeRsa_eq_ok_iff.1 h
  obtain ⟨_, _, heq⟩ := KeyMaterial.describePoint_eq_ok_iff.1 h'
  injection heq with halg
  exact absurd halg (by decide)

/-- No two public parts have the same descriptor. -/
theorem describe_injective {v w : PublicPart} {key : KeyDescriptor} (hv : v.Describable)
    (hw : w.Describable) (h : v.describe = .ok key) (h' : w.describe = .ok key) : v = w := by
  cases v with
  | rsa n e =>
    cases w with
    | rsa n' e' =>
      obtain ⟨rfl, rfl⟩ := describeRsa_injective h h'
      rfl
    | point c' x' y' => exact absurd h' (describeRsa_ne_describePoint h)
  | point c x y =>
    cases w with
    | rsa n' e' => exact absurd h (describeRsa_ne_describePoint h')
    | point c' x' y' =>
      obtain ⟨rfl, rfl, rfl⟩ := describePoint_injective hv hw h h'
      rfl

end PublicPart

/-! ## Keys -/

namespace KeyMaterial

/-- The public part of a key, where there is a key. -/
def publicPart? : KeyMaterial → Option PublicPart
  | absent => none
  | rsaPrivate n e _ => some (.rsa n e)
  | rsaPublic n e => some (.rsa n e)
  | ecPrivate _ c _ x y => some (.point c x y)
  | ecPublic _ c x y => some (.point c x y)

/-- A key that manifests can carry: RSA with a modulus of whole bytes and an exponent below 2³²,
or a key on one of three curves. -/
def Describable : KeyMaterial → Prop
  | absent => False
  | rsaPrivate n e _ => bitLength n % 8 = 0 ∧ e < 0x100000000
  | rsaPublic n e => bitLength n % 8 = 0 ∧ e < 0x100000000
  | ecPrivate _ c _ x y => ∃ curve, c.curve? = some curve ∧ x < curve.p ∧ y < curve.p
  | ecPublic _ c x y => ∃ curve, c.curve? = some curve ∧ x < curve.p ∧ y < curve.p

theorem Describable.publicPart {k : KeyMaterial} (h : k.Describable) :
    ∃ v, k.publicPart? = some v ∧ v.Describable ∧ k.describe = v.describe := by
  cases k with
  | absent => exact h.elim
  | rsaPrivate n e d => exact ⟨_, rfl, h, rfl⟩
  | rsaPublic n e => exact ⟨_, rfl, h, rfl⟩
  | ecPrivate kind c secret x y => exact ⟨_, rfl, h, rfl⟩
  | ecPublic kind c x y => exact ⟨_, rfl, h, rfl⟩

/-- A private key made from its secret can be described where its curve is one of three. -/
theorem describable_of_ofSecret {kind : EcKeyKind} {c : CurveName} {curve : Curve} {secret : Nat}
    {k : KeyMaterial} (hc : c.curve? = some curve) (h : ofSecret kind c secret = .ok k) :
    k.Describable := by
  have hp : 0 < curve.p := by
    cases c <;> cases hc <;> decide
  have hpoint : (c.publicPoint secret).1 < curve.p ∧ (c.publicPoint secret).2 < curve.p := by
    rw [CurveName.publicPoint, hc, Option.elim_some, Curve.publicPoint]
    unfold Curve.coordinates?
    split
    · exact ⟨hp, hp⟩
    · exact ⟨Nat.mod_lt _ hp, Nat.mod_lt _ hp⟩
  unfold ofSecret at h
  split at h
  · cases h
    exact ⟨curve, hc, hpoint⟩
  · cases kind <;> cases h

/-- Two keys that can be described have the same descriptor exactly if they have the same public
part. -/
theorem publicPart?_eq_iff {k k' : KeyMaterial} {key key' : KeyDescriptor} (h : k.Describable)
    (h' : k'.Describable) (hkey : k.describe = .ok key) (hkey' : k'.describe = .ok key') :
    k.publicPart? = k'.publicPart? ↔ key = key' := by
  obtain ⟨v, hv, hdescribable, hdescribe⟩ := h.publicPart
  obtain ⟨v', hv', hdescribable', hdescribe'⟩ := h'.publicPart
  rw [hdescribe] at hkey
  rw [hdescribe'] at hkey'
  rw [hv, hv', Option.some.injEq]
  constructor
  · rintro rfl
    exact Except.ok.inj (hkey.symm.trans hkey')
  · rintro rfl
    exact PublicPart.describe_injective hdescribable hdescribable' hkey hkey'

end KeyMaterial

/-- The digest of a message is not too long for the key. -/
def PrivateKey.CanSign (lib : Primitives) (f : HashFunction) (message : Bytes) :
    PrivateKey → Prop
  | rsa n d => (lib.rsaSign? f n d message).isSome
  | ec _ _ => True

namespace Signing

variable {lib : Primitives}

/-! ## Binding and checking -/

/-- A key that can be described can be bound, and what is bound names it. -/
theorem exists_bind {k : KeyMaterial} (h : k.Describable) : ∃ key bound, k.describe = .ok key ∧
    bind none k none = .ok bound ∧ bound.key = key ∧ bound.key.populated = true ∧
      bound.key.version = 0x10 := by
  obtain ⟨v, _, hv, hdescribe⟩ := h.publicPart
  obtain ⟨key, hkey⟩ := hv.exists_describe
  obtain ⟨hversion, halg⟩ := PublicPart.kind_of_describe hkey
  rw [← hdescribe] at hkey
  have hsize : ∃ size, SignatureDescriptor.dataSize key.sigScheme key.keySize = .ok size := by
    unfold KeyDescriptor.sigScheme
    obtain halg | halg := halg
    · exact ⟨_, by rw [if_pos halg]; rfl⟩
    · exact ⟨_, by rw [halg]; rfl⟩
  obtain ⟨size, hsize⟩ := hsize
  refine ⟨key, _, hkey, boundKey_eq_ok_iff.2 ⟨key, size, _, hkey, hsize, rfl, rfl⟩, rfl, ?_,
    hversion⟩
  show key.populated = true
  unfold KeyDescriptor.populated
  obtain halg | halg := halg <;> rw [halg] <;> rfl

/-- A bound key is compared as a whole. The report on another one states sizes. -/
theorem checkBound_some {bound : KeySignature} {key : KeyDescriptor}
    (hpopulated : bound.key.populated = true) (hversion : bound.key.version = key.version) :
    (bound.key = key → checkBound (some bound) key = .ok ()) ∧
      (bound.key ≠ key → ∃ cause, ∃ sizes ⊆ [bound.key.keySize, key.keySize],
        checkBound (some bound) key = .error ((Error.keyMismatch cause).reporting sizes)) := by
  unfold checkBound
  simp only [hpopulated, Bool.not_true, Bool.false_eq_true, if_false]
  constructor
  · rintro rfl
    simp
  · intro hne
    by_cases htags : bound.key.keyAlg ≠ key.keyAlg ∨ bound.key.keySize ≠ key.keySize
    · rw [if_pos htags]
      exact ⟨_, _, List.Subset.refl _, rfl⟩
    · obtain ⟨halg, hsize⟩ := not_or.1 htags
      have hdata : bound.key.data ≠ key.data := fun hdata => hne
        (KeyDescriptor.eq_of_fields (not_not.1 halg) hversion (not_not.1 hsize) hdata)
      rw [if_neg htags, if_pos hdata]
      exact ⟨.publicKey, [], List.nil_subset _, rfl⟩

/-- A key signs with every hash function that can be signed with, where the primitive does. -/
theorem exists_signatureData {k : KeyMaterial} {signer : PrivateKey} {alg : Int}
    {f : HashFunction} {message : Bytes} (hk : k.Describable) (hsigner : k.toPrivate = .ok signer)
    (hf : signingHash? alg = some f) (hsigns : signer.CanSign lib f message) :
    ∃ data, signatureData lib signer alg message = .ok data := by
  cases k with
  | rsaPrivate n e d =>
    cases hsigner
    obtain ⟨s, hs⟩ := Option.isSome_iff_exists.1 hsigns
    exact ⟨s.reverse, by simp only [signatureData, hf, hs]⟩
  | ecPrivate kind c secret x y =>
    cases hsigner
    obtain ⟨curve, hc, _⟩ := hk
    simp only [signatureData, hf, hc]
    exact ⟨_, rfl⟩
  | _ => cases hsigner

/-- Signing with a key where one is bound already: with the same public part it yields a signature
of the bound key, with another one it is refused. The report states the sizes of both keys, which
can be written whenever they have no more than 4300 digits. -/
theorem sign_bound_iff {message : Bytes} {k k' : KeyMaterial} {signer : PrivateKey}
    {asked : Algorithm.Spec} {alg : Int} {f : HashFunction} (hk : k.Describable)
    (hk' : k'.Describable) (hsigner : k.toPrivate = .ok signer) (halg : asked.resolve = .ok alg)
    (hf : signingHash? alg = some f) (hsigns : signer.CanSign lib f message) :
    ∃ key bound, k.describe = .ok key ∧ bind none k' none = .ok bound ∧
      (k.publicPart? = k'.publicPart? →
        ∃ s, sign lib message k (some bound) (some asked) = .ok s ∧ s.key = bound.key) ∧
      (k.publicPart? ≠ k'.publicPart? →
        ∃ cause, ∃ sizes ⊆ [bound.key.keySize, key.keySize],
          sign lib message k (some bound) (some asked) =
            .error ((Error.keyMismatch cause).reporting sizes)) ∧
      ((∀ size ∈ [bound.key.keySize, key.keySize], Text.isWritable size = true) →
        ((∃ cause, sign lib message k (some bound) (some asked) = .error (.keyMismatch cause)) ↔
          k.publicPart? ≠ k'.publicPart?)) := by
  obtain ⟨key, held, hkey, _, rfl, _, hversion⟩ := exists_bind hk
  obtain ⟨_, bound, hkey', hbind, rfl, hpopulated, hversion'⟩ := exists_bind hk'
  obtain ⟨hsame, hother⟩ := checkBound_some hpopulated (hversion'.trans hversion.symm)
  obtain ⟨data, hdata⟩ := exists_signatureData hk hsigner hf hsigns
  have haccepted : k.publicPart? = k'.publicPart? →
      sign lib message k (some bound) (some asked) = .ok (signatureOf held.key alg data) := by
    intro heq
    have hkeys := (KeyMaterial.publicPart?_eq_iff hk hk' hkey hkey').1 heq
    exact sign_eq_ok_iff.2 ⟨signer, _, alg, data, hsigner, hkey, hsame hkeys.symm, halg, hdata, rfl⟩
  have hrefused : k.publicPart? ≠ k'.publicPart? →
      ∃ cause, ∃ sizes ⊆ [bound.key.keySize, held.key.keySize],
        sign lib message k (some bound) (some asked) =
          .error ((Error.keyMismatch cause).reporting sizes) := by
    intro hne
    have hkeys : bound.key ≠ held.key := fun heq =>
      hne ((KeyMaterial.publicPart?_eq_iff hk hk' hkey hkey').2 heq.symm)
    obtain ⟨cause, sizes, hsizes, hcheck⟩ := hother hkeys
    refine ⟨cause, sizes, hsizes, ?_⟩
    rw [sign, hsigner, ok_bind, hkey, ok_bind, hcheck, error_bind]
  refine ⟨_, bound, hkey, hbind, fun heq => ?_, hrefused, fun hwritable => ⟨?_, fun hne => ?_⟩⟩
  · have hkeys := (KeyMaterial.publicPart?_eq_iff hk hk' hkey hkey').1 heq
    exact ⟨_, haccepted heq, hkeys⟩
  · intro hall heq
    obtain ⟨cause, herror⟩ := hall
    rw [haccepted heq] at herror
    cases herror
  · obtain ⟨cause, sizes, hsizes, herror⟩ := hrefused hne
    rw [Error.reporting_of_writable fun n hn => hwritable n (hsizes hn)] at herror
    exact ⟨cause, herror⟩

/-! ## A key bound by its public part -/

def tightModulus : Nat :=
  0xa723a8bb42b82fbe532846ed24e8c9935b844734aeeb020111c607ec322ae75e11d51bdec166cffc5430eea6eb5b

def tightSecret : Nat :=
  0x168ac9ac0ff09587dee154c7912dd05a0e82c5b3c64fadaaabbbf5a1b8a7084b4da2338ce699cdc0d1d8085de1f9

/-- An RSA key of 368 bits, the least that digests of twenty bytes can be signed with. -/
def tightKey : KeyMaterial := .rsaPrivate tightModulus 65537 tightSecret

theorem bitLength_tightModulus : bitLength tightModulus = 368 := by decide +kernel

theorem canSign_tightKey :
    (PrivateKey.rsa tightModulus tightSecret).CanSign .standard .sha1 [0x42] := by
  show (Rsa.sign? .sha1 tightModulus tightSecret [0x42]).isSome
  unfold Rsa.sign?
  rw [Option.isSome_map]
  decide +kernel

/-- The key on the curve P-224 with the secret 1, whose public point is the base point. -/
def unitKey : KeyMaterial := .ecPrivate .general .p224 1 Curve.p224.baseX Curve.p224.baseY

theorem ofSecret_unitKey : KeyMaterial.ofSecret .general .p224 1 = .ok unitKey :=
  eq_ok_of_toOption (by decide +kernel)

/-- A point of the curve P-224. -/
def unitPoint (y : Nat) : KeyMaterial := .ecPublic .dedicated .p224 Curve.p224.baseX y

/-- Keys sign where their public part is bound. An RSA key is refused where one with the same
modulus and another exponent is, and a key on a curve where the opposite point is. -/
theorem sign_bound_iff_sample :
    ((∃ bound s, bind none (.rsaPublic tightModulus 65537) none = .ok bound ∧
      sign .standard [0x42] tightKey (some bound) (some (.text "sha1")) = .ok s ∧
        s.key = bound.key) ∧
    ∃ bound cause, bind none (.rsaPublic tightModulus 3) none = .ok bound ∧
      sign .standard [0x42] tightKey (some bound) (some (.text "sha1")) =
        .error (.keyMismatch cause)) ∧
    (∃ bound s, bind none (unitPoint Curve.p224.baseY) none = .ok bound ∧
      sign .standard [0x42] unitKey (some bound) (some (.text "sha256")) = .ok s ∧
        s.key = bound.key) ∧
    ∃ bound cause, bind none (unitPoint (Curve.p224.p - Curve.p224.baseY)) none = .ok bound ∧
      sign .standard [0x42] unitKey (some bound) (some (.text "sha256")) =
        .error (.keyMismatch cause) := by
  have hbits : bitLength tightModulus % 8 = 0 := by rw [bitLength_tightModulus]
  have htight : tightKey.Describable := ⟨hbits, by decide⟩
  have hunit : unitKey.Describable := KeyMaterial.describable_of_ofSecret rfl ofSecret_unitKey
  have hrsa (e : Nat) (he : e < 0x100000000) :
      (KeyMaterial.rsaPublic tightModulus e).Describable := ⟨hbits, he⟩
  have hpoint (y : Nat) (hy : y < Curve.p224.p) : (unitPoint y).Describable :=
    ⟨Curve.p224, rfl, by decide, hy⟩
  have hcanSign : (PrivateKey.ec .p224 1).CanSign .standard .sha256 [0x42] := trivial
  have hsha1 : (Algorithm.Spec.text "sha1").resolve = .ok Algorithm.sha1 :=
    eq_ok_of_toOption (by decide +kernel)
  have hsha256 : (Algorithm.Spec.text "sha256").resolve = .ok Algorithm.sha256 :=
    eq_ok_of_toOption (by decide +kernel)
  refine ⟨⟨?_, ?_⟩, ?_, ?_⟩
  · obtain ⟨_, bound, _, hbind, hsigns, _⟩ :=
      sign_bound_iff htight (hrsa 65537 (by decide)) rfl hsha1 rfl canSign_tightKey
    obtain ⟨s, hs⟩ := hsigns rfl
    exact ⟨bound, s, hbind, hs⟩
  · obtain ⟨key, bound, hkey, hbind, _, _, hiff⟩ :=
      sign_bound_iff htight (hrsa 3 (by decide)) rfl hsha1 rfl canSign_tightKey
    have hsizes : bound.key.keySize = 368 ∧ key.keySize = 368 := by
      obtain ⟨_, _, _, rfl⟩ := KeyMaterial.describeRsa_eq_ok_iff.1 hkey
      obtain ⟨_, _, _, hkey', _, _, rfl⟩ := boundKey_eq_ok_iff.1 hbind
      obtain ⟨_, _, _, rfl⟩ := KeyMaterial.describeRsa_eq_ok_iff.1 hkey'
      exact ⟨congrArg Int.ofNat bitLength_tightModulus, congrArg Int.ofNat bitLength_tightModulus⟩
    rw [hsizes.1, hsizes.2] at hiff
    obtain ⟨cause, hcause⟩ := (hiff (by decide +kernel)).2 (by decide +kernel)
    exact ⟨bound, cause, hbind, hcause⟩
  · obtain ⟨_, bound, _, hbind, hsigns, _⟩ :=
      sign_bound_iff hunit (hpoint Curve.p224.baseY (by decide)) rfl hsha256 rfl hcanSign
    obtain ⟨s, hs⟩ := hsigns rfl
    exact ⟨bound, s, hbind, hs⟩
  · obtain ⟨key, bound, hkey, hbind, _, _, hiff⟩ :=
      sign_bound_iff hunit (hpoint (Curve.p224.p - Curve.p224.baseY) (by decide)) rfl hsha256 rfl
        hcanSign
    have hsizes : bound.key.keySize = 224 ∧ key.keySize = 224 := by
      unfold unitKey KeyMaterial.describe at hkey
      obtain ⟨_, hcurve, rfl⟩ := KeyMaterial.describePoint_eq_ok_iff.1 hkey
      obtain ⟨_, _, _, hkey', _, _, rfl⟩ := boundKey_eq_ok_iff.1 hbind
      unfold unitPoint KeyMaterial.describe at hkey'
      obtain ⟨_, hcurve', rfl⟩ := KeyMaterial.describePoint_eq_ok_iff.1 hkey'
      cases hcurve
      cases hcurve'
      exact ⟨rfl, rfl⟩
    rw [hsizes.1, hsizes.2] at hiff
    obtain ⟨cause, hcause⟩ := (hiff (by decide +kernel)).2 (by decide +kernel)
    exact ⟨bound, cause, hbind, hcause⟩

end Signing

end BootGuard
