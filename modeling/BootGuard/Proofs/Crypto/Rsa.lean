/-
  RSA signatures are accepted.

  The exponents of a key undo each other modulo both primes, by Fermat, and so modulo their
  product. A padded digest starts with a zero byte, so its number is below the modulus and the
  public exponent gets it back whole (`verify_of_sign`).
-/
import BootGuard.Crypto.Rsa
import BootGuard.Proofs.Crypto.Width
import Mathlib.FieldTheory.Finite.Basic

namespace BootGuard

/-! ## Numbers of bytes -/

namespace Bytes

theorem toNatBe_zero_cons (b : Bytes) : toNatBe (0x00 :: b) = toNatBe b := by
  have h : ∀ c : Bytes, toNatLe (c ++ [0x00]) = toNatLe c := by
    intro c
    induction c with
    | nil => rfl
    | cons x c ih => rw [List.cons_append, toNatLe, toNatLe, ih]
  rw [toNatBe, List.reverse_cons, h, toNatBe]

theorem ofNatBe_toNatBe (b : Bytes) : ofNatBe b.length (toNatBe b) = b := by
  rw [ofNatBe, toNatBe, ← List.length_reverse, ofNatLe_toNatLe, List.reverse_reverse]

theorem toNatBe_lt (b : Bytes) : toNatBe b < valueCount b.length := by
  rw [toNatBe, ← List.length_reverse]
  exact toNatLe_lt b.reverse

end Bytes

namespace Crypto.Rsa

/-! ## Powers -/

/-- Fermat: a power is the number itself modulo a prime, if the exponent is one modulo the
prime less one. -/
theorem pow_modEq_self {p k : Nat} (m : Nat) (hp : p.Prime) (h2 : 2 < p)
    (hk : k % (p - 1) = 1 % (p - 1)) : m ^ k ≡ m [MOD p] := by
  have hone : 1 % (p - 1) = 1 := Nat.mod_eq_of_lt (by omega)
  have hsplit : (p - 1) * (k / (p - 1)) + 1 = k := by
    have hdiv := Nat.div_add_mod k (p - 1)
    rwa [hk, hone] at hdiv
  rw [← hsplit, pow_succ, pow_mul]
  by_cases hdvd : p ∣ m
  · have hzero : m ≡ 0 [MOD p] := (Nat.modEq_zero_iff_dvd).2 hdvd
    have hmul : (m ^ (p - 1)) ^ (k / (p - 1)) * m ≡ 0 [MOD p] :=
      (Nat.modEq_zero_iff_dvd).2 (Dvd.dvd.mul_left hdvd _)
    exact hmul.trans hzero.symm
  · have hcoprime : Nat.Coprime m p := ((Nat.Prime.coprime_iff_not_dvd hp).2 hdvd).symm
    have hfermat : m ^ (p - 1) ≡ 1 [MOD p] := by
      have := Nat.ModEq.pow_totient hcoprime
      rwa [Nat.totient_prime hp] at this
    have hpow := (hfermat.pow (k / (p - 1))).mul_right m
    rwa [one_pow, one_mul] at hpow

/-- What the factors of a modulus and the exponents have to do with each other. -/
structure KeyPair (p q e d : Nat) : Prop where
  prime_p : p.Prime
  prime_q : q.Prime
  ne : p ≠ q
  odd_p : 2 < p
  odd_q : 2 < q
  inverse_p : d * e % (p - 1) = 1 % (p - 1)
  inverse_q : d * e % (q - 1) = 1 % (q - 1)

namespace KeyPair

variable {p q e d : Nat} (h : KeyPair p q e d)
include h

theorem pow_modEq (m : Nat) : m ^ (d * e) ≡ m [MOD p * q] := by
  have hcoprime : Nat.Coprime p q := (Nat.coprime_primes h.prime_p h.prime_q).2 h.ne
  refine (Nat.modEq_and_modEq_iff_modEq_mul hcoprime).1 ⟨?_, ?_⟩
  · exact pow_modEq_self m h.prime_p h.odd_p h.inverse_p
  · exact pow_modEq_self m h.prime_q h.odd_q h.inverse_q

/-- The public exponent undoes the secret one. -/
theorem powMod_powMod {m : Nat} (hm : m < p * q) :
    powMod (p * q) (powMod (p * q) m d) e = m := by
  rw [powMod_eq, powMod_eq]
  change (m ^ d % (p * q)) ^ e % (p * q) = m
  have hmod : m ^ (d * e) % (p * q) = m % (p * q) := h.pow_modEq m
  rw [← Nat.pow_mod, ← pow_mul, hmod, Nat.mod_eq_of_lt hm]

theorem odd_modulus : p * q % 2 = 1 := by
  have hp : p % 2 = 1 := (h.prime_p.eq_two_or_odd).resolve_left (by have := h.odd_p; omega)
  have hq : q % 2 = 1 := (h.prime_q.eq_two_or_odd).resolve_left (by have := h.odd_q; omega)
  rw [Nat.mul_mod, hp, hq]

end KeyPair

/-! ## Padding -/

/-- A padded digest is as long as it is asked to be, and starts with a zero byte. -/
theorem padded?_eq_some {f : HashFunction} {size : Nat} {message em : Bytes}
    (h : padded? f size message = some em) :
    em.length = size ∧ ∃ rest, em = 0x00 :: rest := by
  unfold padded? at h
  cases hhead : digestPrefix? f with
  | none =>
    rw [hhead] at h
    cases h
  | some head =>
    rw [hhead] at h
    dsimp only at h
    split at h
    · cases h
    · cases h
      refine ⟨?_, _, rfl⟩
      rw [Bytes.erased]
      simp only [List.length_cons, List.length_append, List.length_replicate] at *
      omega

/-- The number of a padded digest is below the modulus. -/
theorem toNatBe_padded?_lt {f : HashFunction} {n : Nat} {message em : Bytes}
    (h : padded? f (modulusSize n) message = some em) : Bytes.toNatBe em < n := by
  obtain ⟨hlen, rest, rfl⟩ := padded?_eq_some h
  rw [List.length_cons, modulusSize] at hlen
  have hle : Bytes.valueCount rest.length ≤ n := by
    refine Nat.le_of_not_lt fun hlt => ?_
    rw [Bytes.lt_valueCount_iff] at hlt
    omega
  rw [Bytes.toNatBe_zero_cons]
  exact Nat.lt_of_lt_of_le (Bytes.toNatBe_lt rest) hle

/-! ## Signatures -/

/-- What was signed with one exponent of a key is accepted with the other one. -/
theorem verify_of_sign {p q e d : Nat} {f : HashFunction} {message s : Bytes}
    (h : KeyPair p q e d) (hbits : bitLength (p * q) ≤ maxModulusBits)
    (hs : sign? f (p * q) d message = some s) : verify f (p * q) e message s = true := by
  rw [sign?, Option.map_eq_some_iff] at hs
  obtain ⟨em, hem, rfl⟩ := hs
  have hpos : 0 < p * q := Nat.mul_pos h.prime_p.pos h.prime_q.pos
  have hlt : powMod (p * q) (Bytes.toNatBe em) d < p * q := by
    rw [powMod_eq]
    exact Nat.mod_lt _ hpos
  have hvalue : Bytes.toNatBe (Bytes.ofNatBe (modulusSize (p * q))
      (powMod (p * q) (Bytes.toNatBe em) d)) = powMod (p * q) (Bytes.toNatBe em) d :=
    Bytes.toNatBe_ofNatBe_of_lt (Nat.lt_trans hlt (lt_valueCount (p * q)))
  have hback : Bytes.ofNatBe (modulusSize (p * q)) (Bytes.toNatBe em) = em := by
    rw [← (padded?_eq_some hem).1, Bytes.ofNatBe_toNatBe]
  have hundone := h.powMod_powMod (toNatBe_padded?_lt hem)
  simp only [verify, hvalue, hem, hundone, hback, h.odd_modulus, hbits, hlt,
    Bytes.length_ofNatBe, beq_self_eq_true, decide_true, Bool.and_self]

end Crypto.Rsa

end BootGuard
