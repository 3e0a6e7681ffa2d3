/-
  Arithmetic modulo a number.
-/
import BootGuard.Bytes

namespace BootGuard.Crypto

/-- The power `b ^ e` modulo `m`, by repeated squaring. -/
def powMod (m b e : Nat) : Nat :=
  if e = 0 then 1 % m
  else
    let half := powMod m (b * b % m) (e / 2)
    if e % 2 = 1 then b * half % m else half
termination_by e

/-- The inverse of `a` modulo a prime. -/
def inverseMod (p a : Nat) : Nat := powMod p a (p - 2)

/-- The difference of two numbers below `p` modulo `p`. -/
def subMod (p a b : Nat) : Nat := (a + p - b) % p

/-- The number of binary digits of a number. -/
def bitLength (n : Nat) : Nat := if n = 0 then 0 else Nat.log2 n + 1

/-- The `bits` highest bits of a byte string as a number, or all of them if there are fewer. -/
def highBits (bits : Nat) (b : Bytes) : Nat := Bytes.toNatBe b >>> (8 * b.length - bits)

theorem powMod_eq (m b e : Nat) : powMod m b e = Nat.pow b e % m := by
  show powMod m b e = b ^ e % m
  induction e using Nat.strongRecOn generalizing b with
  | ind e ih =>
    rw [powMod]
    by_cases h0 : e = 0
    · simp [h0]
    · have hlt : e / 2 < e := by omega
      have hsq : (b * b % m) ^ (e / 2) % m = b ^ (2 * (e / 2)) % m := by
        rw [Nat.pow_mod, Nat.mod_mod, ← Nat.pow_mod, Nat.pow_mul, Nat.pow_two]
      simp only [h0, if_false, ih _ hlt, hsq]
      by_cases h1 : e % 2 = 1
      · have he : e = 2 * (e / 2) + 1 := by omega
        rw [if_pos h1, Nat.mul_mod_mod]
        conv => rhs; rw [he, Nat.pow_succ, Nat.mul_comm]
      · have he : e = 2 * (e / 2) := by omega
        rw [if_neg h1]
        conv => rhs; rw [he]

end BootGuard.Crypto
