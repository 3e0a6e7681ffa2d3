/-
  How many bytes a number takes.
-/
import BootGuard.Crypto.Modular

namespace BootGuard

open Crypto

/-- A number fits as many bytes as its binary digits take. -/
theorem Bytes.lt_valueCount_iff {n w : Nat} : n < valueCount w ↔ bitLength n ≤ 8 * w := by
  have hcount : ∀ w, valueCount w = 1 <<< (8 * w) := by
    intro w
    induction w with
    | zero => rfl
    | succ w ih =>
      rw [valueCount, ih, Nat.shiftLeft_eq, Nat.shiftLeft_eq, Nat.mul_succ, Nat.pow_add]
      omega
  rw [hcount, Nat.shiftLeft_eq, Nat.one_mul, bitLength]
  split
  · rename_i h
    rw [h]
    exact iff_of_true (Nat.two_pow_pos _) (Nat.zero_le _)
  · rename_i h
    rw [← Nat.log2_lt h, Nat.succ_le_iff]

/-- A number fits the bytes that it is given. -/
theorem Crypto.lt_valueCount (n : Nat) : n < Bytes.valueCount ((bitLength n + 7) / 8) := by
  rw [Bytes.lt_valueCount_iff]
  omega

namespace Bytes

theorem toNatLe_ofNatLe_of_lt {w n : Nat} (h : n < valueCount w) : toNatLe (ofNatLe w n) = n := by
  rw [toNatLe_ofNatLe, Nat.mod_eq_of_lt h]

theorem toNatBe_reverse (b : Bytes) : toNatBe b.reverse = toNatLe b := by
  rw [toNatBe, List.reverse_reverse]

theorem toNatBe_ofNatBe_of_lt {w n : Nat} (h : n < valueCount w) : toNatBe (ofNatBe w n) = n := by
  rw [ofNatBe, toNatBe_reverse, toNatLe_ofNatLe_of_lt h]

theorem length_ofNatBe (w n : Nat) : (ofNatBe w n).length = w := by
  rw [ofNatBe, List.length_reverse, length_ofNatLe]

end Bytes

end BootGuard
