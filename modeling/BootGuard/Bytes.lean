/-
  Byte strings as lists of bytes: little-endian integers, ranges, overwriting.

  Everything the library reads or writes is a `Bytes`. Integers are written with a fixed
  number of bytes, lowest first; the big-endian form, which only the cryptographic standards
  use, is its reverse.
-/
namespace BootGuard

/-- A byte string. -/
abbrev Bytes := List UInt8

namespace Bytes

/-- The `w` lowest bytes of `n`, lowest first. -/
def ofNatLe : Nat → Nat → Bytes
  | 0, _ => []
  | w + 1, n => UInt8.ofNat n :: ofNatLe w (n / 256)

/-- The value of a byte string, lowest byte first. -/
def toNatLe : Bytes → Nat
  | [] => 0
  | b :: bs => b.toNat + 256 * toNatLe bs

/-- The `w` lowest bytes of `n`, highest first. -/
def ofNatBe (w n : Nat) : Bytes := (ofNatLe w n).reverse

/-- The value of a byte string, highest byte first. -/
def toNatBe (b : Bytes) : Nat := toNatLe b.reverse

/-- The number of byte strings of length `w`, one more than the largest value they have. -/
def valueCount : Nat → Nat
  | 0 => 1
  | w + 1 => 256 * valueCount w

/-- Whether there are fewer than `n` bytes; looks at no more than `n` of them. -/
def shorterThan : Bytes → Nat → Bool
  | _, 0 => false
  | [], _ + 1 => true
  | _ :: bs, n + 1 => shorterThan bs n

/-- `n` bytes with all bits set, as in erased flash. -/
def erased (n : Nat) : Bytes := List.replicate n 0xFF

/-- `n` zero bytes. -/
def zeros (n : Nat) : Bytes := List.replicate n 0

/-- The bytes of an ASCII text. -/
def ofText (s : String) : Bytes := s.toList.map fun c => UInt8.ofNat c.toNat

/-- The bytes with `payload` written over them from `offset` on. -/
def overwrite (b : Bytes) (offset : Nat) (payload : Bytes) : Bytes :=
  b.take offset ++ (payload ++ b.drop (offset + payload.length))

/-- The place that `i` names in a string of `n` bytes: below zero it counts from the end, and
a place before the start or after the end is the nearest one inside. -/
def place (n : Nat) (i : Int) : Nat :=
  if i < 0 then (n + i).toNat else min i.toNat n

/-- The bytes from place `start` up to place `stop`. -/
def range (b : Bytes) (start stop : Int) : Bytes :=
  let s := place b.length start
  (b.drop s).take (place b.length stop - s)

theorem length_ofNatLe (w n : Nat) : (ofNatLe w n).length = w := by
  induction w generalizing n with
  | zero => rfl
  | succ w ih => simp [ofNatLe, ih]

theorem toNatLe_lt (b : Bytes) : toNatLe b < valueCount b.length := by
  induction b with
  | nil => exact Nat.one_pos
  | cons x bs ih =>
    have hx := x.toNat_lt
    simp only [toNatLe, List.length_cons, valueCount]
    omega

theorem toNatLe_ofNatLe (w n : Nat) : toNatLe (ofNatLe w n) = n % valueCount w := by
  induction w generalizing n with
  | zero => simp [ofNatLe, toNatLe, valueCount, Nat.mod_one]
  | succ w ih =>
    simp only [ofNatLe, toNatLe, ih, valueCount]
    rw [Nat.mod_mul]
    simp

theorem ofNatLe_toNatLe (b : Bytes) : ofNatLe b.length (toNatLe b) = b := by
  induction b with
  | nil => rfl
  | cons x bs ih =>
    have hx : x.toNat < 256 := x.toNat_lt
    have h1 : UInt8.ofNat (x.toNat + 256 * toNatLe bs) = x := by
      apply UInt8.toNat_inj.1
      simp only [UInt8.toNat_ofNat']
      omega
    have h2 : (x.toNat + 256 * toNatLe bs) / 256 = toNatLe bs := by omega
    simp only [List.length_cons, toNatLe, ofNatLe, h1, h2, ih]

theorem shorterThan_iff (b : Bytes) (n : Nat) : b.shorterThan n = true ↔ b.length < n := by
  induction b generalizing n with
  | nil => cases n <;> simp [shorterThan]
  | cons x bs ih =>
    cases n with
    | zero => simp [shorterThan]
    | succ n => simp [shorterThan, ih]

theorem length_overwrite (b payload : Bytes) (offset : Nat)
    (h : offset + payload.length ≤ b.length) :
    (b.overwrite offset payload).length = b.length := by
  simp only [overwrite, List.length_append, List.length_take, List.length_drop]
  omega

end Bytes

end BootGuard
