/-
  Messages as blocks.

  The hash functions of this library work on blocks of a fixed size. A message is filled up
  with a one bit, zero bits and its length in bits, and the blocks are folded into the state
  one after the other.
-/
import BootGuard.Bytes

namespace BootGuard.Crypto

/-- The number of zero bytes between the marker byte and the length field. -/
def paddingZeros (block lengthBytes messageLength : Nat) : Nat :=
  (block - (messageLength + 1 + lengthBytes) % block) % block

/-- A message with its padding: marker, zeros, bit length in `lengthBytes` bytes. -/
def padded (block lengthBytes : Nat) (message : Bytes) : Bytes :=
  let n := message.length
  message ++ 0x80 :: (Bytes.zeros (paddingZeros block lengthBytes n) ++
    Bytes.ofNatBe lengthBytes (8 * n))

/-- Folds the blocks of `k + 1` bytes into a state; a last block may be shorter. -/
def foldBlocks {σ : Type} (k : Nat) (absorb : σ → Bytes → σ) (s : σ) : Bytes → σ
  | [] => s
  | x :: xs => foldBlocks k absorb (absorb s (x :: xs.take k)) (xs.drop k)
termination_by b => b.length
decreasing_by simp only [List.length_drop, List.length_cons]; omega

/-- The words of four bytes, highest byte first. -/
def words32 : Bytes → List UInt32
  | a :: b :: c :: d :: rest =>
    (a.toUInt32 <<< 24 ||| b.toUInt32 <<< 16 ||| c.toUInt32 <<< 8 ||| d.toUInt32) :: words32 rest
  | _ => []

/-- The words of eight bytes, highest byte first. -/
def words64 : Bytes → List UInt64
  | a :: b :: c :: d :: e :: f :: g :: h :: rest =>
    (a.toUInt64 <<< 56 ||| b.toUInt64 <<< 48 ||| c.toUInt64 <<< 40 ||| d.toUInt64 <<< 32 |||
      e.toUInt64 <<< 24 ||| f.toUInt64 <<< 16 ||| g.toUInt64 <<< 8 ||| h.toUInt64) ::
      words64 rest
  | _ => []

/-- The bytes of words of four bytes, highest byte first. -/
def bytesOf32 (ws : List UInt32) : Bytes := ws.flatMap fun w => Bytes.ofNatBe 4 w.toNat

/-- The bytes of words of eight bytes, highest byte first. -/
def bytesOf64 (ws : List UInt64) : Bytes := ws.flatMap fun w => Bytes.ofNatBe 8 w.toNat

/-- Rotation of a word of 32 bits to the left. -/
@[inline] def rotateLeft32 (x : UInt32) (n : UInt32) : UInt32 := x <<< n ||| x >>> (32 - n)

/-- Rotation of a word of 32 bits to the right. -/
@[inline] def rotateRight32 (x : UInt32) (n : UInt32) : UInt32 := x >>> n ||| x <<< (32 - n)

/-- Rotation of a word of 64 bits to the right. -/
@[inline] def rotateRight64 (x : UInt64) (n : UInt64) : UInt64 := x >>> n ||| x <<< (64 - n)

theorem length_bytesOf32 (ws : List UInt32) : (bytesOf32 ws).length = 4 * ws.length := by
  induction ws with
  | nil => rfl
  | cons w ws ih =>
    have hw : (Bytes.ofNatBe 4 w.toNat).length = 4 := by
      simp [Bytes.ofNatBe, Bytes.length_ofNatLe]
    simp only [bytesOf32, List.flatMap_cons, List.length_append, hw, List.length_cons] at *
    omega

theorem length_bytesOf64 (ws : List UInt64) : (bytesOf64 ws).length = 8 * ws.length := by
  induction ws with
  | nil => rfl
  | cons w ws ih =>
    have hw : (Bytes.ofNatBe 8 w.toNat).length = 8 := by
      simp [Bytes.ofNatBe, Bytes.length_ofNatLe]
    simp only [bytesOf64, List.flatMap_cons, List.length_append, hw, List.length_cons] at *
    omega

end BootGuard.Crypto
