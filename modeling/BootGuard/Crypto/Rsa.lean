/-
  RSA signatures with the deterministic padding (RSASSA-PKCS1-v1_5).

  The digest of a message, with a prefix that names the hash function, is padded to the length
  of the modulus; the signature is a power of the number so obtained.
-/
import BootGuard.Crypto.Primitives

namespace BootGuard.Crypto.Rsa

/-- What stands in front of a digest to name its hash function; there is none for SM3. -/
def digestPrefix? : HashFunction → Option Bytes
  | .sha1 => some
    [0x30, 0x21, 0x30, 0x09, 0x06, 0x05, 0x2B, 0x0E, 0x03, 0x02, 0x1A, 0x05, 0x00, 0x04, 0x14]
  | .sha256 => some
    [0x30, 0x31, 0x30, 0x0D, 0x06, 0x09, 0x60, 0x86, 0x48, 0x01, 0x65, 0x03, 0x04, 0x02, 0x01,
     0x05, 0x00, 0x04, 0x20]
  | .sha384 => some
    [0x30, 0x41, 0x30, 0x0D, 0x06, 0x09, 0x60, 0x86, 0x48, 0x01, 0x65, 0x03, 0x04, 0x02, 0x02,
     0x05, 0x00, 0x04, 0x30]
  | .sha512 => some
    [0x30, 0x51, 0x30, 0x0D, 0x06, 0x09, 0x60, 0x86, 0x48, 0x01, 0x65, 0x03, 0x04, 0x02, 0x03,
     0x05, 0x00, 0x04, 0x40]
  | .sm3 => none

/-- The length of a modulus in bytes. -/
def modulusSize (n : Nat) : Nat := (bitLength n + 7) / 8

/-- The padded digest of a message, `size` bytes long; none where that is too short. -/
def padded? (f : HashFunction) (size : Nat) (message : Bytes) : Option Bytes :=
  match digestPrefix? f with
  | none => none
  | some head =>
    let t := head ++ f.hash message
    if size < t.length + 11 then none
    else some (0x00 :: 0x01 :: (Bytes.erased (size - t.length - 3) ++ 0x00 :: t))

/-- The signature of a message, highest byte first; none where the digest is too long for the
modulus. -/
def sign? (f : HashFunction) (n d : Nat) (message : Bytes) : Option Bytes :=
  let size := modulusSize n
  (padded? f size message).map fun em => Bytes.ofNatBe size (powMod n (Bytes.toNatBe em) d)

/-- The first primes. The test of Miller and Rabin with them is sure below 3 * 10^24. -/
def smallPrimes : List Nat := [2, 3, 5, 7, 11, 13, 17, 19, 23, 29, 31, 37, 41]

/-- Further numbers to test a number with. A hash function draws them from the number itself, so
that a composite one cannot be made to pass with all of them. -/
def drawnBases (n : Nat) : List Nat :=
  let b := Bytes.ofNatBe (modulusSize n) n
  [0x00, 0x01, 0x02, 0x03, 0x04, 0x05, 0x06, 0x07].map fun i =>
    Bytes.toNatBe (HashFunction.sha256.hash (i :: b)) % n

/-- Whether the power of `a` to `e` is minus one or else one modulo `n`, and in the second case so
on for half of `e` while that is whole; halves are taken at most `depth` times. -/
def passes (n a e : Nat) : Nat → Bool
  | 0 => true
  | depth + 1 =>
    let power := powMod n a e
    power == n - 1 || (power == 1 && (e % 2 == 1 || passes n a (e / 2) depth))

/-- Whether a number passes as a prime: it is one of the first primes, or the test of Miller and
Rabin finds nothing against it. -/
def isProbablePrime (n : Nat) : Bool :=
  smallPrimes.contains n ||
    (3 < n && n % 2 == 1 && (smallPrimes ++ drawnBases n).all fun a =>
      a == 0 || passes n a ((n - 1) / 2) (bitLength n))

/-- Whether five numbers make a private key: a public one, the two odd primes behind its modulus,
and an exponent that undoes the public one. -/
def isPrivateKey (n e d p q : Nat) : Bool :=
  isPublicKey n e && d < n && p * q == n && n % 2 == 1 && p != q &&
    isProbablePrime p && isProbablePrime q &&
    d * e % (p - 1) == 1 % (p - 1) && d * e % (q - 1) == 1 % (q - 1)

/-- The most bits that a modulus to verify with can have. -/
def maxModulusBits : Nat := 16384

/-- Whether a signature, highest byte first, is that of a message. None is under a modulus that
is even or too long. -/
def verify (f : HashFunction) (n e : Nat) (message signature : Bytes) : Bool :=
  let size := modulusSize n
  let s := Bytes.toNatBe signature
  n % 2 == 1 && bitLength n ≤ maxModulusBits && signature.length == size && decide (s < n) &&
    padded? f size message == some (Bytes.ofNatBe size (powMod n s e))

end BootGuard.Crypto.Rsa
