/-
  The hash functions a manifest can name, and keyed hashing with them.
-/
import BootGuard.Crypto.Sha1
import BootGuard.Crypto.Sha256
import BootGuard.Crypto.Sha512
import BootGuard.Crypto.Sm3

namespace BootGuard

/-- A hash function. -/
inductive HashFunction
  | sha1
  | sha256
  | sha384
  | sha512
  | sm3
deriving DecidableEq, Repr

namespace HashFunction

/-- The length of a digest in bytes. -/
def digestSize : HashFunction → Nat
  | sha1 => 20
  | sha256 => 32
  | sha384 => 48
  | sha512 => 64
  | sm3 => 32

/-- The length of a block in bytes. -/
def blockSize : HashFunction → Nat
  | sha384 | sha512 => 128
  | _ => 64

/-- The digest of a message. -/
def hash : HashFunction → Bytes → Bytes
  | sha1 => Crypto.Sha1.hash
  | sha256 => Crypto.Sha256.hash
  | sha384 => Crypto.Sha512.hash384
  | sha512 => Crypto.Sha512.hash512
  | sm3 => Crypto.Sm3.hash

theorem length_hash (f : HashFunction) (message : Bytes) :
    (f.hash message).length = f.digestSize := by
  cases f
  · exact Crypto.Sha1.length_hash message
  · exact Crypto.Sha256.length_hash message
  · exact Crypto.Sha512.length_hash384 message
  · exact Crypto.Sha512.length_hash512 message
  · exact Crypto.Sm3.length_hash message

/-- A key of exactly one block: a long one is hashed first, a short one filled with zeros. -/
def blockKey (f : HashFunction) (key : Bytes) : Bytes :=
  let k := if f.blockSize < key.length then f.hash key else key
  k ++ Bytes.zeros (f.blockSize - k.length)

/-- The keyed hash (HMAC) of a message. -/
def keyedHash (f : HashFunction) (key message : Bytes) : Bytes :=
  let k := f.blockKey key
  f.hash (k.map (· ^^^ 0x5C) ++ f.hash (k.map (· ^^^ 0x36) ++ message))

end HashFunction

end BootGuard
