/-
  SHA-1.
-/
import BootGuard.Crypto.Block

namespace BootGuard.Crypto.Sha1

/-- The five working words. -/
structure State where
  a : UInt32
  b : UInt32
  c : UInt32
  d : UInt32
  e : UInt32

/-- The state before the first block. -/
def initial : State := ⟨0x67452301, 0xefcdab89, 0x98badcfe, 0x10325476, 0xc3d2e1f0⟩

/-- The message schedule: sixteen words of the block and 64 derived from them. -/
def schedule (block : Bytes) : Array UInt32 :=
  (List.range 64).foldl
    (fun w i => w.push (rotateLeft32
      (w.getD (i + 13) 0 ^^^ w.getD (i + 8) 0 ^^^ w.getD (i + 2) 0 ^^^ w.getD i 0) 1))
    (words32 block).toArray

/-- The mixing function and the constant of round `i`; there are four phases of twenty. -/
def phase (i : Nat) (b c d : UInt32) : UInt32 :=
  if i < 20 then ((b &&& c) ||| (~~~b &&& d)) + 0x5a827999
  else if i < 40 then (b ^^^ c ^^^ d) + 0x6ed9eba1
  else if i < 60 then ((b &&& c) ||| (b &&& d) ||| (c &&& d)) + 0x8f1bbcdc
  else (b ^^^ c ^^^ d) + 0xca62c1d6

/-- One round, with its word of the schedule and its number. -/
def round (s : State) (wi : UInt32 × Nat) : State :=
  ⟨rotateLeft32 s.a 5 + phase wi.2 s.b s.c s.d + s.e + wi.1, s.a, rotateLeft32 s.b 30, s.c, s.d⟩

/-- Absorbs one block. -/
def absorb (s : State) (block : Bytes) : State :=
  let t := (schedule block).toList.zipIdx.foldl round s
  ⟨s.a + t.a, s.b + t.b, s.c + t.c, s.d + t.d, s.e + t.e⟩

/-- The digest of a message, 20 bytes. -/
def hash (message : Bytes) : Bytes :=
  let s := foldBlocks 63 absorb initial (padded 64 8 message)
  bytesOf32 [s.a, s.b, s.c, s.d, s.e]

theorem length_hash (message : Bytes) : (hash message).length = 20 := by
  rw [hash, length_bytesOf32]; rfl

end BootGuard.Crypto.Sha1
