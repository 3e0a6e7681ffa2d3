/-
  SM3.
-/
import BootGuard.Crypto.Block

namespace BootGuard.Crypto.Sm3

/-- The eight working words. -/
structure State where
  a : UInt32
  b : UInt32
  c : UInt32
  d : UInt32
  e : UInt32
  f : UInt32
  g : UInt32
  h : UInt32

/-- The state before the first block. -/
def initial : State :=
  ⟨0x7380166f, 0x4914b2b9, 0x172442d7, 0xda8a0600,
   0xa96f30bc, 0x163138aa, 0xe38dee4d, 0xb0fb0e4e⟩

/-- The permutation of the compression function. -/
def mix (x : UInt32) : UInt32 := x ^^^ rotateLeft32 x 9 ^^^ rotateLeft32 x 17

/-- The permutation of the message expansion. -/
def spread (x : UInt32) : UInt32 := x ^^^ rotateLeft32 x 15 ^^^ rotateLeft32 x 23

/-- The message schedule: sixteen words of the block and 52 derived from them. -/
def schedule (block : Bytes) : Array UInt32 :=
  (List.range 52).foldl
    (fun w i =>
      let x := spread (w.getD i 0 ^^^ w.getD (i + 7) 0 ^^^ rotateLeft32 (w.getD (i + 13) 0) 15)
      w.push (x ^^^ rotateLeft32 (w.getD (i + 3) 0) 7 ^^^ w.getD (i + 10) 0))
    (words32 block).toArray

/-- The constant of round `i`, rotated by `i`. -/
def constant (i : Nat) : UInt32 :=
  let n := UInt32.ofNat (i % 32)
  let t : UInt32 := if i < 16 then 0x79cc4519 else 0x7a879d8a
  if n = 0 then t else rotateLeft32 t n

/-- One round, with its two words of the schedule and its number. -/
def round (s : State) (wi : (UInt32 × UInt32) × Nat) : State :=
  let i := wi.2
  let ss1 := rotateLeft32 (rotateLeft32 s.a 12 + s.e + constant i) 7
  let ss2 := ss1 ^^^ rotateLeft32 s.a 12
  let ff := if i < 16 then s.a ^^^ s.b ^^^ s.c
    else (s.a &&& s.b) ||| (s.a &&& s.c) ||| (s.b &&& s.c)
  let gg := if i < 16 then s.e ^^^ s.f ^^^ s.g else (s.e &&& s.f) ||| (~~~s.e &&& s.g)
  let tt1 := ff + s.d + ss2 + (wi.1.1 ^^^ wi.1.2)
  let tt2 := gg + s.h + ss1 + wi.1.1
  ⟨tt1, s.a, rotateLeft32 s.b 9, s.c, mix tt2, s.e, rotateLeft32 s.f 19, s.g⟩

/-- Absorbs one block. -/
def absorb (s : State) (block : Bytes) : State :=
  let w := (schedule block).toList
  let t := ((w.take 64).zip (w.drop 4)).zipIdx.foldl round s
  ⟨s.a ^^^ t.a, s.b ^^^ t.b, s.c ^^^ t.c, s.d ^^^ t.d,
   s.e ^^^ t.e, s.f ^^^ t.f, s.g ^^^ t.g, s.h ^^^ t.h⟩

/-- The digest of a message, 32 bytes. -/
def hash (message : Bytes) : Bytes :=
  let s := foldBlocks 63 absorb initial (padded 64 8 message)
  bytesOf32 [s.a, s.b, s.c, s.d, s.e, s.f, s.g, s.h]

theorem length_hash (message : Bytes) : (hash message).length = 32 := by
  rw [hash, length_bytesOf32]; rfl

end BootGuard.Crypto.Sm3
