/-
  The frame around an element.

  Every element starts with twelve bytes: the structure ID of its kind, two numbers, and a
  size. For most kinds the size is that of the whole element, and the body ends exactly where
  the size says; for the others it is one more number.
-/
import BootGuard.Record.Reader

namespace BootGuard.Frame

/-- The length of the head of an element. -/
def headSize : Nat := 12

/-- The largest size the head can state. -/
def maxSize : Nat := 0xFFFF

/-- The head of an element. -/
structure Head where
  structVer : Int
  var0 : Int
  size : Nat
deriving DecidableEq, Repr

/-- An element of a kind from the numbers in its head and its body. -/
def encode (kind : ElementKind) (structVer var0 size : Int) (body : Bytes) :
    Except Error Bytes := do
  if size > maxSize then
    throw ((Error.invalidManifest (.oversizedElement kind size)).reporting [size])
  let structVer ← packInt 1 structVer
  let var0 ← packInt 1 var0
  let size ← packInt 2 size
  return kind.id ++ structVer ++ var0 ++ size ++ body

/-- An element of a kind whose head states the size of the whole. -/
def encodeSized (kind : ElementKind) (structVer var0 : Int) (body : Bytes) :
    Except Error Bytes :=
  encode kind structVer var0 (headSize + body.length) body

/-- The head of an element that must be of the kind `kind`. -/
def readHead (kind : ElementKind) : Reader Head := do
  let start ← Reader.position
  let b ← Reader.take headSize .structureInfo
  if b.take 8 ≠ kind.id then
    Reader.fail (.invalidManifest (.unexpectedId kind start (b.take 8)))
  else
    return ⟨Bytes.toNatLe ((b.drop 8).take 1), Bytes.toNatLe ((b.drop 9).take 1),
      Bytes.toNatLe (b.drop 10)⟩

/-- Reads a body that must fill the size stated in the head, where the head began twelve bytes
earlier. The body does not see what lies behind the element; if it asks for more than there is,
the size is wrong, and not the input too short. -/
def sized {α : Type} (kind : ElementKind) (size : Nat) (body : Reader α) : Reader α := fun c =>
  if size < headSize then .error (.invalidManifest (.impossibleSize kind size))
  else if c.rest.shorterThan (size - headSize) then
    .error (.truncated (.declared kind size (c.pos - headSize) (c.rest.length + headSize)))
  else
    match body ⟨c.pos, c.rest.take (size - headSize)⟩ with
    | .error (.truncated cause) => .error (.invalidManifest (.overrun kind cause))
    | .error e => .error e
    | .ok (a, c') =>
      if c'.rest.isEmpty then .ok (a, ⟨c'.pos, c.rest.drop (size - headSize)⟩)
      else .error (.invalidManifest (.sizeMismatch kind))

theorem consumes_readHead (kind : ElementKind) : (readHead kind).Consumes 12 := by
  refine Reader.consumes_bind (m := 0) (n := 12) Reader.consumes_position fun start => ?_
  refine Reader.consumes_bind (m := 12) (n := 0) (Reader.consumes_take headSize _) fun b => ?_
  split
  · exact Reader.consumes_fail _
  · exact Reader.consumes_pure _

theorem consumes_sized {α : Type} (kind : ElementKind) (size : Nat) (body : Reader α) :
    (sized kind size body).Consumes 0 := by
  intro c a c' h
  unfold sized at h
  split at h
  · cases h
  · split at h
    · cases h
    · split at h
      · cases h
      · cases h
      · split at h
        · cases h
          simp only [List.length_drop]
          omega
        · cases h

end BootGuard.Frame
