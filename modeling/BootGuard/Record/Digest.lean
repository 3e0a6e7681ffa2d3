/-
  Digests and lists of digests.

  A digest is a hash algorithm and the bytes it yielded, encoded with the length of the bytes.
  A list of digests is encoded with its length in bytes and the number of digests, and holds no
  algorithm twice; the length is derived and not kept.
-/
import BootGuard.Algorithm.Hash
import BootGuard.Record.Reader

namespace BootGuard

/-- The digest of something. -/
structure Digest where
  hashAlg : Int := Algorithm.null
  buffer : Bytes := []
deriving DecidableEq, Repr

/-- The digests of one thing under several algorithms. -/
structure DigestList where
  digests : List Digest := []
deriving DecidableEq, Repr

namespace Digest

/-- A digest of zeros, of the length its algorithm asks for. -/
def empty (alg : Int) : Except Error Digest :=
  (Algorithm.digestSize alg).map fun n => ⟨alg, Bytes.zeros n⟩

/-- The digest of data. -/
def ofData (alg : Int) (data : Bytes) : Except Error Digest :=
  (Algorithm.hash alg data).map fun b => ⟨alg, b⟩

def fields : List (IntField Digest) :=
  [⟨"hash_alg", 2, (·.hashAlg), fun v d => { d with hashAlg := v }⟩]

/-- The length of the encoding. -/
def size (d : Digest) : Nat := 4 + d.buffer.length

def encode (d : Digest) : Except Error Bytes := do
  let alg ← packInt 2 d.hashAlg
  let length ← packInt 2 d.buffer.length
  return alg ++ length ++ d.buffer

def read : Reader Digest := do
  let head ← Reader.take 4 .hashStructure
  let buffer ← Reader.take (Bytes.toNatLe (head.drop 2)) .hashBuffer
  return ⟨Bytes.toNatLe (head.take 2), buffer⟩

def toJson (d : Digest) : Json :=
  .obj (IntField.toMembers fields d ++ [bytesMember "buffer" d.buffer])

/-- Sets the fields that a document has. -/
def load (d : Json) : Update Digest Unit := do
  Update.loadInts fields d
  Update.loadField d "buffer" Json.toBytes fun b s => { s with buffer := b }

def ofJson (d : Json) : Except Error Digest := (load d).result {}

/-- A digest as text: the name of its algorithm and its bytes. -/
def text (d : Digest) : String := s!"Digest({Algorithm.name d.hashAlg}, {d.buffer.toHex})"

theorem consumes_read : read.Consumes 4 :=
  Reader.consumes_bind (n := 0) (Reader.consumes_take 4 _) fun _ =>
    ((Reader.consumes_bind (n := 0) (Reader.consumes_take _ _) fun _ =>
      Reader.consumes_pure _).mono (Nat.zero_le _))

end Digest

namespace DigestList

/-- The algorithms of the digests, in order. -/
def algorithms (l : DigestList) : List Int := l.digests.map (·.hashAlg)

/-- A list of digests in which no algorithm stands twice. -/
def ofDigests (digests : List Digest) : Except Error DigestList := do
  Algorithm.checkUnique (digests.map (·.hashAlg))
  return ⟨digests⟩

/-- The digest under an algorithm. -/
def get? (l : DigestList) (alg : Int) : Option Digest := l.digests.find? fun d => d.hashAlg = alg

/-- The length of the encodings of digests, one after the other. -/
def totalSize : List Digest → Nat
  | [] => 0
  | d :: ds => d.size + totalSize ds

/-- The length of the encoding. -/
def size (l : DigestList) : Nat := 4 + totalSize l.digests

/-- The encodings of digests, one after the other. -/
def encodeDigests : List Digest → Except Error Bytes
  | [] => .ok []
  | d :: ds => do
    let b ← d.encode
    let bs ← encodeDigests ds
    return b ++ bs

def encode (l : DigestList) : Except Error Bytes := do
  Algorithm.checkUnique l.algorithms
  let size ← packInt 2 l.size
  let count ← packInt 2 l.digests.length
  let body ← encodeDigests l.digests
  return size ++ count ++ body

def read : Reader DigestList := do
  let start ← Reader.position
  let head ← Reader.take 4 .digestList
  let size := Bytes.toNatLe (head.take 2)
  let count := Bytes.toNatLe (head.drop 2)
  let digests ← Reader.many Digest.read count
  let stop ← Reader.position
  if stop - start ≠ size then
    Reader.fail (.invalidManifest (.digestListSize size count))
  else
    match ofDigests digests with
    | .ok l => return l
    | .error e => Reader.fail e

def toJson (l : DigestList) : Json := .arr (l.digests.map Digest.toJson)

def ofJson (j : Json) : Except Error DigestList := do
  ofDigests (← j.mapItems Digest.ofJson)

/-- A list of digests as text. -/
def text (l : DigestList) : String :=
  "DigestList([" ++ ", ".intercalate (l.digests.map Digest.text) ++ "])"

end DigestList

end BootGuard
