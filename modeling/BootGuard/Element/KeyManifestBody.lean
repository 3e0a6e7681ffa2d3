/-
  The body of a key manifest: everything in front of its key signature.

  The encoded body carries its own length, which is the offset of the key signature. The
  length follows from the key hashes, so it is no field of the body: `encode` writes it and
  `read` yields what was found.
-/
import BootGuard.Element.Frame
import BootGuard.Record.KeyHash

namespace BootGuard

/-- The body of a key manifest. -/
structure KeyManifestBody where
  structVer : Int := 0x21
  var0 : Int := 0
  rsvdSize : Int := 0
  revision : Int := 0
  kmSvn : Int := 0
  kmId : Int := 0
  pubkeyHashAlg : Int := Algorithm.sha256
  rsvd2 : Bytes := Bytes.zeros 3
  hashes : List KeyHash := []
deriving DecidableEq, Repr

namespace KeyManifestBody

def headFields : List (IntField KeyManifestBody) :=
  [⟨"struct_ver", 1, (·.structVer), fun v b => { b with structVer := v }⟩,
   ⟨"var0", 1, (·.var0), fun v b => { b with var0 := v }⟩,
   ⟨"rsvd_size", 2, (·.rsvdSize), fun v b => { b with rsvdSize := v }⟩]

def bodyFields : List (IntField KeyManifestBody) :=
  [⟨"revision", 1, (·.revision), fun v b => { b with revision := v }⟩,
   ⟨"km_svn", 1, (·.kmSvn), fun v b => { b with kmSvn := v }⟩,
   ⟨"km_id", 1, (·.kmId), fun v b => { b with kmId := v }⟩,
   ⟨"pubkey_hash_alg", 2, (·.pubkeyHashAlg), fun v b => { b with pubkeyHashAlg := v }⟩]

def fields : List (IntField KeyManifestBody) := headFields ++ bodyFields

/-- The length of the fixed part of the body, behind the head. -/
def fixedSize : Nat := 12

/-- Three reserved bytes: shorter ones are filled with zeros, longer ones cut off. -/
def reserved (b : Bytes) : Bytes := b.take 3 ++ Bytes.zeros (3 - b.length)

/-- The length of the encoded body whose key hashes take `hashesLength` bytes. -/
def offsetFor (hashesLength : Nat) : Nat := Frame.headSize + fixedSize + hashesLength

/-- The encoded body around its encoded key hashes. -/
def encodeWith (b : KeyManifestBody) (hashes : Bytes) : Except Error Bytes := do
  let offset ← packInt 2 (offsetFor hashes.length)
  let body ← IntField.encodeAll bodyFields b
  let count ← packInt 2 b.hashes.length
  Frame.encode .keyManifest b.structVer b.var0 b.rsvdSize
    (offset ++ reserved b.rsvd2 ++ body ++ count ++ hashes)

def encode (b : KeyManifestBody) : Except Error Bytes := do
  let hashes ← KeyHash.encodeAll b.hashes
  encodeWith b hashes

def read : Reader (KeyManifestBody × Nat) := do
  let head ← Frame.readHead .keyManifest
  let b ← Reader.take fixedSize .keyManifest
  let hashes ← Reader.many KeyHash.read (Bytes.toNatLe (b.drop 10))
  let base : KeyManifestBody :=
    { structVer := head.structVer
      var0 := head.var0
      rsvdSize := head.size
      rsvd2 := (b.drop 2).take 3
      hashes := hashes }
  return (IntField.decodeAll bodyFields (b.drop 5) base, Bytes.toNatLe (b.take 2))

def toJson (b : KeyManifestBody) : Json :=
  .obj (IntField.toMembers fields b ++
    [bytesMember "rsvd2" b.rsvd2, ("hashes", .arr (b.hashes.map KeyHash.toJson))])

/-- Sets the fields that a document has. -/
def load (d : Json) : Update KeyManifestBody Unit := do
  Update.loadInts fields d
  Update.loadField d "rsvd2" Json.toBytes fun v b => { b with rsvd2 := v }
  Update.loadField d "hashes" (Json.mapItems KeyHash.ofJson) fun l b => { b with hashes := l }

def ofJson (d : Json) : Except Error KeyManifestBody := (load d).result {}

theorem consumes_read : read.Consumes 24 :=
  Reader.consumes_bind (m := 12) (n := 12) (Frame.consumes_readHead _) fun _ =>
    Reader.consumes_bind (m := 12) (n := 0) (Reader.consumes_take _ _) fun _ =>
      Reader.consumes_bind (m := 0) (n := 0)
        (Reader.consumes_many (KeyHash.consumes_read.mono (Nat.zero_le _)) _) fun _ =>
        Reader.consumes_pure _

end KeyManifestBody

end BootGuard
