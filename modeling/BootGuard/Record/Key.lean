/-
  Public keys and signatures as a manifest carries them.

  Both records name an algorithm and a key size in bits, and these two decide how many bytes of
  data there are. An RSA key is its exponent in four bytes and its modulus, a key on a curve
  its two coordinates; an RSA signature is one number, the others are two. All numbers have
  their lowest byte first.
-/
import BootGuard.Record.Reader

namespace BootGuard

/-- The number of bytes that `bits` bits take. -/
def bytesOfBits (bits : Int) : Int := (bits + 7) / 8

/-- A public key. -/
structure KeyDescriptor where
  keyAlg : Int := 0
  version : Int := 0x10
  keySize : Int := 0
  data : Bytes := []
deriving DecidableEq, Repr

/-- A signature. -/
structure SignatureDescriptor where
  sigScheme : Int := 0
  version : Int := 0x10
  keySize : Int := 0
  hashAlg : Int := 0
  data : Bytes := []
deriving DecidableEq, Repr

/-- A public key with the signature made with it. -/
structure KeySignature where
  version : Int := 0x10
  key : KeyDescriptor := {}
  signature : SignatureDescriptor := {}
deriving DecidableEq, Repr

namespace KeyDescriptor

def fields : List (IntField KeyDescriptor) :=
  [⟨"key_alg", 2, (·.keyAlg), fun v k => { k with keyAlg := v }⟩,
   ⟨"version", 1, (·.version), fun v k => { k with version := v }⟩,
   ⟨"key_size", 2, (·.keySize), fun v k => { k with keySize := v }⟩]

/-- The length of the data of a key. -/
def dataSize (alg bits : Int) : Except Error Int :=
  if alg = 0 ∨ alg = Algorithm.null then .ok 0
  else if alg = Algorithm.rsa then .ok (bytesOfBits bits + 4)
  else if alg = Algorithm.ecc ∨ alg = Algorithm.sm2 then .ok (2 * bytesOfBits bits)
  else .error (.invalidManifest (.unknownKeyAlgorithm alg))

/-- Whether there is a key at all. -/
def populated (k : KeyDescriptor) : Bool := k.keyAlg != 0 && k.keyAlg != Algorithm.null

def encode (k : KeyDescriptor) : Except Error Bytes := do
  let needed ← dataSize k.keyAlg k.keySize
  if (k.data.length : Int) ≠ needed then
    throw ((Error.invalidManifest
      (.keyDataLength k.keyAlg k.keySize needed k.data.length)).reporting [k.keySize, needed])
  let head ← IntField.encodeAll fields k
  return head ++ k.data

def read : Reader KeyDescriptor := do
  let k ← Reader.fields fields .key {}
  match dataSize k.keyAlg k.keySize with
  | .error e => Reader.fail e
  | .ok n => do
    let data ← Reader.take n.toNat .keyData
    return { k with data := data }

def toJson (k : KeyDescriptor) : Json :=
  .obj (IntField.toMembers fields k ++ [bytesMember "data" k.data])

/-- Sets the fields that a document has. -/
def load (d : Json) : Update KeyDescriptor Unit := do
  Update.loadInts fields d
  Update.loadField d "data" Json.toBytes fun b k => { k with data := b }

def ofJson (d : Json) : Except Error KeyDescriptor := (load d).result {}

theorem consumes_read : read.Consumes 5 := by
  refine Reader.consumes_bind (n := 0) (Reader.consumes_fields fields _ _) fun k => ?_
  split
  · exact Reader.consumes_fail _
  · exact (Reader.consumes_bind (n := 0) (Reader.consumes_take _ _) fun _ =>
      Reader.consumes_pure _).mono (Nat.zero_le _)

end KeyDescriptor

namespace SignatureDescriptor

def fields : List (IntField SignatureDescriptor) :=
  [⟨"sig_scheme", 2, (·.sigScheme), fun v s => { s with sigScheme := v }⟩,
   ⟨"version", 1, (·.version), fun v s => { s with version := v }⟩,
   ⟨"key_size", 2, (·.keySize), fun v s => { s with keySize := v }⟩,
   ⟨"hash_alg", 2, (·.hashAlg), fun v s => { s with hashAlg := v }⟩]

/-- The length of the data of a signature. -/
def dataSize (scheme bits : Int) : Except Error Int :=
  if scheme = 0 ∨ scheme = Algorithm.null then .ok 0
  else if scheme = Algorithm.rsassa ∨ scheme = Algorithm.rsapss then .ok (bytesOfBits bits)
  else if scheme = Algorithm.ecdsa ∨ scheme = Algorithm.sm2 then .ok (2 * bytesOfBits bits)
  else .error (.invalidManifest (.unknownSignatureScheme scheme))

def encode (s : SignatureDescriptor) : Except Error Bytes := do
  let needed ← dataSize s.sigScheme s.keySize
  if (s.data.length : Int) ≠ needed then
    throw ((Error.invalidManifest
      (.signatureDataLength s.sigScheme s.keySize needed s.data.length)).reporting
        [s.keySize, needed])
  let head ← IntField.encodeAll fields s
  return head ++ s.data

def read : Reader SignatureDescriptor := do
  let s ← Reader.fields fields .signature {}
  match dataSize s.sigScheme s.keySize with
  | .error e => Reader.fail e
  | .ok n => do
    let data ← Reader.take n.toNat .signatureData
    return { s with data := data }

def toJson (s : SignatureDescriptor) : Json :=
  .obj (IntField.toMembers fields s ++ [bytesMember "data" s.data])

/-- Sets the fields that a document has. -/
def load (d : Json) : Update SignatureDescriptor Unit := do
  Update.loadInts fields d
  Update.loadField d "data" Json.toBytes fun b s => { s with data := b }

def ofJson (d : Json) : Except Error SignatureDescriptor := (load d).result {}

theorem consumes_read : read.Consumes 7 := by
  refine Reader.consumes_bind (n := 0) (Reader.consumes_fields fields _ _) fun s => ?_
  split
  · exact Reader.consumes_fail _
  · exact (Reader.consumes_bind (n := 0) (Reader.consumes_take _ _) fun _ =>
      Reader.consumes_pure _).mono (Nat.zero_le _)

end SignatureDescriptor

namespace KeySignature

def fields : List (IntField KeySignature) :=
  [⟨"version", 1, (·.version), fun v k => { k with version := v }⟩]

def encode (k : KeySignature) : Except Error Bytes := do
  let version ← IntField.encodeAll fields k
  let key ← k.key.encode
  let signature ← k.signature.encode
  return version ++ key ++ signature

def read : Reader KeySignature := do
  let k ← Reader.fields fields .keySignature {}
  let key ← KeyDescriptor.read
  let signature ← SignatureDescriptor.read
  return { k with key := key, signature := signature }

def toJson (k : KeySignature) : Json :=
  .obj (IntField.toMembers fields k ++
    [("key", k.key.toJson), ("signature", k.signature.toJson)])

/-- Sets the fields that a document has. -/
def load (d : Json) : Update KeySignature Unit := do
  Update.loadInts fields d
  Update.loadField d "key" KeyDescriptor.ofJson fun key k => { k with key := key }
  Update.loadField d "signature" SignatureDescriptor.ofJson fun s k => { k with signature := s }

def ofJson (d : Json) : Except Error KeySignature := (load d).result {}

theorem consumes_read : read.Consumes 13 :=
  Reader.consumes_bind (m := 1) (n := 12) (Reader.consumes_fields fields _ _) fun _ =>
    Reader.consumes_bind (m := 5) (n := 7) KeyDescriptor.consumes_read fun _ =>
      Reader.consumes_bind (m := 7) (n := 0) SignatureDescriptor.consumes_read fun _ =>
        Reader.consumes_pure _

end KeySignature

end BootGuard
