/-
  Key hashes: what a key manifest says about another key, and for which uses.
-/
import BootGuard.Record.Digest

namespace BootGuard

/-- The digest of a key, with the uses the key is good for as bits. -/
structure KeyHash where
  usage : Int := 0
  digest : Digest := {}
deriving DecidableEq, Repr

namespace KeyHash

/-- The usage of a key that signs boot policy manifests and nothing else. -/
def bootPolicyUsage : Int := 1

def fields : List (IntField KeyHash) :=
  [⟨"usage", 8, (·.usage), fun v k => { k with usage := v }⟩]

/-- Whether the key may sign boot policy manifests: the lowest bit of its usage is set. -/
def signsBootPolicy (k : KeyHash) : Bool := k.usage % 2 == 1

def encode (k : KeyHash) : Except Error Bytes := do
  let usage ← IntField.encodeAll fields k
  let digest ← k.digest.encode
  return usage ++ digest

def read : Reader KeyHash := do
  let k ← Reader.fields fields .keyHash {}
  let digest ← Digest.read
  return { k with digest := digest }

/-- The encodings of key hashes, one after the other. -/
def encodeAll : List KeyHash → Except Error Bytes
  | [] => .ok []
  | k :: ks => do
    let b ← k.encode
    let bs ← encodeAll ks
    return b ++ bs

def toJson (k : KeyHash) : Json :=
  .obj (IntField.toMembers fields k ++ [("digest", k.digest.toJson)])

/-- Sets the fields that a document has. -/
def load (d : Json) : Update KeyHash Unit := do
  Update.loadInts fields d
  Update.loadField d "digest" Digest.ofJson fun digest k => { k with digest := digest }

def ofJson (d : Json) : Except Error KeyHash := (load d).result {}

theorem consumes_read : read.Consumes 12 :=
  Reader.consumes_bind (m := 8) (n := 4) (Reader.consumes_fields fields _ _) fun _ =>
    Reader.consumes_bind (m := 4) (n := 0) Digest.consumes_read fun _ =>
      Reader.consumes_pure _

end KeyHash

end BootGuard
