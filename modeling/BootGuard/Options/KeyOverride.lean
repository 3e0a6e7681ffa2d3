/-
  Setting fields of a key manifest by the names of options.

  Besides the fields there are the key hashes as a whole, and the key that signs the boot
  policy manifest: with it the manifest gets the hash of that key, and with a hash algorithm
  alone the hashes of such keys become empty ones of that algorithm.
-/
import BootGuard.Json.Decimal
import BootGuard.Measure.Content
import BootGuard.Options.Override
import BootGuard.Signing.Binding

namespace BootGuard.KeyManifest

/-- Options of a key manifest. -/
structure Overrides where
  /-- The key that signs the boot policy manifest. -/
  policyKey : Option KeyMaterial := none
  /-- The algorithm of the hash of that key. -/
  policyHashAlg : Option Algorithm.Spec := none
  /-- The other options in order. -/
  fields : List (String × Json) := []

/-- The algorithm of the hash of a boot policy key where none is asked for. -/
def defaultPolicyHashAlg : Int := Algorithm.sha256

/-- The fields that options set. -/
def targets : List (String × (Int → KeyManifestBody → KeyManifestBody)) :=
  [("revision", fun v b => { b with revision := v }),
   ("svn", fun v b => { b with kmSvn := v }),
   ("id", fun v b => { b with kmId := v }),
   ("pkhashalg", fun v b => { b with pubkeyHashAlg := v })]

/-- Changes the body. -/
def modifyBody (f : KeyManifestBody → KeyManifestBody) : Update KeyManifest Unit :=
  modify fun k => { k with body := f k.body }

/-- The change that an option makes. A key hash is given as its document, also where it is at hand
as a record: the record is read back from it. -/
def overrideWith (name : String) (value : Json) : Except Error (Update KeyManifest Unit) :=
  match targets.lookup name with
  | some set => do
    let v ← if name = "pkhashalg" then (Algorithm.Spec.ofJson value).resolve else value.toWhole
    return modifyBody (set v)
  | none =>
    if name = "kmhashes" then do
      let hashes ← value.mapItems KeyHash.ofJson
      return modifyBody fun b => { b with hashes := hashes }
    else .error (.badValue (.unknownKeyManifestOption name))

/-- Sets the fields of some options that are known to have other names than the reserved ones. -/
def overrideAll {σ : Type} (on : Update KeyManifest Unit → Update σ Unit) :
    List (String × Json) → Update σ Unit :=
  overrideEach overrideWith on

/-- Puts the hash of a boot policy key first, in the place of those of the same algorithm. -/
def commitTo (alg : Int) (digest : Bytes) (hashes : List KeyHash) : List KeyHash :=
  { usage := KeyHash.bootPolicyUsage, digest := ⟨alg, digest⟩ } ::
    hashes.filter fun h => !(h.usage == KeyHash.bootPolicyUsage && h.digest.hashAlg == alg)

/-- Makes the hashes of boot policy keys empty ones of an algorithm. -/
def clearHashes (alg : Int) (hashes : List KeyHash) : Except Error (List KeyHash) :=
  hashes.mapM fun h =>
    if h.signsBootPolicy then (Digest.empty alg).map fun d => { h with digest := d }
    else .ok h

/-- The change that a boot policy key and a hash algorithm make. -/
def overridePolicyKey (key : Option KeyMaterial) (alg : Option Int) :
    Except Error (Option (Update KeyManifest Unit)) :=
  match key, alg with
  | some key, alg => do
    let alg := alg.getD defaultPolicyHashAlg
    let descriptor ← key.describe
    let digest ← descriptor.dataDigest alg
    return some (modifyBody fun b => { b with hashes := commitTo alg digest b.hashes })
  | none, some alg => .ok <| some do
    let hashes ← Update.ofExcept (clearHashes alg (← get).body.hashes)
    modifyBody fun b => { b with hashes := hashes }
  | none, none => .ok none

/-- The names that cannot be options of a key manifest. -/
def reservedNames : List String := ["km"]

/-- Sets fields by option, in order, and then the hash of the boot policy key. -/
def override {σ : Type} (on : Update KeyManifest Unit → Update σ Unit) (options : Overrides) :
    Update σ Unit := do
  if let some m := options.fields.find? fun m => reservedNames.contains m.1 then
    throw (.wrongKind (.reservedOption m.1))
  let alg ←
    match options.policyHashAlg with
    | none => pure none
    | some spec => some <$> Update.ofExcept spec.resolve
  overrideAll on options.fields
  if let some change ← Update.ofExcept (overridePolicyKey options.policyKey alg) then
    on change

end BootGuard.KeyManifest
