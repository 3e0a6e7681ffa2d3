/-
  Manifests made from options, and options read back from a flash image.
-/
import BootGuard.Fit.Payload
import BootGuard.Measure.Rehash
import BootGuard.Options
import BootGuard.Options.KeyOverride
import BootGuard.Options.PolicyOverride

namespace BootGuard.Options

/-- Refuses options with names that have a meaning of their own. -/
def refuseNames (reserved : List String) (names : List String) : Except Error Unit :=
  match names.find? reserved.contains with
  | some name => .error (.wrongKind (.reservedOption name))
  | none => .ok ()

/-- Options with some fields of the boot policy manifest set by name. -/
def template (overrides : List (String × Json)) : Except Error Options := do
  let policy ← (BootPolicy.override id overrides).result defaultPolicy
  return { default with policy := some policy }

/-- The boot policy manifest of options with some fields set by name, its boot blocks measured
in an image. -/
def generatePolicy (o : Options) (image : Option Bytes) (algs : Option (List Algorithm.Spec))
    (overrides : List (String × Json)) : Except Error BootPolicy := do
  refuseNames ["options", "bios", "algorithms"] (overrides.map Prod.fst)
  match o.policy with
  | none => throw (.invalidManifest .noPolicyOptions)
  | some p => do
    let p ← (BootPolicy.override id overrides).result p
    match Measure.rehash (.bootPolicy p) image algs none with
    | (.ok _, { policy := some (.bootPolicy p), .. }) => BootPolicy.assemble.result p
    | (.error e, _) => throw e
    | _ => throw .missingPart

/-- The key manifest of options with some fields set by name. It names the key of the boot
policy manifest where there is one, and its own key is bound to it. -/
def generateKeys (o : Options) (key : KeyMaterial) (policyKey : Option KeyMaterial)
    (policyHashAlg : Option Algorithm.Spec) (overrides : List (String × Json)) :
    Except Error KeyManifest := do
  refuseNames ["options", "km_public_key", "bpm_public_key", "bpm_hash_alg"]
    (overrides.map Prod.fst)
  match o.keys with
  | none => throw (.invalidManifest .noKeyManifestOptions)
  | some k => do
    refuseNames ["bpmpubkey", "bpmhashalgo"] (overrides.map Prod.fst)
    let options : KeyManifest.Overrides :=
      { policyKey := policyKey
        policyHashAlg := if policyKey.isSome then policyHashAlg else none
        fields := overrides }
    let k ← (KeyManifest.override id options).result k
    let bound ← Signing.bind k.keySignature key none
    KeyManifest.assemble.result { k with keySignature := some bound }

/-- The options that the manifests in an image stand for. There may be no key manifest. -/
def ofImage (image : Bytes) (strict : Bool) : Except Error Options := do
  let policy ← Manifest.ofBytes strict (← Fit.extract image Fit.typeBootPolicy)
  let keys ←
    match Fit.extract image Fit.typeKeyManifest with
    | .error (.tableNotFound _) => pure none
    | .error e => throw e
    | .ok b => some <$> Manifest.ofBytes false b
  let policy ← policy.asBootPolicy
  match keys with
  | none => return { policy := some policy }
  | some keys => return { policy := some policy, keys := some (← keys.asKeyManifest) }

end BootGuard.Options
