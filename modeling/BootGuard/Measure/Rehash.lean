/-
  Computing the digests in manifests anew.

  The digests are computed from the inside out: first those of the boot blocks over the image,
  then the boot policy manifest that contains them, then the key manifest, whose key hashes
  follow the key of the boot policy manifest. The order is that of a graph with a node for each
  of these.
-/
import BootGuard.Algorithm.Spec
import BootGuard.Measure.Content
import BootGuard.Measure.Graph

namespace BootGuard.Measure

/-- The algorithm where none is asked for. -/
def defaultAlg : Int := Algorithm.sha256

/-- The manifests to be worked on: one in the place of the boot policy manifest and one in the
place of the key manifest. -/
structure Slots where
  policy : Option Manifest := none
  keys : Option Manifest := none
deriving DecidableEq, Repr

/-- What a node computes. -/
inductive Task
  | bootBlock (index : Nat)
  | policy
  | keys
deriving DecidableEq, Repr

/-- What a node yields. -/
inductive Outcome
  /-- The digests of a boot block. -/
  | digests (l : DigestList)
  /-- The digests of a signed region by algorithm. -/
  | signed (l : List (Int × Bytes))
deriving DecidableEq, Repr

/-- Computes the digests of a boot block over an image: under the algorithms asked for, or else
under those it has. -/
def rehashBlock (image : Bytes) (algs : Option (List Int)) (e : BootBlock) :
    Except Error DigestList := do
  let wanted := algs.getD e.digestList.algorithms
  let wanted := if wanted.isEmpty then [defaultAlg] else wanted
  Algorithm.checkUnique wanted
  let content ← e.content image
  DigestList.ofDigests (← wanted.mapM fun alg => Digest.ofData alg content)

/-- The algorithms for the digests of a signed region: those asked for, or else that of the
signature. -/
def signedAlgs (algs : Option (List Int)) (m : Manifest) : List Int :=
  match algs with
  | some (alg :: rest) => alg :: rest
  | _ =>
    match m.keySignature with
    | some s =>
      if (Algorithm.hashFunction? s.signature.hashAlg).isSome then [s.signature.hashAlg]
      else [defaultAlg]
    | none => [defaultAlg]

/-- The digests of a signed region, one for each algorithm. -/
def signedDigests : List Int → Update Manifest (List (Int × Bytes))
  | [] => pure []
  | alg :: rest => do
    let d ← Manifest.signedDigest alg
    let ds ← signedDigests rest
    return (alg, d) :: ds

/-- The key of a boot policy manifest, which must be bound. -/
def policyKey (policy : Manifest) : Except Error KeyDescriptor :=
  match policy.keySignature with
  | none => .error (.invalidManifest .policyKeyUnbound)
  | some s =>
    if s.key.populated then .ok s.key else .error (.invalidManifest .policyKeyUnbound)

/-- Key hashes that follow the key of a boot policy manifest, each under its own algorithm;
stops at the first one that cannot be computed. -/
def followKey (policy : Manifest) : List KeyHash → List KeyHash × Except Error Unit
  | [] => ([], .ok ())
  | h :: hs =>
    if h.signsBootPolicy then
      match (policyKey policy).bind fun key => key.dataDigest h.digest.hashAlg with
      | .error e => (h :: hs, .error e)
      | .ok d =>
        let (rest, outcome) := followKey policy hs
        ({ h with digest := ⟨h.digest.hashAlg, d⟩ } :: rest, outcome)
    else
      let (rest, outcome) := followKey policy hs
      (h :: rest, outcome)

/-- Brings the key hashes of a key manifest up to date with the key of a boot policy
manifest. -/
def rehashKeys (policy : Manifest) : Update KeyManifest Unit := do
  let (hashes, outcome) := followKey policy (← get).body.hashes
  modify fun k => { k with body := { k.body with hashes := hashes } }
  Update.ofExcept outcome

/-- Computes the digests of the boot block at a place. -/
def runBlock (image : Bytes) (algs : Option (List Int)) (index : Nat) :
    Update BootPolicy DigestList := do
  match (← get).bootBlocks[index]? with
  | none => throw .missingPart
  | some e =>
    let l ← Update.ofExcept (rehashBlock image algs e)
    modify fun p =>
      { p with bootBlocks := p.bootBlocks.set index { e with digestList := l } }
    return l

/-- The update of the manifest in the place of the boot policy manifest. -/
def onPolicy {α : Type} (u : Update Manifest α) : Update Slots α := do
  match (← get).policy with
  | none => throw .missingPart
  | some m => Update.onPart (fun _ => m) (fun m s => { s with policy := some m }) u

/-- The update of the manifest in the place of the key manifest. -/
def onKeys {α : Type} (u : Update Manifest α) : Update Slots α := do
  match (← get).keys with
  | none => throw .missingPart
  | some m => Update.onPart (fun _ => m) (fun m s => { s with keys := some m }) u

/-- The digests of the signed region of a manifest. -/
def runSigned (algs : Option (List Int)) : Update Manifest Outcome := do
  let ds ← signedDigests (signedAlgs algs (← get))
  return .signed ds

/-- Runs a node. -/
def run (image : Option Bytes) (algs : Option (List Int)) : Task → Update Slots Outcome
  | .bootBlock index => do
    let l ← onPolicy (Manifest.onBootPolicy (runBlock (image.getD []) algs index))
    return .digests l
  | .policy => onPolicy (runSigned algs)
  | .keys => do
    if let some policy := (← get).policy then
      onKeys (Manifest.onKeyManifest (rehashKeys policy))
    onKeys (runSigned algs)

/-- The name of the node of a boot block. -/
def blockName (index : Nat) : String := s!"ibb:{index}"

/-- Adds a node for each of `count` boot blocks from `index` on. -/
def addBlocks (g : Graph Task) (index : Nat) : Nat → Except Error (Graph Task)
  | 0 => .ok g
  | count + 1 => do
    let g ← g.add (blockName index) (.bootBlock index) []
    addBlocks g (index + 1) count

/-- The graph of what is to be computed. Boot blocks are left as they are where there is no
image. -/
def graph (hasImage : Bool) (s : Slots) : Except Error (Graph Task) := do
  let blocks ←
    match s.policy, hasImage with
    | some m, true => (m.asBootPolicy).map fun p => p.bootBlocks.length
    | _, _ => pure 0
  let g ← addBlocks {} 0 blocks
  let g ←
    if s.policy.isSome then g.add "bpm" .policy ((List.range blocks).map blockName) else pure g
  if s.keys.isSome then g.add "km" .keys (if s.policy.isSome then ["bpm"] else []) else pure g

/-- Computes every digest anew: of the boot blocks where there is an image, of the boot policy
manifest and of the key manifest. -/
def rehashAll (image : Option Bytes) (algs : Option (List Algorithm.Spec)) :
    Update Slots (List (String × Outcome)) := do
  let algs ←
    match algs with
    | none => pure none
    | some specs => some <$> Update.ofExcept (Algorithm.Spec.resolveAll specs)
  let g ← Update.ofExcept (graph image.isSome (← get))
  g.walk Graph.recursionLimit (run image algs)

/-- The slots for one manifest: a key manifest goes with the boot policy manifest whose key it
names, if there is one. -/
def slotsFor (m : Manifest) (policy : Option Manifest) : Slots :=
  match m with
  | .bootPolicy _ => { policy := some m }
  | .keyManifest _ => { policy := policy, keys := some m }

/-- Computes every digest of one manifest anew. The image is for the boot blocks of a boot
policy manifest only. -/
def rehash (m : Manifest) (image : Option Bytes) (algs : Option (List Algorithm.Spec))
    (policy : Option Manifest) : Except Error (List (String × Outcome)) × Slots :=
  match m with
  | .bootPolicy _ => (rehashAll image algs).runOn (slotsFor m policy)
  | .keyManifest _ => (rehashAll none algs).runOn (slotsFor m policy)

end BootGuard.Measure
