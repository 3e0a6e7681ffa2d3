/-
  Setting fields of a boot policy manifest by the names of options.

  An option belongs to the header, the first boot block, its first segment, or the settings of
  the measured launch; a part that is missing is made before the value is looked at. An option
  that is null is left out, whatever its name.
-/
import BootGuard.Algorithm.Spec
import BootGuard.Json.Decimal
import BootGuard.Manifest
import BootGuard.Options.Override

namespace BootGuard.BootPolicy

/-- Makes a first boot block where there is none. -/
def ensureBlock : Update BootPolicy Unit :=
  modify fun p => if p.bootBlocks.isEmpty then { p with bootBlocks := [{}] } else p

/-- Changes the first boot block. -/
def modifyFirstBlock (f : BootBlock → BootBlock) : Update BootPolicy Unit :=
  modify fun p => { p with bootBlocks := p.bootBlocks.modifyHead f }

/-- Makes a first segment in the first boot block where there is none. -/
def ensureSegment : Update BootPolicy Unit := do
  ensureBlock
  modifyFirstBlock fun e => if e.segments.isEmpty then { e with segments := [{}] } else e

/-- Changes the first segment of the first boot block. -/
def modifyFirstSegment (f : Segment → Segment) : Update BootPolicy Unit :=
  modifyFirstBlock fun e => { e with segments := e.segments.modifyHead f }

/-- Makes settings of the measured launch where there are none. -/
def ensureSettings : Update BootPolicy Unit :=
  modify fun p => { p with trustedBoot := some (p.trustedBoot.getD {}) }

/-- What an option sets. -/
inductive Target
  | header (set : Int → PolicyHeader → PolicyHeader)
  | block (set : Int → BootBlock → BootBlock)
  | segment (set : Int → Segment → Segment)
  | settings (set : Int → TrustedBoot → TrustedBoot)

/-- The options by name. -/
def targets : List (String × Target) :=
  [("revision", .header fun v h => { h with bpmRevision := v }),
   ("svn", .header fun v h => { h with bpmSvn := v }),
   ("acmsvn", .header fun v h => { h with acmSvnAuth := v }),
   ("nems", .header fun v h => { h with nemPages := v }),
   ("pbet", .block fun v e => { e with pbetValue := v }),
   ("ibbflags", .block fun v e => { e with flags := v }),
   ("mchbar", .block fun v e => { e with mchBar := v }),
   ("vdtbar", .block fun v e => { e with vtdBar := v }),
   ("dmabase0", .block fun v e => { e with dmaProtBase0 := v }),
   ("dmasize0", .block fun v e => { e with dmaProtLimit0 := v }),
   ("dmabase1", .block fun v e => { e with dmaProtBase1 := v }),
   ("dmasize1", .block fun v e => { e with dmaProtLimit1 := v }),
   ("entrypoint", .block fun v e => { e with entryPoint := v }),
   ("ibbsegbase", .segment fun v s => { s with base := v }),
   ("ibbsegsize", .segment fun v s => { s with size := v }),
   ("ibbsegflag", .segment fun v s => { s with flags := v }),
   ("sintmin", .settings fun v t => { t with sinitMinSvnAuth := v }),
   ("txtflags", .settings fun v t => { t with controlFlags := v }),
   ("powerdowninterval", .settings fun v t => { t with pwrDownInterval := v }),
   ("acpibaseoffset", .settings fun v t => { t with acpiBaseOffset := v }),
   ("powermbaseoffset", .settings fun v t => { t with pwrmBaseOffset := v }),
   ("cmosoff0", .settings fun v t => { t with pttCmosOffset0 := v }),
   ("cmosoff1", .settings fun v t => { t with pttCmosOffset1 := v })]

/-- Makes the part that an option belongs to. -/
def Target.ensure : Target → Update BootPolicy Unit
  | header _ => pure ()
  | block _ => ensureBlock
  | segment _ => ensureSegment
  | settings _ => ensureSettings

/-- Sets the field that an option belongs to. -/
def Target.put (v : Int) : Target → Update BootPolicy Unit
  | header set => modify fun p => { p with header := set v p.header }
  | block set => modifyFirstBlock (set v)
  | segment set => modifyFirstSegment (set v)
  | settings set => modify fun p => { p with trustedBoot := p.trustedBoot.map (set v) }

/-- Gives the first boot block a list of empty digests. -/
def setDigests (l : DigestList) : Update BootPolicy Unit := do
  ensureBlock
  modifyFirstBlock fun e => { e with digestList := l }

/-- The digests of zeros under the algorithms that a document asks for. -/
def emptyDigests (value : Json) : Except Error DigestList := do
  let algs ← Algorithm.Spec.resolveAll (← Algorithm.Spec.listOfJson value)
  DigestList.ofDigests (← algs.mapM Digest.empty)

/-- The change that an option makes. -/
def overrideWith (name : String) (value : Json) : Except Error (Update BootPolicy Unit) :=
  if name = "ibbhash" then (emptyDigests value).map setDigests
  else
    match targets.lookup name with
    | none => .error (.badValue (.unknownPolicyOption name))
    | some target => .ok do
      target.ensure
      let v ← Update.ofExcept value.toWhole
      target.put v

/-- Sets the fields of some options that are known to have other names than the reserved ones. -/
def overrideAll {σ : Type} (on : Update BootPolicy Unit → Update σ Unit) :
    List (String × Json) → Update σ Unit :=
  overrideEach overrideWith on

/-- The names that cannot be options of a boot policy manifest. -/
def reservedNames : List String := ["bpm"]

/-- Sets fields by option, in order. -/
def override {σ : Type} (on : Update BootPolicy Unit → Update σ Unit)
    (options : List (String × Json)) : Update σ Unit := do
  match options.find? fun m => reservedNames.contains m.1 with
  | some m => throw (.wrongKind (.reservedOption m.1))
  | none => overrideAll on options

end BootGuard.BootPolicy
