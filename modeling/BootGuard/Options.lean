/-
  Options: what the manifests of a platform are made from.

  Options hold a boot policy manifest and a key manifest, either of which may be missing. They
  are kept as a document.
-/
import BootGuard.Json.Reader
import BootGuard.Json.Writer
import BootGuard.Manifest

namespace BootGuard

/-- The manifests to start from. -/
structure Options where
  policy : Option BootPolicy := none
  keys : Option KeyManifest := none
deriving DecidableEq, Repr

namespace Options

/-- The algorithm of the digests in the default options. -/
def defaultAlg : Int := Algorithm.sha256

/-- A digest of zeros under the default algorithm. -/
def defaultDigest : Digest := ⟨defaultAlg, Bytes.zeros 32⟩

/-- A boot policy with one boot block at the top of the flash. -/
def defaultPolicy : BootPolicy where
  header := { nemPages := 3 }
  bootBlocks :=
    [{ digestList := ⟨[defaultDigest]⟩
       segments := [{ base := 0xFFFF0000, size := 0x10000 }] }]
  trustedBoot := some {}

/-- A key manifest for one key that signs boot policies. -/
def defaultKeys : KeyManifest where
  body :=
    { pubkeyHashAlg := defaultAlg
      hashes := [{ usage := KeyHash.bootPolicyUsage, digest := defaultDigest }] }

/-- The default options. -/
def default : Options := { policy := some defaultPolicy, keys := some defaultKeys }

def toJson (o : Options) : Json :=
  .obj
    [("bpm", (o.policy.map BootPolicy.toJson).getD .null),
     ("km", (o.keys.map KeyManifest.toJson).getD .null)]

/-- The options that a document describes. -/
def ofJson (d : Json) : Except Error Options := do
  let policy ← d.part? "bpm" BootPolicy.ofJson
  let keys ← d.part? "km" KeyManifest.ofJson
  return { policy := policy, keys := keys }

/-- Options as text. -/
def text (o : Options) : String := o.toJson.render .indented

/-- The options that a text describes. -/
def ofText (s : String) : Except Error Options := do
  ofJson (← Json.parse s)

end Options

end BootGuard
