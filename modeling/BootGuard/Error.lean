/-
  What can go wrong, by cause.

  `Error` has one constructor per family of failures. The first ten families are this
  library's own and always have a message; the others are failures of a value that was handed
  in, most of them without one. `Error.message` is the one place that holds their wording.
-/
import BootGuard.Algorithm
import BootGuard.Bytes.Text
import BootGuard.Element.Kind
import BootGuard.Fit.EntryType

namespace BootGuard

open Text (hexText)

/-- The part of an encoding that a decoder was reading. -/
inductive Part
  | structureId
  | structureInfo
  | hashStructure
  | hashBuffer
  | digestList
  | segment
  | key
  | keyData
  | signature
  | signatureData
  | keySignature
  | keyHash
  | policyHeader
  | bootBlock
  | bootBlockEntryPoint
  | bootBlockReserved
  | bootBlockSegmentCount
  | trustedBoot
  | trustedBootReserved
  | trustedBootSegmentCount
  | keyManifest
deriving DecidableEq, Repr

/-- The name of a part. -/
def Part.name : Part → String
  | structureId => "structure ID"
  | structureInfo => "structure info"
  | hashStructure => "hash structure"
  | hashBuffer => "hash buffer"
  | digestList => "digest list"
  | segment => "IBB segment"
  | key => "key"
  | keyData => "key data"
  | signature => "signature"
  | signatureData => "signature data"
  | keySignature => "key signature"
  | keyHash => "key hash"
  | policyHeader => "BPM header"
  | bootBlock => "IBB element"
  | bootBlockEntryPoint => "IBB entry point"
  | bootBlockReserved => "IBB reserved"
  | bootBlockSegmentCount => "IBB segment count"
  | trustedBoot => "TXT element"
  | trustedBootReserved => "TXT reserved"
  | trustedBootSegmentCount => "TXT segment count"
  | keyManifest => "Key Manifest"

/-- The input ends too early. -/
inductive Truncation
  | shortage (part : Part) (needed : Nat) (offset : Int) (left : Nat)
  | declared (kind : ElementKind) (size : Nat) (offset : Int) (left : Nat)
  | acmHeader (given : Nat)
deriving DecidableEq, Repr

def Truncation.message : Truncation → String
  | shortage part needed offset left =>
    s!"{part.name} needs {needed} bytes at offset {hexText offset}, {left} left"
  | declared kind size offset left =>
    s!"{kind.tag} declares {size} bytes at offset {hexText offset}, {left} left"
  | acmHeader given => s!"ACM header needs 28 bytes, {given} given"

/-- A structure ID that nothing is known about. -/
inductive UnsupportedElement
  | atOffset (id : Bytes) (offset : Int)
  | asManifest (id : Bytes)
deriving DecidableEq, Repr

def UnsupportedElement.message : UnsupportedElement → String
  | atOffset id offset => s!"unknown structure ID {id.quoted} at offset {hexText offset}"
  | asManifest id => s!"unknown manifest structure ID {id.quoted}"

/-- A manifest, an element or a record that breaks a structural rule. -/
inductive InvalidManifest
  | unexpectedId (expected : ElementKind) (offset : Int) (found : Bytes)
  | impossibleSize (kind : ElementKind) (size : Nat)
  | overrun (kind : ElementKind) (cause : Truncation)
  | sizeMismatch (kind : ElementKind)
  | oversizedElement (kind : ElementKind) (size : Int)
  | digestListSize (size count : Nat)
  | unknownKeyAlgorithm (alg : Int)
  | keyDataLength (alg bits needed : Int) (given : Nat)
  | unknownSignatureScheme (scheme : Int)
  | signatureDataLength (scheme bits needed : Int) (given : Nat)
  | noSegments
  | zeroSegmentCount
  | zeroStack
  | noBootBlock
  | noStartupBlock
  | blockWithoutSegments (index : Nat)
  | policyTooLarge (offset : Nat)
  | keyManifestTooLarge (offset : Nat)
  | severalKeySignatures (count : Nat)
  | notHeader (typeName : String)
  | severalTrustedBoot
  | severalSignatures
  | foreignElement (typeName : String)
  | signatureNeeded
  | afterSignature (count : Nat)
  | blockAfterTrustedBoot (offset : Int)
  | trustedBootAgain (offset : Int)
  | strayElement (kind : ElementKind) (offset : Int)
  | signatureMissing
  | policyOffset (stored expected : Nat)
  | keyManifestOffset (stored expected : Nat)
  | afterKeySignature (count : Nat)
  | headless (id : Bytes)
  | keyUnbound
  | noKeySignature
  | policyKeyUnbound
  | notAcm (moduleType vendor : Nat)
  | notBootPolicy
  | noPolicyOptions
  | noKeyManifestOptions
deriving DecidableEq, Repr

def InvalidManifest.message : InvalidManifest → String
  | unexpectedId expected offset found =>
    s!"expect {expected.id.quoted} at offset {hexText offset}, found {found.quoted}"
  | impossibleSize kind size => s!"{kind.tag} declares impossible size {size}"
  | overrun kind cause => s!"{kind.tag} content overruns its declared size: {cause.message}"
  | sizeMismatch kind => s!"{kind.tag} element size mismatch"
  | oversizedElement kind size => s!"{kind.tag} element of {size} bytes is too large"
  | digestListSize size count =>
    s!"digest list size {size} does not match its {count} entries"
  | unknownKeyAlgorithm alg => s!"unknown key algorithm {hexText alg}"
  | keyDataLength alg bits needed given =>
    s!"{Algorithm.name alg} key of {bits} bits needs {needed} bytes of data, has {given}"
  | unknownSignatureScheme scheme => s!"unknown signature scheme {hexText scheme}"
  | signatureDataLength scheme bits needed given =>
    s!"{Algorithm.name scheme} signature of {bits} bits needs {needed} bytes, has {given}"
  | noSegments => "IBB element needs at least one segment"
  | zeroSegmentCount => "IBB element without segments"
  | zeroStack => "NEM data stack size must not be zero"
  | noBootBlock => "BPM needs at least one IBB element"
  | noStartupBlock => "BPM has no startup IBB element (set type 0)"
  | blockWithoutSegments index => s!"IBB element #{index} has no segments"
  | policyTooLarge offset => s!"BPM too large, key signature at {hexText offset}"
  | keyManifestTooLarge offset => s!"KM too large, key signature at {hexText offset}"
  | severalKeySignatures count => s!"KM takes one key signature, got {count} elements"
  | notHeader typeName => s!"{typeName} is not a manifest header"
  | severalTrustedBoot => "BPM takes at most one TXT element"
  | severalSignatures => "BPM takes exactly one signature element"
  | foreignElement typeName => s!"{typeName} does not belong in a BPM"
  | signatureNeeded => "BPM needs a signature element"
  | afterSignature count => s!"{count} bytes after the signature element"
  | blockAfterTrustedBoot offset => s!"IBB element at {hexText offset} after TXT element"
  | trustedBootAgain offset => s!"second TXT element at {hexText offset}"
  | strayElement kind offset => s!"{kind.tag} element at {hexText offset} inside BPM"
  | signatureMissing => "BPM has no signature element"
  | policyOffset stored expected =>
    s!"BPM key signature offset {hexText stored}, expect {hexText expected}"
  | keyManifestOffset stored expected =>
    s!"KM key signature offset {hexText stored}, expect {hexText expected}"
  | afterKeySignature count => s!"{count} bytes after KM key signature"
  | headless id => s!"manifest starts with {id.quoted} instead of a header"
  | keyUnbound => "key is not bound, nothing to hash"
  | noKeySignature => "KM has no key signature"
  | policyKeyUnbound => "KM commits to the BPM key, but the BPM key is not bound"
  | notAcm moduleType vendor =>
    s!"not an ACM: module type {hexText moduleType}, vendor {hexText vendor}"
  | notBootPolicy => "BPM payload is not a Boot Policy Manifest"
  | noPolicyOptions => "options carry no BPM"
  | noKeyManifestOptions => "options carry no KM"

/-- The same algorithm twice where it may stand once. -/
inductive DuplicateAlgorithm
  | requested (alg : Int)
  | keyHash (alg usage : Int)
deriving DecidableEq, Repr

def DuplicateAlgorithm.message : DuplicateAlgorithm → String
  | requested alg => s!"duplicate algorithm {Algorithm.name alg}"
  | keyHash alg usage => s!"KM has two {hexText alg} hashes for usage {hexText usage}"

/-- An algorithm that cannot be computed. -/
inductive UnsupportedAlgorithm
  | hash (alg : Int)
  | curve (name : String)
  | rsaSigning (alg : Int)
  | ecdsaSigning (alg : Int)
  | verification (alg : Int)
deriving DecidableEq, Repr

def UnsupportedAlgorithm.message : UnsupportedAlgorithm → String
  | hash alg => s!"unsupported hash algorithm {Algorithm.name alg}"
  | curve name => s!"unsupported curve {name}"
  | rsaSigning alg => s!"RSA signing with {Algorithm.name alg}"
  | ecdsaSigning alg => s!"ECDSA signing with {Algorithm.name alg}"
  | verification alg => s!"cannot verify {Algorithm.name alg} key"

/-- A key that is not the one asked for. -/
inductive KeyMismatch
  | privateKind (name : String)
  | publicKind (name : String)
  | descriptor
  | publicKey
deriving DecidableEq, Repr

def KeyMismatch.message : KeyMismatch → String
  | privateKind name => s!"unsupported private key type {name}"
  | publicKind name => s!"unsupported public key type {name}"
  | descriptor => "signing key does not match the bound key algorithm or size"
  | publicKey => "signing key does not match the bound public key"

/-- A place outside of a buffer. -/
inductive OffsetOutOfRange
  | address (address imageSize : Int)
  | segment (base size imageSize : Int)
  | payload (entryType offset size : Int)
  | region (entryType offset size : Int)
  | signedRegion (stop : Int) (length : Nat)
deriving DecidableEq, Repr

def OffsetOutOfRange.message : OffsetOutOfRange → String
  | address a n => s!"address {hexText a} is outside the {hexText n} bytes image"
  | segment base size n =>
    s!"IBB segment {hexText base}+{hexText size} runs past the {hexText n} bytes image"
  | payload t offset size =>
    s!"{Fit.typeName t} at {hexText offset} with size {hexText size} does not fit the image"
  | region t offset size =>
    s!"{Fit.typeName t} region {hexText offset}+{hexText size} outside the image"
  | signedRegion stop length =>
    s!"signed region end {hexText stop} outside {length} bytes"

/-- No usable firmware interface table, or no entry of a type in it. -/
inductive TableNotFound
  | noPointer (imageSize : Nat)
  | pointerNotFlash (address : Nat)
  | pointerOutside (address : Nat)
  | noHeader (offset : Nat)
  | entryCount (offset : Int) (count : Nat)
  | noEntry (entryType : Int)
deriving DecidableEq, Repr

def TableNotFound.message : TableNotFound → String
  | noPointer n => s!"image of {n} bytes has no FIT pointer"
  | pointerNotFlash a => s!"FIT pointer {hexText a} is not a flash address"
  | pointerOutside a => s!"FIT pointer {hexText a} outside the image"
  | noHeader offset => s!"no FIT header at offset {hexText offset}"
  | entryCount offset count => s!"FIT at {hexText offset} declares {count} entries"
  | noEntry t => s!"no {Fit.typeName t} entry in FIT"

/-- Nowhere to put a payload or a table entry. -/
inductive InsufficientSpace
  | region (size align : Nat)
  | table (count offset : Nat)
deriving DecidableEq, Repr

def InsufficientSpace.message : InsufficientSpace → String
  | region size align =>
    s!"no free {hexText size} bytes region aligned to {hexText align}"
  | table count offset => s!"no room for {count} more FIT entries at {hexText offset}"

/-- A value of the right kind that cannot be used. -/
inductive BadValue
  | numeral
  | hexadecimal
  | notANumber
  | rsaKey
  | secret
  | digestTooLong
  | unknownPolicyOption (name : String)
  | unknownKeyManifestOption (name : String)
  | duplicateNode (name : String)
  | dependencyCycle (name : String)
  | unknownDependency (name : String)
deriving DecidableEq, Repr

def BadValue.message : BadValue → Option String
  | numeral | hexadecimal | notANumber | rsaKey | secret | digestTooLong => none
  | unknownPolicyOption name => some s!"unknown BPM option '{name}'"
  | unknownKeyManifestOption name => some s!"unknown KM option '{name}'"
  | duplicateNode name => some s!"node '{name}' already in graph"
  | dependencyCycle name => some s!"dependency cycle through '{name}'"
  | unknownDependency name => some s!"unknown dependency '{name}'"

/-- A value of the wrong kind. -/
inductive WrongKind
  | value
  | reservedOption (name : String)
  /-- The neutral point of a curve, where coordinates are needed. -/
  | neutralPoint
  | bootBlockField (name : String)
  | trustedBootField (name : String)
  | notManifest (typeName : String)
deriving DecidableEq, Repr

def WrongKind.message : WrongKind → Option String
  | value | reservedOption _ | neutralPoint => none
  | bootBlockField name => some s!"unexpected IBB element field '{name}'"
  | trustedBootField name => some s!"unexpected TXT element field '{name}'"
  | notManifest typeName => some s!"{typeName} is not a manifest"

/-- A failure, by family. -/
inductive Error
  | truncated (cause : Truncation)
  | unsupportedElement (cause : UnsupportedElement)
  | invalidManifest (cause : InvalidManifest)
  | duplicateAlgorithm (cause : DuplicateAlgorithm)
  | unsupportedAlgorithm (cause : UnsupportedAlgorithm)
  | keyMismatch (cause : KeyMismatch)
  | offsetOutOfRange (cause : OffsetOutOfRange)
  | noPayload
  | tableNotFound (cause : TableNotFound)
  | insufficientSpace (cause : InsufficientSpace)
  /-- A number does not fit its field, or a field lies outside of its buffer. -/
  | fieldRange
  | badValue (cause : BadValue)
  | wrongKind (cause : WrongKind)
  /-- A value lacks the part asked for. -/
  | missingPart
  /-- A number is too large to be converted. -/
  | overflow
  /-- Key data is not a point of its curve. -/
  | malformedPoint
  /-- A text is not a JSON document. -/
  | malformedJson
  /-- A search would have to go deeper than it may. -/
  | tooDeep
deriving DecidableEq, Repr

namespace Error

/-- The message of a failure, where there is one. -/
def message : Error → Option String
  | truncated cause => some cause.message
  | unsupportedElement cause => some cause.message
  | invalidManifest cause => some cause.message
  | duplicateAlgorithm cause => some cause.message
  | unsupportedAlgorithm cause => some cause.message
  | keyMismatch cause => some cause.message
  | offsetOutOfRange cause => some cause.message
  | noPayload => some "at least one of ACM, KM or BPM is required"
  | tableNotFound cause => some cause.message
  | insufficientSpace cause => some cause.message
  | badValue cause => cause.message
  | wrongKind cause => cause.message
  | fieldRange | missingPart | overflow | malformedPoint | malformedJson | tooDeep => none

/-- A failure whose report states some numbers in decimal. That a number has too many digits to
be written is a failure of its own, which comes first. -/
def reporting (numbers : List Int) (e : Error) : Error :=
  if numbers.all Text.isWritable then e else badValue .numeral

/-- Whether the failure is of one of the families that are this library's own. -/
def isOwn : Error → Bool
  | truncated _ | unsupportedElement _ | invalidManifest _ | duplicateAlgorithm _
  | unsupportedAlgorithm _ | keyMismatch _ | offsetOutOfRange _ | noPayload
  | tableNotFound _ | insufficientSpace _ => true
  | _ => false

end Error

end BootGuard
