import BootGuard.Algorithm
import BootGuard.Algorithm.Hash
import BootGuard.Algorithm.Spec
import BootGuard.Bytes
import BootGuard.Bytes.Difference
import BootGuard.Bytes.Text
import BootGuard.Crypto.Block
import BootGuard.Crypto.Curve
import BootGuard.Crypto.Ecdsa
import BootGuard.Crypto.HashFunction
import BootGuard.Crypto.Modular
import BootGuard.Crypto.PointEncoding
import BootGuard.Crypto.Primitives
import BootGuard.Crypto.Rsa
import BootGuard.Crypto.Sha1
import BootGuard.Crypto.Sha256
import BootGuard.Crypto.Sha512
import BootGuard.Crypto.Sm3
import BootGuard.Crypto.Standard
import BootGuard.Element
import BootGuard.Element.BootBlock
import BootGuard.Element.Frame
import BootGuard.Element.KeyManifestBody
import BootGuard.Element.Kind
import BootGuard.Element.PolicyHeader
import BootGuard.Element.SignatureElement
import BootGuard.Element.TrustedBoot
import BootGuard.Error
import BootGuard.Fit.Address
import BootGuard.Fit.Entry
import BootGuard.Fit.EntryType
import BootGuard.Fit.FreeSpace
import BootGuard.Fit.Payload
import BootGuard.Fit.Stitch
import BootGuard.Fit.Table
import BootGuard.Json
import BootGuard.Json.Decimal
import BootGuard.Json.Reader
import BootGuard.Json.Token
import BootGuard.Json.Writer
import BootGuard.Manifest
import BootGuard.Manifest.BootPolicy
import BootGuard.Manifest.Building
import BootGuard.Manifest.Edit
import BootGuard.Manifest.KeyManifest
import BootGuard.Manifest.Reading
import BootGuard.Measure.Content
import BootGuard.Measure.Graph
import BootGuard.Measure.Rehash
import BootGuard.Options
import BootGuard.Options.Generate
import BootGuard.Options.KeyOverride
import BootGuard.Options.Override
import BootGuard.Options.PolicyOverride
import BootGuard.Record
import BootGuard.Record.Arguments
import BootGuard.Record.Digest
import BootGuard.Record.Field
import BootGuard.Record.Key
import BootGuard.Record.KeyHash
import BootGuard.Record.Reader
import BootGuard.Record.Segment
import BootGuard.Signing.Binding
import BootGuard.Signing.KeyMaking
import BootGuard.Signing.KeyMaterial
import BootGuard.Signing.Manifest
import BootGuard.Signing.Signature
import BootGuard.Text.Blank
import BootGuard.Text.Capital
import BootGuard.Text.Digit
import BootGuard.Text.Numeral
import BootGuard.Update
import BootGuard.Proofs.Codec.Cuts
import BootGuard.Proofs.Codec.DeclaredSize
import BootGuard.Proofs.Codec.Elements
import BootGuard.Proofs.Codec.Fields
import BootGuard.Proofs.Codec.Frames
import BootGuard.Proofs.Codec.Locality
import BootGuard.Proofs.Codec.Packing
import BootGuard.Proofs.Codec.Reads
import BootGuard.Proofs.Codec.Records
import BootGuard.Proofs.Codec.Refusals
import BootGuard.Proofs.Crypto.Nonce
import BootGuard.Proofs.Crypto.Rsa
import BootGuard.Proofs.Crypto.Standard
import BootGuard.Proofs.Crypto.Width
import BootGuard.Proofs.Fit.Absent
import BootGuard.Proofs.Fit.Accounting
import BootGuard.Proofs.Fit.Again
import BootGuard.Proofs.Fit.Confined
import BootGuard.Proofs.Fit.Entries
import BootGuard.Proofs.Fit.Frame
import BootGuard.Proofs.Fit.FreeSpace
import BootGuard.Proofs.Fit.Intervals
import BootGuard.Proofs.Fit.Layout
import BootGuard.Proofs.Fit.Manifests
import BootGuard.Proofs.Fit.Placement
import BootGuard.Proofs.Fit.Reading
import BootGuard.Proofs.Fit.Region
import BootGuard.Proofs.Fit.Replacement
import BootGuard.Proofs.Fit.Retrieval
import BootGuard.Proofs.Fit.Rewriting
import BootGuard.Proofs.Fit.Run
import BootGuard.Proofs.Fit.Stitch
import BootGuard.Proofs.Fit.Table
import BootGuard.Proofs.Fit.TypeOrder
import BootGuard.Proofs.Json.Description
import BootGuard.Proofs.Json.Elements
import BootGuard.Proofs.Json.Records
import BootGuard.Proofs.Json.RoundTrip
import BootGuard.Proofs.Json.Text
import BootGuard.Proofs.Manifest.Arrangement
import BootGuard.Proofs.Manifest.BootPolicy
import BootGuard.Proofs.Manifest.Building
import BootGuard.Proofs.Manifest.KeyManifest
import BootGuard.Proofs.Manifest.Offsets
import BootGuard.Proofs.Manifest.Oversize
import BootGuard.Proofs.Manifest.Refusals
import BootGuard.Proofs.Manifest.RoundTrip
import BootGuard.Proofs.Manifest.SignedRegion
import BootGuard.Proofs.Manifest.Truncation
import BootGuard.Proofs.Measure.Content
import BootGuard.Proofs.Measure.Graph
import BootGuard.Proofs.Measure.Order
import BootGuard.Proofs.Measure.Protection
import BootGuard.Proofs.Measure.Rehash
import BootGuard.Proofs.Measure.Renewal
import BootGuard.Proofs.Measure.Steps
import BootGuard.Proofs.Options.Commitment
import BootGuard.Proofs.Options.Effect
import BootGuard.Proofs.Options.Generate
import BootGuard.Proofs.Options.Order
import BootGuard.Proofs.Options.Overrides
import BootGuard.Proofs.Options.Provision
import BootGuard.Proofs.Options.Text
import BootGuard.Proofs.Options.Validity
import BootGuard.Proofs.Outcome
import BootGuard.Proofs.Signing.BoundKey
import BootGuard.Proofs.Signing.Failure
import BootGuard.Proofs.Signing.Manifest
import BootGuard.Proofs.Signing.Signature
import BootGuard.Proofs.Signing.Verdict
import BootGuard.Proofs.Signing.Verifiable
import BootGuard.Proofs.Text.Hexadecimal
