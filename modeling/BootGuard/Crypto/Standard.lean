/-
  The operations on keys as the standards define them.
-/
import BootGuard.Crypto.Ecdsa
import BootGuard.Crypto.PointEncoding
import BootGuard.Crypto.Rsa

namespace BootGuard.Crypto

/-- RSA signatures with the deterministic padding, and ECDSA signatures with nonces derived from
the message. -/
def Primitives.standard : Primitives where
  isRsaKey := Rsa.isPublicKey
  rsaSign? := Rsa.sign?
  rsaVerify := Rsa.verify
  decodePoint? := Curve.decodePoint?
  ecdsaSign := Ecdsa.sign
  ecdsaVerify? := Ecdsa.verify?

end BootGuard.Crypto
