/-
  ECDSA with nonces derived from the message.

  The nonces come from a generator that is keyed with the secret and the digest of the message.
  The signature is made with the first nonce that is in range and yields two numbers other than
  zero; a digest longer than the order counts with its highest bits.
-/
import BootGuard.Crypto.Curve
import BootGuard.Crypto.HashFunction

namespace BootGuard.Crypto.Ecdsa

/-- The state of the nonce generator. -/
structure Generator where
  key : Bytes
  value : Bytes
deriving DecidableEq, Repr

/-- The digest of a message as a number. -/
def digestNumber (c : Curve) (digest : Bytes) : Nat := highBits (bitLength c.order) digest

/-- Mixes a byte and some data into a generator. -/
def Generator.mix (f : HashFunction) (g : Generator) (mark : UInt8) (data : Bytes) : Generator :=
  let key := f.keyedHash g.key (g.value ++ mark :: data)
  ⟨key, f.keyedHash key g.value⟩

/-- The generator for a secret and a digest. -/
def Generator.start (f : HashFunction) (c : Curve) (secret : Nat) (digest : Bytes) : Generator :=
  let seed := Bytes.ofNatBe c.orderSize secret ++
    Bytes.ofNatBe c.orderSize (digestNumber c digest % c.order)
  let g : Generator := ⟨Bytes.zeros f.digestSize, List.replicate f.digestSize 0x01⟩
  (g.mix f 0x00 seed).mix f 0x01 seed

/-- The next `count` blocks of a generator, and its value behind them. -/
def Generator.blocks (f : HashFunction) (key : Bytes) : Nat → Bytes → Bytes × Bytes
  | 0, value => ([], value)
  | count + 1, value =>
    let v := f.keyedHash key value
    let (rest, last) := blocks f key count v
    (v ++ rest, last)

/-- The next candidate for a nonce, and the generator behind it. -/
def Generator.next (f : HashFunction) (c : Curve) (g : Generator) : Nat × Generator :=
  let count := (c.orderSize + f.digestSize - 1) / f.digestSize
  let (t, value) := Generator.blocks f g.key count g.value
  (highBits (bitLength c.order) t, Generator.mix f ⟨g.key, value⟩ 0x00 [])

/-- The signature of a digest number with a given nonce. -/
def signWith? (c : Curve) (secret e nonce : Nat) : Option (Nat × Nat) :=
  if nonce = 0 ∨ c.order ≤ nonce then none
  else
    match c.coordinates? (c.multiply c.base nonce) with
    | none => none
    | some (x, _) =>
      let r := x % c.order
      let s := inverseMod c.order nonce * ((e + secret * r) % c.order) % c.order
      if r = 0 ∨ s = 0 then none else some (r, s)

/-- The signature with the first usable candidate among `tries`. -/
def signFrom? (f : HashFunction) (c : Curve) (secret e : Nat) :
    (tries : Nat) → Generator → Option (Nat × Nat)
  | 0, _ => none
  | tries + 1, g =>
    let (nonce, g') := g.next f c
    match signWith? c secret e nonce with
    | some rs => some rs
    | none => signFrom? f c secret e tries g'

theorem signFrom?_succ (f : HashFunction) (c : Curve) (secret e tries : Nat) (g : Generator) :
    signFrom? f c secret e (tries + 1) g = (signWith? c secret e (g.next f c).1).or
      (signFrom? f c secret e tries (g.next f c).2) := by
  simp only [signFrom?]
  cases signWith? c secret e (g.next f c).1 <;> rfl

/-- The number of states of a generator: its key and its value are as long as a digest. -/
def stateCount (f : HashFunction) : Nat := Bytes.valueCount (2 * f.digestSize)

/-- The signature of a message. All but one candidate in 2 ^ 32 are usable. A search that goes
through all states without finding one of these has no end, and two zeros stand for its result. -/
def sign (f : HashFunction) (c : Curve) (secret : Nat) (message : Bytes) : Nat × Nat :=
  let digest := f.hash message
  (signFrom? f c secret (digestNumber c digest) (stateCount f)
    (.start f c secret digest)).getD (0, 0)

/-- Whether two numbers are a signature of a message under the key with the given
coordinates. There is no answer where the point to compare with is the neutral one. -/
def verify? (f : HashFunction) (c : Curve) (x y : Nat) (message : Bytes) (r s : Nat) :
    Option Bool :=
  if r = 0 ∨ c.order ≤ r ∨ s = 0 ∨ c.order ≤ s then some false
  else
    let e := digestNumber c (f.hash message)
    let w := inverseMod c.order s
    let sum := c.add (c.multiply c.base (e * w % c.order)) (c.multiply ⟨x, y, 1⟩ (r * w % c.order))
    (c.coordinates? sum).map fun v => v.1 % c.order == r

end BootGuard.Crypto.Ecdsa
