/-
  The operations as the standards define them are lawful.
-/
import BootGuard.Crypto.Standard
import BootGuard.Proofs.Crypto.Width

namespace BootGuard.Crypto

theorem Rsa.length_sign? {f : HashFunction} {n d : Nat} {message s : Bytes}
    (h : sign? f n d message = some s) : s.length = modulusSize n := by
  obtain ⟨em, _, rfl⟩ := Option.map_eq_some_iff.1 h
  exact Bytes.length_ofNatBe _ _

/-- Two coordinates that stand one after the other are those of a point of the curve or of none. -/
theorem Curve.decodePoint?_append {c : Curve} {x y : Bytes} (hx : x.length = c.fieldSize)
    (hy : y.length = c.fieldSize) : c.decodePoint? (x ++ y) =
      if c.contains x.toNatBe y.toNatBe then some (.whole x.toNatBe y.toNatBe) else none := by
  have hlen : (x ++ y).length = 2 * c.fieldSize := by
    rw [List.length_append]
    omega
  unfold decodePoint?
  dsimp only
  rw [if_pos hlen, pointOfCoordinates?, List.take_left' hx, List.drop_left' hx]

namespace Ecdsa

theorem signWith?_lt {c : Curve} {secret e nonce : Nat} {rs : Nat × Nat} (hc : 0 < c.order)
    (h : signWith? c secret e nonce = some rs) : rs.1 < c.order ∧ rs.2 < c.order := by
  unfold signWith? at h
  split at h
  · cases h
  · split at h
    · cases h
    · dsimp only at h
      split at h
      · cases h
      · cases h
        exact ⟨Nat.mod_lt _ hc, Nat.mod_lt _ hc⟩

/-- What a search finds is a candidate that is usable. -/
theorem signFrom?_lt {f : HashFunction} {c : Curve} {secret e tries : Nat} {g : Generator}
    {rs : Nat × Nat} (hc : 0 < c.order) (h : signFrom? f c secret e tries g = some rs) :
    rs.1 < c.order ∧ rs.2 < c.order := by
  induction tries generalizing g with
  | zero => cases h
  | succ tries ih =>
    rw [signFrom?_succ] at h
    obtain hwith | ⟨_, hrest⟩ := Option.or_eq_some_iff.1 h
    · exact signWith?_lt hc hwith
    · exact ih hrest

theorem sign_lt (f : HashFunction) {c : Curve} (hc : 0 < c.order) (secret : Nat)
    (message : Bytes) :
    (sign f c secret message).1 < c.order ∧ (sign f c secret message).2 < c.order := by
  unfold sign
  dsimp only
  cases h : signFrom? f c secret (digestNumber c (f.hash message)) (stateCount f)
      (.start f c secret (f.hash message)) with
  | none => exact ⟨hc, hc⟩
  | some rs => exact signFrom?_lt hc h

end Ecdsa

theorem Primitives.standard_lawful : Primitives.standard.Lawful where
  isRsaKey_eq _ _ := rfl
  length_rsaSign? := Rsa.length_sign?
  decodePoint?_append := Curve.decodePoint?_append
  ecdsaSign_lt f _ hc := Ecdsa.sign_lt f hc

end BootGuard.Crypto
