/-
  The search for a nonce leaves no candidate out.

  A candidate depends on the state of the generator alone (`signFrom?_eq_none_iff`), and key and
  value of a generator are digests (`Generator.IsSized`). So there are `stateCount` states, and
  those behind so many steps are none but the ones before (`exists_iterate_lt`): a signature that
  is found by a search of any length is the one that `sign` yields (`sign_eq`).
-/
import BootGuard.Crypto.Ecdsa
import Mathlib.Combinatorics.Pigeonhole

namespace BootGuard

theorem HashFunction.length_keyedHash (f : HashFunction) (key message : Bytes) :
    (f.keyedHash key message).length = f.digestSize := f.length_hash _

namespace Crypto.Ecdsa

variable {f : HashFunction} {c : Curve} {secret e : Nat} {g h : Generator}

namespace Generator

/-- The key and the value of a generator are as long as a digest. -/
structure IsSized (f : HashFunction) (g : Generator) : Prop where
  key : g.key.length = f.digestSize
  value : g.value.length = f.digestSize

theorem isSized_mix (f : HashFunction) (g : Generator) (mark : UInt8) (data : Bytes) :
    (g.mix f mark data).IsSized f := ⟨f.length_keyedHash _ _, f.length_keyedHash _ _⟩

theorem isSized_start (f : HashFunction) (c : Curve) (secret : Nat) (digest : Bytes) :
    (start f c secret digest).IsSized f := isSized_mix f _ _ _

/-- The generator behind a candidate. -/
def step (f : HashFunction) (c : Curve) (g : Generator) : Generator := (g.next f c).2

theorem isSized_iterate (hg : g.IsSized f) (k : Nat) : ((step f c)^[k] g).IsSized f := by
  cases k with
  | zero => exact hg
  | succ k =>
    rw [Function.iterate_succ_apply']
    exact isSized_mix f _ _ _

/-- The number of a state. -/
def code (g : Generator) : Nat := Bytes.toNatLe (g.key ++ g.value)

theorem IsSized.length_eq (hg : g.IsSized f) : (g.key ++ g.value).length = 2 * f.digestSize := by
  rw [List.length_append, hg.key, hg.value, Nat.two_mul]

theorem IsSized.code_lt (hg : g.IsSized f) : g.code < stateCount f := by
  rw [stateCount, ← hg.length_eq]
  exact Bytes.toNatLe_lt _

theorem IsSized.eq_of_code_eq (hg : g.IsSized f) (hh : h.IsSized f) (heq : g.code = h.code) :
    g = h := by
  have happend : g.key ++ g.value = h.key ++ h.value := by
    rw [← Bytes.ofNatLe_toNatLe (g.key ++ g.value), ← Bytes.ofNatLe_toNatLe (h.key ++ h.value),
      hg.length_eq, hh.length_eq]
    exact congrArg _ heq
  obtain ⟨hkey, hvalue⟩ := List.append_inj happend (hg.key.trans hh.key.symm)
  cases g
  cases h
  cases hkey
  cases hvalue
  rfl

/-- Every state that is reached is reached in fewer steps than there are states. -/
theorem exists_iterate_lt (hg : g.IsSized f) (k : Nat) :
    ∃ i < stateCount f, (step f c)^[i] g = (step f c)^[k] g := by
  induction k using Nat.strong_induction_on with
  | h k ih =>
    by_cases hk : k < stateCount f
    · exact ⟨k, hk, rfl⟩
    · -- two of the first states are the same; without the steps between them `k` is smaller
      obtain ⟨i, hi, j, hj, hne, hcode⟩ :=
        Finset.exists_ne_map_eq_of_card_lt_of_maps_to
          (s := Finset.range (stateCount f + 1)) (t := Finset.range (stateCount f))
          (f := fun i => ((step f c)^[i] g).code) (by simp)
          fun i _ => Finset.mem_coe.2 (Finset.mem_range.2 (isSized_iterate hg i).code_lt)
      have hstate := (isSized_iterate (c := c) hg i).eq_of_code_eq (isSized_iterate hg j) hcode
      rw [Finset.mem_range] at hi hj
      wlog hij : i < j generalizing i j
      · exact this j hj i hi hne.symm hcode.symm hstate.symm (by omega)
      obtain ⟨l, hl, heq⟩ := ih (k - j + i) (by omega)
      refine ⟨l, hl, ?_⟩
      rw [heq, Function.iterate_add_apply, hstate, ← Function.iterate_add_apply]
      congr 1
      omega

end Generator

open Generator

/-- A search fails exactly if none of the candidates in reach is usable. -/
theorem signFrom?_eq_none_iff {tries : Nat} : signFrom? f c secret e tries g = none ↔
    ∀ k < tries, signWith? c secret e (((step f c)^[k] g).next f c).1 = none := by
  induction tries generalizing g with
  | zero => simp [signFrom?]
  | succ tries ih =>
    rw [Nat.forall_lt_succ_left, signFrom?_succ, Option.or_eq_none_iff, ih]
    rfl

/-- A longer search finds the same. -/
theorem signFrom?_mono {m n : Nat} {rs : Nat × Nat} (hle : m ≤ n)
    (hm : signFrom? f c secret e m g = some rs) : signFrom? f c secret e n g = some rs := by
  induction m generalizing g n with
  | zero => cases hm
  | succ m ih =>
    obtain ⟨n, rfl⟩ := Nat.exists_eq_succ_of_ne_zero (Nat.ne_zero_of_lt hle)
    rw [Nat.succ_eq_add_one, signFrom?_succ] at *
    cases hwith : signWith? c secret e (g.next f c).1 with
    | some rs' => rwa [hwith] at hm
    | none =>
      rw [hwith] at hm
      exact ih (Nat.le_of_succ_le_succ hle) hm

/-- What a search of any length finds is the signature. -/
theorem sign_eq {message : Bytes} {tries : Nat} {rs : Nat × Nat}
    (hfound : signFrom? f c secret (digestNumber c (f.hash message)) tries
      (.start f c secret (f.hash message)) = some rs) : sign f c secret message = rs := by
  have hstates : signFrom? f c secret (digestNumber c (f.hash message)) (stateCount f)
      (.start f c secret (f.hash message)) = some rs := by
    cases hsearch : signFrom? f c secret (digestNumber c (f.hash message)) (stateCount f)
        (.start f c secret (f.hash message)) with
    | none =>
      have hnone : signFrom? f c secret (digestNumber c (f.hash message)) tries
          (.start f c secret (f.hash message)) = none := by
        refine signFrom?_eq_none_iff.2 fun k _ => ?_
        obtain ⟨i, hi, heq⟩ := exists_iterate_lt (c := c) (isSized_start f c secret _) k
        rw [← heq]
        exact signFrom?_eq_none_iff.1 hsearch i hi
      rw [hnone] at hfound
      cases hfound
    | some rs' =>
      have hboth := signFrom?_mono (Nat.le_max_left tries (stateCount f)) hfound
      rwa [signFrom?_mono (Nat.le_max_right tries (stateCount f)) hsearch] at hboth
  unfold sign
  dsimp only
  rw [hstates, Option.getD_some]

end Crypto.Ecdsa

end BootGuard
