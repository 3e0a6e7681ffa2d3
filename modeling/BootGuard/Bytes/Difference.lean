/-
  Where two byte strings of one length differ.

  The places at which they differ fall into stretches: each is as long as it can be, and in
  front of and behind it the strings agree.
-/
import BootGuard.Bytes

namespace BootGuard.Bytes

/-- A stretch in which one string differs from another: its start, and its bytes there. -/
structure Stretch where
  start : Nat
  bytes : Bytes
deriving DecidableEq, Repr

/-- The stretches `done` (last one first) and behind them the stretch `run` that is being read,
its bytes last one first. -/
def closeStretch (done : List Stretch) : Option Stretch → List Stretch
  | none => done
  | some r => ⟨r.start, r.bytes.reverse⟩ :: done

/-- The stretches from place `i` on, behind those in `done` and `run`. -/
def stretchesFrom (i : Nat) (run : Option Stretch) (done : List Stretch) :
    Bytes → Bytes → List Stretch
  | x :: xs, y :: ys =>
    if x = y then stretchesFrom (i + 1) none (closeStretch done run) xs ys
    else
      match run with
      | none => stretchesFrom (i + 1) (some ⟨i, [y]⟩) done xs ys
      | some r => stretchesFrom (i + 1) (some ⟨r.start, y :: r.bytes⟩) done xs ys
  | _, _ => (closeStretch done run).reverse

/-- The stretches in which `b` differs from `a`. -/
def differences (a b : Bytes) : List Stretch := stretchesFrom 0 none [] a b

end BootGuard.Bytes
