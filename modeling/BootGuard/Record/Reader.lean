/-
  Reading from a byte string.

  A reader works at a position and sees the bytes from there to the end. Positions matter to
  messages only: what a reader yields depends on the bytes alone. A position before the start
  can be handed in and is refused by the first read.

  `Consumes r n` says that the reader `r` leaves at least `n` bytes fewer than it found; the
  loop over the elements of a manifest ends because of it.
-/
import BootGuard.Record.Field

namespace BootGuard

/-- A position in a byte string and the bytes from there on. -/
structure Cursor where
  pos : Int
  rest : Bytes
deriving DecidableEq, Repr

/-- Something that reads an `α` at a position and says where it stopped. -/
abbrev Reader (α : Type) := StateT Cursor (Except Error) α

namespace Reader

variable {α β : Type}

/-- The position `offset` of a byte string. -/
def start (b : Bytes) (offset : Int) : Cursor := ⟨offset, b.drop offset.toNat⟩

/-- The next `n` bytes. -/
def take (n : Nat) (part : Part) : Reader Bytes := fun c =>
  if c.pos < 0 || c.rest.shorterThan n then
    let left := c.rest.length + (-c.pos).toNat
    .error ((Error.truncated (.shortage part n c.pos left)).reporting [left])
  else .ok (c.rest.take n, ⟨c.pos + n, c.rest.drop n⟩)

/-- The current position. -/
def position : Reader Int := fun c => .ok (c.pos, c)

/-- Whether nothing is left. -/
def atEnd : Reader Bool := fun c => .ok (c.rest.isEmpty, c)

/-- Refuses the input. -/
def fail (e : Error) : Reader α := fun _ => .error e

/-- An unsigned number of `width` bytes. -/
def number (width : Nat) (part : Part) : Reader Nat := do
  let b ← take width part
  return b.toNatLe

/-- The integer fields of a record, set in `s`. -/
def fields {σ : Type} (table : List (IntField σ)) (part : Part) (s : σ) : Reader σ := do
  let b ← take (IntField.totalWidth table) part
  return IntField.decodeAll table b s

/-- `n` values, one after the other. -/
def many (r : Reader α) : Nat → Reader (List α)
  | 0 => return []
  | n + 1 => do
    let a ← r
    let as ← many r n
    return a :: as

/-- What a reader yields at an offset of a byte string, and how many bytes it takes. -/
def run (r : Reader α) (b : Bytes) (offset : Int) : Except Error (α × Int) :=
  match r (start b offset) with
  | .ok (a, c) => .ok (a, c.pos - offset)
  | .error e => .error e

/-- A reader leaves at least `n` bytes fewer than it found. -/
def Consumes (r : Reader α) (n : Nat) : Prop :=
  ∀ c a c', r c = .ok (a, c') → c'.rest.length + n ≤ c.rest.length

theorem consumes_pure (a : α) : Consumes (pure a) 0 := by
  intro c b c' h
  cases h
  exact Nat.le_refl _

theorem consumes_bind {r : Reader α} {f : α → Reader β} {m n : Nat} (hr : Consumes r m)
    (hf : ∀ a, Consumes (f a) n) : Consumes (r >>= f) (m + n) := by
  intro c b c'' h
  simp only [bind, StateT.bind, Except.bind] at h
  split at h
  · cases h
  · rename_i v hv
    have h1 := hr c v.1 v.2 hv
    have h2 := hf v.1 v.2 b c'' h
    omega

theorem Consumes.mono {r : Reader α} {m n : Nat} (h : Consumes r m) (hn : n ≤ m) :
    Consumes r n := fun c a c' hc => by
  have := h c a c' hc
  omega

theorem Consumes.map {r : Reader α} {n : Nat} (h : Consumes r n) (f : α → β) :
    Consumes (f <$> r) n := by
  intro c b c' hc
  simp only [Functor.map, StateT.map, bind, Except.bind, pure, Except.pure] at hc
  split at hc
  · cases hc
  · rename_i v hv
    cases hc
    exact h c v.1 v.2 hv

theorem consumes_take (n : Nat) (part : Part) : Consumes (take n part) n := by
  intro c a c' h
  simp only [take] at h
  split at h
  · cases h
  · rename_i hc
    cases h
    have : ¬ c.rest.length < n := fun hl => hc (by
      simp [(Bytes.shorterThan_iff c.rest n).2 hl])
    simp only [List.length_drop]
    omega

theorem consumes_position : Consumes position 0 := by
  intro c a c' h
  cases h
  exact Nat.le_refl _

theorem consumes_atEnd : Consumes atEnd 0 := by
  intro c a c' h
  cases h
  exact Nat.le_refl _

theorem consumes_fail {n : Nat} (e : Error) : Consumes (fail e : Reader α) n := by
  intro c a c' h
  cases h

theorem consumes_many {r : Reader α} (hr : Consumes r 0) (n : Nat) : Consumes (many r n) 0 := by
  induction n with
  | zero => exact consumes_pure []
  | succ n ih =>
    exact consumes_bind (m := 0) (n := 0) hr fun a =>
      consumes_bind (m := 0) (n := 0) ih fun as => consumes_pure (a :: as)

theorem consumes_fields {σ : Type} (table : List (IntField σ)) (part : Part) (s : σ) :
    Consumes (fields table part s) (IntField.totalWidth table) :=
  consumes_bind (n := 0) (consumes_take _ part) fun b =>
    consumes_pure (IntField.decodeAll table b s)

end Reader

end BootGuard
