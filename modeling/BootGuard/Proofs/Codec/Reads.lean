/-
  Readers that read exactly what was written.

  `Reads r W` says that at every place the reader `r` yields `a` if and only if a written form
  of `a` stands there, and that it stops behind it. The two halves of a codec law are the two
  directions of this one statement: what was written is read back, and what is read is what
  would have been written. The combinators below build such readers from smaller ones, so that
  the law of a record follows the text of its reader.
-/
import BootGuard.Proofs.Outcome
import BootGuard.Record.Reader

namespace BootGuard

/-! ## Places in a byte string -/

/-- The cursor `c'` is behind the bytes `b`, which stand at `c`. -/
structure Cursor.Passes (c : Cursor) (b : Bytes) (c' : Cursor) : Prop where
  rest : c.rest = b ++ c'.rest
  pos : c'.pos = c.pos + b.length

namespace Cursor

/-- The place `b` bytes further on, where `tail` is what follows. -/
theorem passes_mk (p : Int) (b tail : Bytes) :
    Passes ⟨p, b ++ tail⟩ b ⟨p + b.length, tail⟩ := ⟨rfl, rfl⟩

theorem passes_nil_iff {c c' : Cursor} : c.Passes [] c' ↔ c' = c := by
  constructor
  · intro h
    obtain ⟨hr, hp⟩ := h
    cases c
    cases c'
    simp_all
  · rintro rfl
    exact ⟨rfl, by simp⟩

theorem passes_append_iff {c c' : Cursor} {a b : Bytes} :
    c.Passes (a ++ b) c' ↔ ∃ m : Cursor, c.Passes a m ∧ m.Passes b c' := by
  constructor
  · intro h
    obtain ⟨hr, hp⟩ := h
    refine ⟨⟨c.pos + a.length, b ++ c'.rest⟩, ⟨by rw [hr, List.append_assoc], rfl⟩, ⟨rfl, ?_⟩⟩
    rw [hp, List.length_append]
    push_cast
    omega
  · intro h
    obtain ⟨m, h1, h2⟩ := h
    refine ⟨by rw [h1.rest, h2.rest, List.append_assoc], ?_⟩
    rw [h2.pos, h1.pos, List.length_append]
    push_cast
    omega

theorem Passes.trans {c m c' : Cursor} {a b : Bytes} (h1 : c.Passes a m) (h2 : m.Passes b c') :
    c.Passes (a ++ b) c' := passes_append_iff.2 ⟨m, h1, h2⟩

theorem Passes.pos_nonneg {c c' : Cursor} {b : Bytes} (h : c.Passes b c') (hc : 0 ≤ c.pos) :
    0 ≤ c'.pos := by
  rw [h.pos]
  omega

theorem Passes.length_rest {c c' : Cursor} {b : Bytes} (h : c.Passes b c') :
    c.rest.length = b.length + c'.rest.length := by
  rw [h.rest, List.length_append]

end Cursor

namespace Reader

variable {α β : Type}

/-- The reader `r` reads exactly the written forms `W`. -/
def Reads (r : Reader α) (W : α → Bytes → Prop) : Prop :=
  ∀ (c : Cursor) (a : α) (c' : Cursor), 0 ≤ c.pos →
    (r c = .ok (a, c') ↔ ∃ b, W a b ∧ c.Passes b c')

theorem Reads.congr {r : Reader α} {V W : α → Bytes → Prop} (h : r.Reads V)
    (hVW : ∀ a b, V a b ↔ W a b) : r.Reads W := by
  intro c a c' hc
  rw [h c a c' hc]
  exact exists_congr fun b => and_congr_left' (hVW a b)

theorem reads_pure (a : α) : Reads (pure a) fun x b => x = a ∧ b = [] := by
  intro c x c' _
  constructor
  · intro h
    cases h
    exact ⟨[], ⟨rfl, rfl⟩, Cursor.passes_nil_iff.2 rfl⟩
  · intro hall
    obtain ⟨b, ⟨rfl, rfl⟩, hp⟩ := hall
    rw [Cursor.passes_nil_iff.1 hp]
    rfl

theorem reads_fail (e : Error) : Reads (fail e : Reader α) fun _ _ => False := by
  intro c a c' _
  simp [fail]

theorem reads_unless {p : Prop} [Decidable p] (e : Error) {r : Reader α} {W : α → Bytes → Prop}
    (hr : r.Reads W) : Reads (if p then fail e else r) fun a b => ¬ p ∧ W a b := by
  by_cases h : p
  · rw [if_pos h]
    exact (reads_fail e).congr fun a b => by simp [h]
  · rw [if_neg h]
    exact hr.congr fun a b => by simp [h]

/-- A reader in sequence succeeds exactly if its parts do. -/
theorem bind_eq_ok_iff {r : Reader α} {f : α → Reader β} {c c' : Cursor} {x : β} :
    (r >>= f) c = .ok (x, c') ↔ ∃ a m, r c = .ok (a, m) ∧ f a m = .ok (x, c') := by
  show (r c >>= fun p => f p.1 p.2) = _ ↔ _
  rw [BootGuard.bind_eq_ok_iff]
  exact Prod.exists

theorem bind_of_eq_ok {r : Reader α} {f : α → Reader β} {c m : Cursor} {a : α}
    (h : r c = .ok (a, m)) : (r >>= f) c = f a m := by
  show (r c >>= fun p => f p.1 p.2) = _
  rw [h, ok_bind]

theorem map_eq_ok_iff {r : Reader α} {f : α → β} {c c' : Cursor} {y : β} :
    (f <$> r) c = .ok (y, c') ↔ ∃ a, r c = .ok (a, c') ∧ y = f a := by
  show (r >>= fun a => pure (f a)) c = _ ↔ _
  rw [bind_eq_ok_iff]
  constructor
  · intro h
    obtain ⟨a, m, h1, h2⟩ := h
    cases h2
    exact ⟨a, h1, rfl⟩
  · intro h
    obtain ⟨a, h1, rfl⟩ := h
    exact ⟨a, c', h1, rfl⟩

theorem reads_bind {r : Reader α} {f : α → Reader β} {V : α → Bytes → Prop}
    {W : α → β → Bytes → Prop} (hr : r.Reads V) (hf : ∀ a, (f a).Reads (W a)) :
    (r >>= f).Reads fun x b => ∃ a b1 b2, V a b1 ∧ W a x b2 ∧ b = b1 ++ b2 := by
  intro c x c' hc
  rw [bind_eq_ok_iff]
  constructor
  · intro h
    obtain ⟨a, m, h1, h2⟩ := h
    obtain ⟨b1, hV, hp1⟩ := (hr c a m hc).1 h1
    obtain ⟨b2, hW, hp2⟩ := (hf a m x c' (hp1.pos_nonneg hc)).1 h2
    exact ⟨b1 ++ b2, ⟨a, b1, b2, hV, hW, rfl⟩, hp1.trans hp2⟩
  · intro h
    obtain ⟨b, ⟨a, b1, b2, hV, hW, rfl⟩, hp⟩ := h
    obtain ⟨m, hp1, hp2⟩ := Cursor.passes_append_iff.1 hp
    exact ⟨a, m, (hr c a m hc).2 ⟨b1, hV, hp1⟩,
      (hf a m x c' (hp1.pos_nonneg hc)).2 ⟨b2, hW, hp2⟩⟩

theorem reads_map {r : Reader α} {V : α → Bytes → Prop} (hr : r.Reads V) (f : α → β) :
    (f <$> r).Reads fun y b => ∃ a, V a b ∧ y = f a := by
  refine (reads_bind hr fun a => reads_pure (f a)).congr fun y b => ?_
  constructor
  · intro h
    obtain ⟨a, b1, b2, hV, ⟨rfl, rfl⟩, rfl⟩ := h
    exact ⟨a, by simpa using hV, rfl⟩
  · intro h
    obtain ⟨a, hV, rfl⟩ := h
    exact ⟨a, b, [], hV, ⟨rfl, rfl⟩, by simp⟩

/-- A position that only goes into messages makes no difference. -/
theorem reads_position {f : Int → Reader β} {W : β → Bytes → Prop} (hf : ∀ p, (f p).Reads W) :
    (position >>= f).Reads W := by
  intro c x c' hc
  rw [bind_eq_ok_iff]
  constructor
  · intro hall
    obtain ⟨p, m, h1, h2⟩ := hall
    cases h1
    exact (hf c.pos c x c' hc).1 h2
  · intro h
    exact ⟨c.pos, c, rfl, (hf c.pos c x c' hc).2 h⟩

theorem reads_take (n : Nat) (part : Part) :
    (take n part).Reads fun x b => b = x ∧ b.length = n := by
  intro c x c' hc
  have hneg : ¬ c.pos < 0 := by omega
  unfold take
  constructor
  · intro h
    split at h
    · cases h
    · rename_i hshort
      have hn : n ≤ c.rest.length := Nat.le_of_not_lt fun hlt =>
        hshort (by simp [(Bytes.shorterThan_iff c.rest n).2 hlt])
      cases h
      refine ⟨_, ⟨rfl, by simp [hn]⟩, ⟨(List.take_append_drop n c.rest).symm, ?_⟩⟩
      simp [hn]
  · intro hall
    obtain ⟨b, ⟨rfl, hlen⟩, hp⟩ := hall
    have hshort : c.rest.shorterThan n = false := by
      have hn : ¬ c.rest.length < n := by rw [hp.length_rest]; omega
      rw [← Bytes.shorterThan_iff] at hn
      simpa using hn
    have ht : c.rest.take n = b := by rw [hp.rest, ← hlen]; simp
    have hd : c.rest.drop n = c'.rest := by rw [hp.rest, ← hlen]; simp
    have hpos : c.pos + n = c'.pos := by rw [hp.pos, hlen]
    simp [hneg, hshort, ht, hd, hpos]

/-- The written forms of a list, one behind the other. -/
def WrittenAll (W : α → Bytes → Prop) : List α → Bytes → Prop
  | [], b => b = []
  | a :: as, b => ∃ b1 b2, W a b1 ∧ WrittenAll W as b2 ∧ b = b1 ++ b2

theorem reads_many {r : Reader α} {W : α → Bytes → Prop} (hr : r.Reads W) (n : Nat) :
    (many r n).Reads fun as b => as.length = n ∧ WrittenAll W as b := by
  induction n with
  | zero =>
    refine (reads_pure ([] : List α)).congr fun as b => ?_
    constructor
    · intro h
      obtain ⟨rfl, rfl⟩ := h
      exact ⟨rfl, rfl⟩
    · intro h
      obtain ⟨hl, hw⟩ := h
      obtain rfl := List.length_eq_zero_iff.1 hl
      exact ⟨rfl, hw⟩
  | succ n ih =>
    refine (reads_bind hr fun a => reads_bind ih fun as => reads_pure (a :: as)).congr
      fun as b => ?_
    constructor
    · intro h
      obtain ⟨a, b1, b2, hW, ⟨as', b3, b4, ⟨hl, hws⟩, ⟨rfl, rfl⟩, rfl⟩, rfl⟩ := h
      exact ⟨by simp [hl], b1, b3, hW, hws, by simp⟩
    · intro h
      obtain ⟨hl, hws⟩ := h
      cases as with
      | nil => cases hl
      | cons a as =>
        obtain ⟨b1, b2, hW, hws, rfl⟩ := hws
        exact ⟨a, b1, b2, hW, ⟨as, b2, [], ⟨by simpa using hl, hws⟩, ⟨rfl, rfl⟩, by simp⟩, rfl⟩

theorem run_eq_ok_iff {r : Reader α} {b : Bytes} {offset n : Int} {a : α} :
    r.run b offset = .ok (a, n) ↔
      ∃ c, r (start b offset) = .ok (a, c) ∧ n = c.pos - offset := by
  rw [run]
  cases r (start b offset) with
  | error e => simp
  | ok p =>
    obtain ⟨a', c⟩ := p
    simp [eq_comm]

/-- Bytes are the written form of no more than one value. -/
theorem Reads.inj {r : Reader α} {W : α → Bytes → Prop} (hr : r.Reads W) {a a' : α} {b : Bytes}
    (h : W a b) (h' : W a' b) : a = a' := by
  have hp := Cursor.passes_mk 0 b []
  have hread := (hr _ a _ (Int.le_refl 0)).2 ⟨b, h, hp⟩
  rw [(hr _ a' _ (Int.le_refl 0)).2 ⟨b, h', hp⟩] at hread
  cases hread
  rfl

end Reader

/-- A number is packed as exactly the bytes of that many that have its value. -/
theorem packInt_eq_ok_iff_toNatLe {w : Nat} {v : Int} {b : Bytes} :
    packInt w v = .ok b ↔ b.length = w ∧ v = b.toNatLe := by
  rw [packInt_eq_ok_iff]
  constructor
  · intro h
    obtain ⟨⟨h0, hlt⟩, rfl⟩ := h
    refine ⟨Bytes.length_ofNatLe w _, ?_⟩
    rw [Bytes.toNatLe_ofNatLe, Nat.mod_eq_of_lt (by omega)]
    omega
  · intro h
    obtain ⟨rfl, rfl⟩ := h
    have := Bytes.toNatLe_lt b
    exact ⟨⟨by omega, by exact_mod_cast this⟩, by simp [Bytes.ofNatLe_toNatLe]⟩

theorem Reader.reads_number (w : Nat) (part : Part) :
    (Reader.number w part).Reads fun n b => packInt w n = .ok b := by
  refine (Reader.reads_bind (Reader.reads_take w part) fun b =>
    Reader.reads_pure b.toNatLe).congr fun n b => ?_
  rw [packInt_eq_ok_iff_toNatLe]
  constructor
  · intro h
    obtain ⟨x, b1, b2, ⟨rfl, hl⟩, ⟨rfl, rfl⟩, rfl⟩ := h
    simpa using hl
  · intro h
    obtain ⟨hl, hn⟩ := h
    exact ⟨b, b, [], ⟨rfl, hl⟩, ⟨by exact_mod_cast hn, rfl⟩, by simp⟩

end BootGuard
