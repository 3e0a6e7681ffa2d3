/-
  Integers and byte strings in hexadecimal are read back.

  Both are written with the digits of `Text.hexDigits` or `Bytes.hexPair`. An integer of any size
  and sign is what its numeral stands for (`readInt?_hexText`), a byte string what its digits
  stand for (`ofHex?_toHex`).
-/
import BootGuard.Bytes.Text
import BootGuard.Text.Numeral
import Mathlib.Data.Nat.Digits.Defs

namespace BootGuard

namespace Text

/-! ## Digits -/

/-- What is true of every hexadecimal digit that is written. -/
theorem digitChar_facts : ∀ d : Fin 16, digitValue? (Nat.digitChar d) = some d.val ∧
    Nat.digitChar d ≠ '_' ∧ isNumeralBlank (Nat.digitChar d) = false ∧
    asciiDigit (Nat.digitChar d) = Nat.digitChar d := by decide

theorem exists_of_mem_hexDigits {n : Nat} {c : Char} (h : c ∈ hexDigits n) :
    ∃ d : Fin 16, c = Nat.digitChar d := by
  induction n using Nat.strongRecOn with
  | _ n ih =>
    unfold hexDigits at h ih
    by_cases hn : n < 16
    · rw [Nat.toDigits_of_lt_base hn] at h
      exact ⟨⟨n, hn⟩, List.mem_singleton.1 h⟩
    · have hle : 16 ≤ n := Nat.le_of_not_lt hn
      rw [Nat.toDigits_of_base_le (by decide) hle] at h
      obtain h | h := List.mem_append.1 h
      · exact ih (n / 16) (Nat.div_lt_self (by omega) (by decide)) h
      · exact ⟨⟨n % 16, Nat.mod_lt _ (by decide)⟩, List.mem_singleton.1 h⟩

/-- A digit more. -/
theorem digitsValue?_append {base acc n d : Nat} {closed : Bool} {cs : List Char} {c : Char}
    (hcs : digitsValue? base acc closed cs = some n) (hc : c ≠ '_')
    (hd : digitValue? c = some d) (hlt : d < base) :
    digitsValue? base acc closed (cs ++ [c]) = some (n * base + d) := by
  induction cs generalizing acc closed with
  | nil =>
    rw [digitsValue?] at hcs
    split at hcs
    · cases hcs
      simp [digitsValue?, hc, hd, hlt]
    · cases hcs
  | cons x xs ih =>
    rw [digitsValue?] at hcs
    rw [List.cons_append, digitsValue?]
    split at hcs
    · rename_i hx
      rw [if_pos hx]
      split at hcs
      · rename_i hclosed
        rw [if_pos hclosed]
        exact ih hcs
      · cases hcs
    · rename_i hx
      rw [if_neg hx]
      split at hcs
      · split at hcs
        · rename_i hlt'
          rw [if_pos hlt']
          exact ih hcs
        · cases hcs
      · cases hcs

theorem digitsValue?_hexDigits (n : Nat) : digitsValue? 16 0 false (hexDigits n) = some n := by
  induction n using Nat.strongRecOn with
  | _ n ih =>
    unfold hexDigits at ih ⊢
    by_cases hn : n < 16
    · obtain ⟨hvalue, hunderscore, _⟩ := digitChar_facts ⟨n, hn⟩
      rw [Nat.toDigits_of_lt_base hn]
      simp only at hvalue hunderscore
      simp [digitsValue?, hvalue, hunderscore, hn]
    · have hlt : n % 16 < 16 := Nat.mod_lt _ (by decide)
      obtain ⟨hvalue, hunderscore, _⟩ := digitChar_facts ⟨n % 16, hlt⟩
      have hrest := ih (n / 16) (Nat.div_lt_self (by omega) (by decide))
      rw [Nat.toDigits_of_base_le (by decide) (Nat.le_of_not_lt hn),
        digitsValue?_append hrest hunderscore hvalue hlt]
      exact congrArg some (Nat.div_add_mod' n 16)

/-! ## Integers -/

theorem toList_hexText_ofNat (n : Nat) :
    (hexText (.ofNat n)).toList = '0' :: 'x' :: hexDigits n := by
  simp [hexText]

theorem toList_hexText_negSucc (n : Nat) :
    (hexText (.negSucc n)).toList = '-' :: '0' :: 'x' :: hexDigits (n + 1) := by
  simp [hexText]

/-- The characters of a numeral in hexadecimal. -/
theorem mem_hexText {i : Int} {c : Char} (h : c ∈ (hexText i).toList) :
    c = '-' ∨ c = 'x' ∨ ∃ d : Fin 16, c = Nat.digitChar d := by
  have hmagnitude : ∀ n, c ∈ '0' :: 'x' :: hexDigits n →
      c = 'x' ∨ ∃ d : Fin 16, c = Nat.digitChar d := by
    intro n h
    obtain rfl | h := List.mem_cons.1 h
    · exact .inr ⟨0, rfl⟩
    · obtain rfl | h := List.mem_cons.1 h
      · exact .inl rfl
      · exact .inr (exists_of_mem_hexDigits h)
  cases i with
  | ofNat n =>
    rw [toList_hexText_ofNat] at h
    exact .inr (hmagnitude n h)
  | negSucc n =>
    rw [toList_hexText_negSucc] at h
    obtain rfl | h := List.mem_cons.1 h
    · exact .inl rfl
    · exact .inr (hmagnitude (n + 1) h)

theorem trim_eq_self {p : Char → Bool} {s : List Char} (h : ∀ c ∈ s, p c = false) :
    trim p s = s := by
  have hdrop : ∀ t : List Char, (∀ c ∈ t, p c = false) → t.dropWhile p = t := by
    intro t ht
    cases t with
    | nil => rfl
    | cons c t => rw [List.dropWhile_cons_of_neg (by simp [ht c List.mem_cons_self])]
  rw [trim, hdrop s h, hdrop s.reverse fun c hc => h c (List.mem_reverse.1 hc),
    List.reverse_reverse]

theorem magnitude?_hexDigits (n : Nat) : magnitude? ('0' :: 'x' :: hexDigits n) = some n := by
  have hprefixed : prefixedValue? 16 (hexDigits n) = digitsValue? 16 0 false (hexDigits n) := by
    unfold prefixedValue?
    split
    · rename_i cs heq
      have hmem : '_' ∈ hexDigits n := by
        rw [heq]
        exact List.mem_cons_self
      obtain ⟨d, hd⟩ := exists_of_mem_hexDigits hmem
      exact absurd hd.symm (digitChar_facts d).2.1
    · rfl
  rw [magnitude?, if_pos (.inl rfl), hprefixed, digitsValue?_hexDigits]

/-- A numeral in hexadecimal stands for the integer that it was written for. -/
theorem readInt?_hexText (i : Int) : readInt? (hexText i).toList = some i := by
  have htrim : trim isNumeralBlank (hexText i).toList = (hexText i).toList := by
    refine trim_eq_self fun c hc => ?_
    obtain rfl | rfl | ⟨d, rfl⟩ := mem_hexText hc
    · decide
    · decide
    · exact (digitChar_facts d).2.2.1
  have hascii : (hexText i).toList.map asciiDigit = (hexText i).toList := by
    refine (List.map_congr_left fun c hc => ?_).trans (List.map_id _)
    obtain rfl | rfl | ⟨d, rfl⟩ := mem_hexText hc
    · decide
    · decide
    · exact (digitChar_facts d).2.2.2
  rw [readInt?, htrim, hascii]
  cases i with
  | ofNat n =>
    rw [toList_hexText_ofNat]
    show (magnitude? ('0' :: 'x' :: hexDigits n)).map Int.ofNat = _
    rw [magnitude?_hexDigits]
    rfl
  | negSucc n =>
    rw [toList_hexText_negSucc]
    show (magnitude? ('0' :: 'x' :: hexDigits (n + 1))).map (fun m => -(Int.ofNat m)) = _
    rw [magnitude?_hexDigits]
    rfl

end Text

/-! ## Byte strings -/

namespace Bytes

theorem digitChar_hexFacts : ∀ d : Fin 16, hexValue? (Text.digitChar d) = some d.val ∧
    Text.isAsciiBlank (Text.digitChar d) = false := by decide

theorem ofHexFrom?_hexPair (acc : Bytes) (x : UInt8) (cs : List Char) :
    ofHexFrom? acc (hexPair x ++ cs) = ofHexFrom? (x :: acc) cs := by
  have hx := x.toNat_lt
  obtain ⟨hhigh, hblank⟩ := digitChar_hexFacts ⟨x.toNat / 16, by omega⟩
  obtain ⟨hlow, _⟩ := digitChar_hexFacts ⟨x.toNat % 16, by omega⟩
  have hbyte : UInt8.ofNat (16 * (x.toNat / 16) + x.toNat % 16) = x := by
    rw [Nat.div_add_mod, UInt8.ofNat_toNat]
  simp only at hhigh hlow hblank
  show ofHexFrom? acc (Text.digitChar (x.toNat / 16) :: Text.digitChar (x.toNat % 16) :: cs) = _
  rw [ofHexFrom?, hblank, if_neg Bool.false_ne_true]
  simp only [hhigh, hlow, hbyte]

theorem ofHexFrom?_toHex (acc b : Bytes) :
    ofHexFrom? acc (b.flatMap hexPair) = some (acc.reverse ++ b) := by
  induction b generalizing acc with
  | nil => simp [ofHexFrom?]
  | cons x b ih =>
    rw [List.flatMap_cons, ofHexFrom?_hexPair, ih, List.reverse_cons, List.append_assoc,
      List.singleton_append]

/-- A byte string in hexadecimal stands for the bytes that it was written for. -/
theorem ofHex?_toHex (b : Bytes) : ofHex? b.toHex = some b := by
  rw [ofHex?, toHex, String.toList_ofList, ofHexFrom?_toHex]
  rfl

theorem mem_toHex {b : Bytes} {c : Char} (h : c ∈ b.toHex.toList) :
    ∃ d : Fin 16, c = Text.digitChar d := by
  rw [toHex, String.toList_ofList] at h
  obtain ⟨x, _, hc⟩ := List.mem_flatMap.1 h
  have hx := x.toNat_lt
  obtain rfl | hc := List.mem_cons.1 hc
  · exact ⟨⟨x.toNat / 16, by omega⟩, rfl⟩
  · exact ⟨⟨x.toNat % 16, by omega⟩, List.mem_singleton.1 hc⟩

end Bytes

end BootGuard
