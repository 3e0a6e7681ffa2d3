/-
  Plain documents are read back from their text.

  A plain document has no numbers and no truth values, its texts stand for themselves inside
  quotes, and no object in it has a key twice. The way from the text of such a document back to
  the document has two steps: the tokens of the text are those that `spell` lists, whatever the
  layout (`tokensFrom_write`), and from these the reader builds the document again
  (`readTokens_spell`). Both are by induction on the document.
-/
import BootGuard.Json.Reader
import BootGuard.Json.Writer

namespace BootGuard.Json

/-! ## Plain documents -/

/-- Whether a character stands for itself inside quotes. -/
def isPlainChar (c : Char) : Bool :=
  decide (0x20 ≤ c.toNat) && decide (c.toNat < 0x7F) && c != '"' && c != '\\'

/-- Whether every character of a text stands for itself inside quotes. -/
def isPlainText (s : String) : Bool := s.toList.all isPlainChar

/-- A document of nulls, texts, lists and objects that is the same after being written and
read. -/
inductive IsPlain : Json → Prop
  | null : IsPlain null
  | str {s : String} (h : isPlainText s = true) : IsPlain (str s)
  | arr {js : List Json} (h : ∀ j ∈ js, IsPlain j) : IsPlain (arr js)
  | obj {ms : List (String × Json)} (hkeys : (ms.map (·.1)).Nodup)
      (htexts : ∀ m ∈ ms, isPlainText m.1 = true) (h : ∀ m ∈ ms, IsPlain m.2) :
      IsPlain (obj ms)

theorem itemsWritable_eq_all (js : List Json) : itemsWritable js = js.all isWritable := by
  induction js with
  | nil => rfl
  | cons j js ih => rw [itemsWritable, ih, List.all_cons]

theorem membersWritable_eq_all (ms : List (String × Json)) :
    membersWritable ms = ms.all fun m => m.2.isWritable := by
  induction ms with
  | nil => rfl
  | cons m ms ih => rw [membersWritable, ih, List.all_cons]

/-- There is no integer in a plain document. -/
theorem IsPlain.isWritable {j : Json} (h : IsPlain j) : j.isWritable = true := by
  induction h with
  | null => rfl
  | str _ => rfl
  | arr _ ih =>
    rw [Json.isWritable, itemsWritable_eq_all, List.all_eq_true]
    exact ih
  | obj _ _ _ ih =>
    rw [Json.isWritable, membersWritable_eq_all, List.all_eq_true]
    exact ih

/-- What stands between the tokens of a layout is blank. -/
structure Layout.IsBlank (layout : Layout) : Prop where
  newline : ∀ level, ∀ c ∈ layout.newline level, isLayout c = true
  colon : ∃ blanks, layout.colon = ':' :: blanks ∧ ∀ c ∈ blanks, isLayout c = true

theorem Layout.isBlank_indented : Layout.indented.IsBlank where
  newline := by
    intro level c hc
    obtain rfl | hc := List.mem_cons.1 hc
    · rfl
    · obtain rfl := List.eq_of_mem_replicate hc
      rfl
  colon := ⟨[' '], rfl, by simp [isLayout]⟩

theorem isPlainChar_iff {c : Char} :
    isPlainChar c = true ↔ (0x20 ≤ c.toNat ∧ c.toNat < 0x7F) ∧ c ≠ '"' ∧ c ≠ '\\' := by
  simp [isPlainChar, and_assoc]

theorem escapeChar_of_isPlainChar {c : Char} (h : isPlainChar c = true) : escapeChar c = [c] := by
  obtain ⟨⟨hlow, hhigh⟩, hquote, hbackslash⟩ := isPlainChar_iff.1 h
  have hne : ∀ d : Char, d.toNat < 0x20 → c ≠ d := by
    intro d hd heq
    subst heq
    omega
  simp only [escapeChar]
  rw [if_neg hquote, if_neg hbackslash, if_neg (hne '\n' (by decide)),
    if_neg (hne '\r' (by decide)), if_neg (hne '\t' (by decide)), if_neg (by omega),
    if_neg (by omega), if_pos ⟨hlow, hhigh⟩]

theorem writeText_of_isPlainText {s : String} (h : isPlainText s = true) :
    writeText s = '"' :: (s.toList ++ ['"']) := by
  have hall := List.all_eq_true.1 h
  have hflat : ∀ cs : List Char, (∀ c ∈ cs, isPlainChar c = true) →
      cs.flatMap escapeChar = cs := by
    intro cs hcs
    induction cs with
    | nil => rfl
    | cons c cs ih =>
      rw [List.flatMap_cons, escapeChar_of_isPlainChar (hcs c List.mem_cons_self),
        ih fun c hc => hcs c (List.mem_cons_of_mem _ hc), List.singleton_append]
  rw [writeText, hflat _ hall]

/-! ## The tokens of a document -/

mutual

/-- The tokens of a document. -/
def spell : Json → List Token
  | str s => [.text s]
  | arr [] => [.beginArray, .endArray]
  | arr (j :: js) => .beginArray :: (spell j ++ spellItems js ++ [.endArray])
  | obj [] => [.beginObject, .endObject]
  | obj ((key, j) :: ms) =>
    .beginObject :: .text key :: .colon :: (spell j ++ spellMembers ms ++ [.endObject])
  | j => [.scalar j]

/-- The tokens of the items behind the first one. -/
def spellItems : List Json → List Token
  | [] => []
  | j :: js => .comma :: (spell j ++ spellItems js)

/-- The tokens of the members behind the first one. -/
def spellMembers : List (String × Json) → List Token
  | [] => []
  | (key, j) :: ms => .comma :: .text key :: .colon :: (spell j ++ spellMembers ms)

end

/-! ## From the text to the tokens -/

theorem tokensFrom_blanks {blanks : List Char} (h : ∀ c ∈ blanks, isLayout c = true)
    (acc : List Token) (cs : List Char) : tokensFrom acc (blanks ++ cs) = tokensFrom acc cs := by
  induction blanks with
  | nil => rfl
  | cons c blanks ih =>
    have hc : ((c = ' ' ∨ c = '\t') ∨ c = '\n') ∨ c = '\r' := by
      simpa [isLayout] using h c List.mem_cons_self
    have hrest := ih fun c hc => h c (List.mem_cons_of_mem _ hc)
    obtain ((rfl | rfl) | rfl) | rfl := hc <;> simpa [tokensFrom, isLayout] using hrest

theorem scanText?_of_isPlainChar {cs : List Char} (h : ∀ c ∈ cs, isPlainChar c = true)
    (acc rest : List Char) :
    scanText? acc (cs ++ '"' :: rest) = some (String.ofList (acc.reverse ++ cs), rest) := by
  induction cs generalizing acc with
  | nil => simp [scanText?]
  | cons c cs ih =>
    obtain ⟨⟨hlow, _⟩, hquote, hbackslash⟩ := isPlainChar_iff.1 (h c List.mem_cons_self)
    have hstep : scanText? acc (c :: (cs ++ '"' :: rest)) =
        scanText? (c :: acc) (cs ++ '"' :: rest) := by
      rw [scanText?, if_neg (by omega)]
      all_goals simp [hquote, hbackslash]
    rw [List.cons_append, hstep, ih fun c hc => h c (List.mem_cons_of_mem _ hc)]
    simp

theorem tokensFrom_quote {s : String} {cs rest : List Char} (h : scanText? [] cs = some (s, rest))
    (acc : List Token) : tokensFrom acc ('"' :: cs) = tokensFrom (.text s :: acc) rest := by
  -- The side goals are that no keyword and no number starts with a quote.
  rw [tokensFrom]
  · rw [if_neg (by decide), if_neg (by decide), if_neg (by decide), if_neg (by decide),
      if_neg (by decide), if_neg (by decide), if_neg (by decide), if_pos rfl]
    split
    · rename_i heq
      obtain ⟨rfl, rfl⟩ := Prod.mk.inj (Option.some.inj (heq.symm.trans h))
      rfl
    · rename_i heq
      cases heq.symm.trans h
  all_goals simp

theorem tokensFrom_writeText {s : String} (h : isPlainText s = true) (acc : List Token)
    (rest : List Char) :
    tokensFrom acc (writeText s ++ rest) = tokensFrom (.text s :: acc) rest := by
  have hscan : scanText? [] (s.toList ++ '"' :: rest) = some (s, rest) := by
    rw [scanText?_of_isPlainChar (List.all_eq_true.1 h)]
    simp
  rw [writeText_of_isPlainText h, List.cons_append, List.append_assoc, List.singleton_append,
    tokensFrom_quote hscan]

theorem tokensFrom_null (acc : List Token) (cs : List Char) :
    tokensFrom acc ("null".toList ++ cs) = tokensFrom (.scalar null :: acc) cs := by
  simp [tokensFrom]

/-- The token of a bracket, a comma or a colon. -/
def punctuation? : Char → Option Token
  | '[' => some .beginArray
  | ']' => some .endArray
  | '\x7b' => some .beginObject
  | '\x7d' => some .endObject
  | ',' => some .comma
  | ':' => some .colon
  | _ => none

theorem tokensFrom_punctuation (c : Char) {t : Token} (h : punctuation? c = some t)
    (acc : List Token) (cs : List Char) : tokensFrom acc (c :: cs) = tokensFrom (t :: acc) cs := by
  unfold punctuation? at h
  split at h <;> cases h <;> simp [tokensFrom, isLayout]

/-- Wherever it stands, the text of `j` has the tokens of `j`. -/
def Spelled (layout : Layout) (j : Json) : Prop :=
  ∀ level acc rest, tokensFrom acc (write layout level j ++ rest) =
    tokensFrom ((spell j).reverse ++ acc) rest

section Spelled

variable {layout : Layout}

theorem tokensFrom_key (hl : layout.IsBlank) {key : String} (hkey : isPlainText key = true)
    (acc : List Token) (cs : List Char) :
    tokensFrom acc (writeText key ++ (layout.colon ++ cs)) =
      tokensFrom (.colon :: .text key :: acc) cs := by
  obtain ⟨blanks, hcolon, hblanks⟩ := hl.colon
  rw [tokensFrom_writeText hkey, hcolon, List.cons_append, tokensFrom_punctuation ':' rfl,
    tokensFrom_blanks hblanks]

theorem tokensFrom_writeItems (hl : layout.IsBlank) {js : List Json}
    (h : ∀ j ∈ js, Spelled layout j) (level : Nat) (acc : List Token) (rest : List Char) :
    tokensFrom acc (writeItems layout level js ++ rest) =
      tokensFrom ((spellItems js).reverse ++ acc) rest := by
  induction js generalizing acc with
  | nil => rfl
  | cons j js ih =>
    have htail := ih (fun j hj => h j (List.mem_cons_of_mem _ hj))
    simp only [writeItems, spellItems, List.cons_append, List.append_assoc]
    rw [tokensFrom_punctuation ',' rfl, tokensFrom_blanks (hl.newline level),
      h j List.mem_cons_self, htail]
    simp

theorem tokensFrom_writeMembers (hl : layout.IsBlank) {ms : List (String × Json)}
    (htexts : ∀ m ∈ ms, isPlainText m.1 = true) (h : ∀ m ∈ ms, Spelled layout m.2) (level : Nat)
    (acc : List Token) (rest : List Char) :
    tokensFrom acc (writeMembers layout level ms ++ rest) =
      tokensFrom ((spellMembers ms).reverse ++ acc) rest := by
  induction ms generalizing acc with
  | nil => rfl
  | cons m ms ih =>
    have htail := ih (fun m hm => htexts m (List.mem_cons_of_mem _ hm))
      (fun m hm => h m (List.mem_cons_of_mem _ hm))
    obtain ⟨key, j⟩ := m
    simp only [writeMembers, spellMembers, List.cons_append, List.append_assoc]
    rw [tokensFrom_punctuation ',' rfl, tokensFrom_blanks (hl.newline level),
      tokensFrom_key hl (htexts _ List.mem_cons_self), h _ List.mem_cons_self, htail]
    simp

/-- The text of a plain document has its tokens. -/
theorem tokensFrom_write (hl : layout.IsBlank) {j : Json} (h : IsPlain j) :
    Spelled layout j := by
  induction h with
  | null =>
    intro level acc rest
    exact tokensFrom_null acc rest
  | str h =>
    intro level acc rest
    exact tokensFrom_writeText h acc rest
  | @arr js _ ih =>
    intro level acc rest
    cases js with
    | nil =>
      exact (tokensFrom_punctuation '[' rfl acc _).trans (tokensFrom_punctuation ']' rfl _ rest)
    | cons j js =>
      have htail := tokensFrom_writeItems hl fun j hj => ih j (List.mem_cons_of_mem _ hj)
      simp only [write, spell, List.cons_append, List.append_assoc, List.nil_append]
      rw [tokensFrom_punctuation '[' rfl, tokensFrom_blanks (hl.newline _),
        ih j List.mem_cons_self, htail, tokensFrom_blanks (hl.newline level),
        tokensFrom_punctuation ']' rfl]
      simp
  | @obj ms _ htexts _ ih =>
    intro level acc rest
    cases ms with
    | nil =>
      exact (tokensFrom_punctuation '\x7b' rfl acc _).trans
        (tokensFrom_punctuation '\x7d' rfl _ rest)
    | cons m ms =>
      have htail := tokensFrom_writeMembers hl
        (fun m hm => htexts m (List.mem_cons_of_mem _ hm))
        (fun m hm => ih m (List.mem_cons_of_mem _ hm))
      obtain ⟨key, j⟩ := m
      simp only [write, spell, List.cons_append, List.append_assoc, List.nil_append]
      rw [tokensFrom_punctuation '\x7b' rfl, tokensFrom_blanks (hl.newline _),
        tokensFrom_key hl (htexts _ List.mem_cons_self), ih _ List.mem_cons_self, htail,
        tokensFrom_blanks (hl.newline level), tokensFrom_punctuation '\x7d' rfl]
      simp

end Spelled

/-! ## From the tokens to the document -/

theorem put_of_notMem {key : String} {ms : List (String × Json)} (h : key ∉ ms.map (·.1))
    (value : Json) : put key value ms = ms ++ [(key, value)] := by
  induction ms with
  | nil => rfl
  | cons m ms ih =>
    rw [List.map_cons, List.mem_cons, not_or] at h
    rw [put, if_neg (Ne.symm h.1), ih h.2, List.cons_append]

/-- Where a value may stand, the tokens of `j` are read as `j`. -/
def Understood (j : Json) : Prop :=
  ∀ stack ts, readTokens stack .value (spell j ++ ts) = readTokens stack (.after j) ts

/-- In front of the first item of a list no value is mistaken for the end of the list. -/
theorem readTokens_firstItem (j : Json) (stack : List Frame) (ts : List Token) :
    readTokens stack .firstItem (spell j ++ ts) =
      readTokens (.items [] :: stack) .value (spell j ++ ts) := by
  match j with
  | null | bool _ | int _ | real _ | str _ | arr [] | arr (_ :: _) | obj [] | obj ((_, _) :: _) =>
    simp [spell, readTokens]

theorem readTokens_spellItems {js : List Json} (h : ∀ j ∈ js, Understood j) (j : Json)
    (done : List Json) (stack : List Frame) (ts : List Token) :
    readTokens (.items done :: stack) (.after j) (spellItems js ++ .endArray :: ts) =
      readTokens stack (.after (.arr (done.reverse ++ j :: js))) ts := by
  induction js generalizing j done with
  | nil => simp [spellItems, readTokens]
  | cons j' js ih =>
    have hstep : readTokens (.items done :: stack) (.after j)
        (spellItems (j' :: js) ++ .endArray :: ts) =
        readTokens (.items (j :: done) :: stack) .value
          (spell j' ++ (spellItems js ++ .endArray :: ts)) := by
      simp [spellItems, readTokens]
    rw [hstep, h j' List.mem_cons_self, ih fun j hj => h j (List.mem_cons_of_mem _ hj)]
    simp

theorem readTokens_spellMembers {ms : List (String × Json)} (h : ∀ m ∈ ms, Understood m.2)
    (key : String) (j : Json) (done : List (String × Json))
    (hkeys : ((done ++ (key, j) :: ms).map (·.1)).Nodup) (stack : List Frame) (ts : List Token) :
    readTokens (.members done key :: stack) (.after j) (spellMembers ms ++ .endObject :: ts) =
      readTokens stack (.after (.obj (done ++ (key, j) :: ms))) ts := by
  have hput : put key j done = done ++ [(key, j)] := by
    refine put_of_notMem (fun hmem => ?_) j
    rw [List.map_append] at hkeys
    exact (List.nodup_append.1 hkeys).2.2 key hmem key List.mem_cons_self rfl
  induction ms generalizing key j done with
  | nil => simp [spellMembers, readTokens, hput]
  | cons m ms ih =>
    have hdone : done ++ (key, j) :: m :: ms = (done ++ [(key, j)]) ++ m :: ms := by simp
    have hstep : readTokens (.members done key :: stack) (.after j)
        (spellMembers (m :: ms) ++ .endObject :: ts) =
        readTokens (.members (done ++ [(key, j)]) m.1 :: stack) .value
          (spell m.2 ++ (spellMembers ms ++ .endObject :: ts)) := by
      simp [spellMembers, readTokens, hput]
    rw [hdone] at hkeys ⊢
    rw [hstep, h m List.mem_cons_self, ih (fun m hm => h m (List.mem_cons_of_mem _ hm)) _ _ _ hkeys]
    refine put_of_notMem (fun hmem => ?_) _
    rw [List.map_append] at hkeys
    exact (List.nodup_append.1 hkeys).2.2 m.1 hmem m.1 List.mem_cons_self rfl

/-- From the tokens of a plain document the reader builds the document. -/
theorem readTokens_spell {j : Json} (h : IsPlain j) : Understood j := by
  induction h with
  | null =>
    intro stack ts
    simp [spell, readTokens, readTokens.readValue]
  | str _ =>
    intro stack ts
    simp [spell, readTokens, readTokens.readValue]
  | @arr js _ ih =>
    intro stack ts
    cases js with
    | nil => simp [spell, readTokens, readTokens.readValue]
    | cons j js =>
      have hbegin : readTokens stack .value (spell (arr (j :: js)) ++ ts) =
          readTokens stack .firstItem (spell j ++ (spellItems js ++ .endArray :: ts)) := by
        simp [spell, readTokens, readTokens.readValue]
      rw [hbegin, readTokens_firstItem, ih j List.mem_cons_self,
        readTokens_spellItems fun j hj => ih j (List.mem_cons_of_mem _ hj)]
      rfl
  | @obj ms hkeys _ _ ih =>
    intro stack ts
    cases ms with
    | nil => simp [spell, readTokens, readTokens.readValue]
    | cons m ms =>
      have hbegin : readTokens stack .value (spell (obj (m :: ms)) ++ ts) =
          readTokens (.members [] m.1 :: stack) .value
            (spell m.2 ++ (spellMembers ms ++ .endObject :: ts)) := by
        simp [spell, readTokens, readTokens.readValue]
      rw [hbegin, ih m List.mem_cons_self, readTokens_spellMembers
        (fun m hm => ih m (List.mem_cons_of_mem _ hm)) m.1 m.2 [] hkeys]
      rfl

/-- A plain document is read back from its text. -/
theorem parse_render {layout : Layout} (hl : layout.IsBlank) {j : Json} (h : IsPlain j) :
    parse (j.render layout) = .ok j := by
  have htokens : tokens (j.render layout) = spell j := by
    have hwrite := tokensFrom_write hl h 0 [] []
    rw [List.append_nil, List.append_nil] at hwrite
    rw [tokens, render, String.toList_ofList, hwrite]
    simp [tokensFrom]
  have hread := readTokens_spell h [] []
  rw [List.append_nil] at hread
  rw [parse, htokens, hread, readTokens]

end BootGuard.Json
