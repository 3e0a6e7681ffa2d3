/-
  Entries: their encoding, and lists of them.

  An entry is decoded from its encoding up to what its fields cut off (`Entry.decode_of_encode`),
  and sixteen bytes are encoded again as they were (`Entry.encode_decode`). Of a list of entries
  only the first of each type matters to a reader, so the lemmas on the operations of stitching say
  what each one does to the first entry of every type, and how it changes the numbers that decide
  how much a table grows.
-/
import BootGuard.Proofs.Codec.Fields
import BootGuard.Fit.Stitch

namespace BootGuard.Fit

namespace Entry

/-- The size and the type of the entry are not cut off when it is encoded. -/
def Fits (e : Entry) : Prop := (0 ≤ e.size ∧ e.size < 0x1000000) ∧ 0 ≤ e.type ∧ e.type < 0x80

theorem fits_decode (b : Bytes) : (decode b).Fits := by
  unfold Fits decode
  dsimp only
  omega

theorem encode_eq_ok_iff {e : Entry} {b : Bytes} : e.encode = .ok b ↔
    ∃ address size version type checksum, packInt 8 e.address = .ok address ∧
      packInt 4 (e.rsvd * 0x1000000 + e.size % 0x1000000) = .ok size ∧
      packInt 2 e.version = .ok version ∧
      packInt 1 (e.checksumFlag * 0x80 + e.type % 0x80) = .ok type ∧
      packInt 1 e.checksum = .ok checksum ∧
      b = address ++ (size ++ (version ++ (type ++ checksum))) := by
  simp only [encode, bind_eq_ok_iff, pure_eq_ok, Except.ok.injEq, List.append_assoc]
  constructor
  · intro h
    obtain ⟨a, h1, s, h2, v, h3, t, h4, c, h5, rfl⟩ := h
    exact ⟨a, s, v, t, c, h1, h2, h3, h4, h5, rfl⟩
  · intro h
    obtain ⟨a, s, v, t, c, h1, h2, h3, h4, h5, rfl⟩ := h
    exact ⟨a, h1, s, h2, v, h3, t, h4, c, h5, rfl⟩

theorem length_of_encode {e : Entry} {b : Bytes} (h : e.encode = .ok b) :
    b.length = entrySize := by
  obtain ⟨a, s, v, t, c, h1, h2, h3, h4, h5, rfl⟩ := encode_eq_ok_iff.1 h
  simp only [List.length_append, length_of_packInt h1, length_of_packInt h2,
    length_of_packInt h3, length_of_packInt h4, length_of_packInt h5, entrySize]

/-- The entry with its size and its type cut off to their fields. -/
def cut (e : Entry) : Entry := { e with size := e.size % 0x1000000, type := e.type % 0x80 }

theorem cut_of_fits {e : Entry} (h : e.Fits) : e.cut = e := by
  obtain ⟨⟨hsize0, hsize⟩, htype0, htype⟩ := h
  rw [cut, Int.emod_eq_of_lt hsize0 hsize, Int.emod_eq_of_lt htype0 htype]

/-- Sixteen bytes are the five packed numbers of an entry, one behind the other. -/
theorem exists_parts {b : Bytes} (h : b.length = entrySize) : ∃ a s v t c : Bytes,
    b = a ++ (s ++ (v ++ (t ++ c))) ∧ a.length = 8 ∧ s.length = 4 ∧ v.length = 2 ∧
      t.length = 1 ∧ c.length = 1 := by
  rw [entrySize] at h
  refine ⟨b.take 8, (b.drop 8).take 4, (b.drop 12).take 2, (b.drop 14).take 1, b.drop 15,
    ?_, ?_, ?_, ?_, ?_, ?_⟩
  · rw [← List.drop_drop (i := 1) (j := 14), List.take_append_drop,
      ← List.drop_drop (i := 2) (j := 12), List.take_append_drop,
      ← List.drop_drop (i := 4) (j := 8), List.take_append_drop, List.take_append_drop]
  all_goals
    simp only [List.length_take, List.length_drop]
    omega

/-- The five numbers are decoded each for itself; two of them hold two fields. -/
theorem decode_append {a s v t c : Bytes} (ha : a.length = 8) (hs : s.length = 4)
    (hv : v.length = 2) (ht : t.length = 1) (hc : c.length = 1) :
    decode (a ++ (s ++ (v ++ (t ++ c)))) =
      { address := a.toNatLe
        size := (s.toNatLe % 0x1000000 : Nat)
        rsvd := (s.toNatLe / 0x1000000 : Nat)
        version := v.toNatLe
        type := (t.toNatLe % 0x80 : Nat)
        checksumFlag := (t.toNatLe / 0x80 : Nat)
        checksum := c.toNatLe } := by
  have hdrop8 : (a ++ (s ++ (v ++ (t ++ c)))).drop 8 = s ++ (v ++ (t ++ c)) := List.drop_left' ha
  have hdrop12 : (a ++ (s ++ (v ++ (t ++ c)))).drop 12 = v ++ (t ++ c) := by
    rw [← List.drop_drop (i := 4) (j := 8), hdrop8, List.drop_left' hs]
  have hdrop14 : (a ++ (s ++ (v ++ (t ++ c)))).drop 14 = t ++ c := by
    rw [← List.drop_drop (i := 2) (j := 12), hdrop12, List.drop_left' hv]
  have hdrop15 : (a ++ (s ++ (v ++ (t ++ c)))).drop 15 = c := by
    rw [← List.drop_drop (i := 1) (j := 14), hdrop14, List.drop_left' ht]
  unfold decode
  rw [hdrop8, hdrop12, hdrop14, hdrop15, List.take_left' ha, List.take_left' hs,
    List.take_left' hv, List.take_left' ht, List.take_of_length_le (Nat.le_of_eq hc)]

theorem decode_of_encode {e : Entry} {b : Bytes} (h : e.encode = .ok b) : decode b = e.cut := by
  obtain ⟨a, s, v, t, c, h1, h2, h3, h4, h5, rfl⟩ := encode_eq_ok_iff.1 h
  obtain ⟨hla, ha⟩ := packInt_eq_ok_iff_toNatLe.1 h1
  obtain ⟨hls, hs⟩ := packInt_eq_ok_iff_toNatLe.1 h2
  obtain ⟨hlv, hv⟩ := packInt_eq_ok_iff_toNatLe.1 h3
  obtain ⟨hlt, ht⟩ := packInt_eq_ok_iff_toNatLe.1 h4
  obtain ⟨hlc, hc⟩ := packInt_eq_ok_iff_toNatLe.1 h5
  rw [decode_append hla hls hlv hlt hlc, cut]
  simp only [Entry.mk.injEq, ← ha, ← hv, ← hc, true_and, and_true]
  omega

/-- No bit of sixteen bytes is lost in the entry that they are decoded as. -/
theorem encode_decode {b : Bytes} (h : b.length = entrySize) : (decode b).encode = .ok b := by
  obtain ⟨a, s, v, t, c, rfl, ha, hs, hv, ht, hc⟩ := exists_parts h
  rw [decode_append ha hs hv ht hc, encode_eq_ok_iff]
  refine ⟨a, s, v, t, c, ?_, ?_, ?_, ?_, ?_, rfl⟩
  · exact packInt_eq_ok_iff_toNatLe.2 ⟨ha, rfl⟩
  · refine packInt_eq_ok_iff_toNatLe.2 ⟨hs, ?_⟩
    dsimp only
    omega
  · exact packInt_eq_ok_iff_toNatLe.2 ⟨hv, rfl⟩
  · refine packInt_eq_ok_iff_toNatLe.2 ⟨ht, ?_⟩
    dsimp only
    omega
  · exact packInt_eq_ok_iff_toNatLe.2 ⟨hc, rfl⟩

/-- Encoding cuts off the fields itself. -/
theorem encode_cut (e : Entry) : e.cut.encode = e.encode := by
  simp only [encode, cut, Int.emod_emod]

end Entry

theorem map_cut_of_fits {es : List Entry} (h : ∀ e ∈ es, e.Fits) : es.map Entry.cut = es :=
  (List.map_congr_left fun e he => Entry.cut_of_fits (h e he)).trans (List.map_id es)

theorem encodeEntries_eq (es : List Entry) : encodeEntries es = encodeItems Entry.encode es := by
  induction es with
  | nil => rfl
  | cons e es ih => rw [encodeEntries, encodeItems, ih]

theorem encodeEntries_map_cut (es : List Entry) :
    encodeEntries (es.map Entry.cut) = encodeEntries es := by
  induction es with
  | nil => rfl
  | cons e es ih => rw [List.map_cons, encodeEntries, encodeEntries, Entry.encode_cut, ih]

theorem length_of_encodeEntries {es : List Entry} {b : Bytes}
    (h : encodeItems Entry.encode es = .ok b) : b.length = es.length * entrySize := by
  induction es generalizing b with
  | nil =>
    cases h
    rfl
  | cons e es ih =>
    simp only [encodeItems, bind_eq_ok_iff, pure_eq_ok, Except.ok.injEq] at h
    obtain ⟨b1, h1, b2, h2, rfl⟩ := h
    rw [List.length_append, Entry.length_of_encode h1, ih h2, List.length_cons, Nat.succ_mul,
      Nat.add_comm]

/-- Entries at the front are read as they were encoded, whatever follows. -/
theorem frontEntries_of_encode {es : List Entry} {b : Bytes}
    (h : encodeItems Entry.encode es = .ok b) (rest : Bytes) :
    frontEntries (b ++ rest) es.length = .ok (es.map Entry.cut) := by
  induction es generalizing b with
  | nil => rfl
  | cons e es ih =>
    simp only [encodeItems, bind_eq_ok_iff, pure_eq_ok, Except.ok.injEq] at h
    obtain ⟨b1, h1, b2, h2, rfl⟩ := h
    have hlen := Entry.length_of_encode h1
    have hshort : (b1 ++ b2 ++ rest).shorterThan entrySize = false := by
      have hn : ¬ (b1 ++ b2 ++ rest).length < entrySize := by
        rw [List.length_append, List.length_append]
        omega
      rw [← Bytes.shorterThan_iff] at hn
      simpa using hn
    have hdrop : (b1 ++ b2 ++ rest).drop entrySize = b2 ++ rest := by
      rw [List.append_assoc, List.drop_left' hlen]
    have htake : (b1 ++ b2 ++ rest).take entrySize = b1 := by
      rw [List.append_assoc, List.take_left' hlen]
    rw [List.length_cons, frontEntries, if_neg (by rw [hshort]; simp), hdrop, htake,
      ih h2, Entry.decode_of_encode h1]
    rfl

theorem frontEntries_eq_ok {b : Bytes} {n : Nat} {es : List Entry}
    (h : frontEntries b n = .ok es) : es.length = n ∧ ∀ e ∈ es, ∃ x, e = Entry.decode x := by
  induction n generalizing b es with
  | zero =>
    cases h
    exact ⟨rfl, by simp⟩
  | succ n ih =>
    rw [frontEntries] at h
    split at h
    · cases h
    · obtain ⟨es', h', hes⟩ := bind_eq_ok_iff.1 h
      cases hes
      obtain ⟨hl, hf⟩ := ih h'
      refine ⟨by rw [List.length_cons, hl], ?_⟩
      intro e he
      obtain rfl | he := List.mem_cons.1 he
      · exact ⟨_, rfl⟩
      · exact hf e he

/-! ## The first entry of a type -/

/-- The first entry of a type. -/
def first? (type : Int) (es : List Entry) : Option Entry := es.find? fun e => e.type = type

theorem type_of_first? {type : Int} {es : List Entry} {e : Entry} (h : first? type es = some e) :
    e.type = type := by
  have := List.find?_some h
  simpa using this

theorem mem_of_first? {type : Int} {es : List Entry} {e : Entry} (h : first? type es = some e) :
    e ∈ es := List.mem_of_find?_eq_some h

theorem type_ne_of_absent {type : Int} {es : List Entry} (h : first? type es = none) :
    ∀ e ∈ es, e.type ≠ type := by
  intro e he heq
  simpa [heq] using List.find?_eq_none.1 h e he

theorem any_type_eq (type : Int) (es : List Entry) :
    (es.any fun e => e.type = type) = (first? type es).isSome := by
  induction es with
  | nil => rfl
  | cons e es ih =>
    rw [List.any_cons, ih]
    unfold first?
    rw [List.find?_cons]
    cases decide (e.type = type) <;> rfl

section UpdateFirst

variable (type : Int) {f : Entry → Entry} (hf : ∀ e, (f e).type = e.type)
include hf

theorem first?_updateFirst_self (es : List Entry) :
    first? type (updateFirst type f es) = (first? type es).map f := by
  induction es with
  | nil => rfl
  | cons e es ih =>
    rw [updateFirst]
    split
    · rename_i h
      simp [first?, hf, h]
    · rename_i h
      simpa [first?, h] using ih

theorem first?_updateFirst_of_ne {t : Int} (ht : t ≠ type) (es : List Entry) :
    first? t (updateFirst type f es) = first? t es := by
  induction es with
  | nil => rfl
  | cons e es ih =>
    rw [updateFirst]
    split
    · rename_i h
      have hne : type ≠ t := fun h' => ht h'.symm
      simp [first?, hf, h, hne]
    · rw [first?, List.find?_cons, first?, List.find?_cons]
      split
      · rfl
      · exact ih

/-- The types of the entries stay what they are. -/
theorem map_type_updateFirst (es : List Entry) :
    (updateFirst type f es).map Entry.type = es.map Entry.type := by
  induction es with
  | nil => rfl
  | cons e es ih =>
    rw [updateFirst]
    split
    · rw [List.map_cons, List.map_cons, hf]
    · rw [List.map_cons, List.map_cons, ih]

end UpdateFirst

/-- A change of the first entry that leaves it as it is. -/
theorem updateFirst_eq_self {type : Int} {f : Entry → Entry} {es : List Entry} {e : Entry}
    (hfirst : first? type es = some e) (hf : f e = e) : updateFirst type f es = es := by
  induction es with
  | nil => rfl
  | cons x xs ih =>
    rw [first?, List.find?_cons] at hfirst
    rw [updateFirst]
    split at hfirst
    · rename_i hx
      cases hfirst
      rw [if_pos (of_decide_eq_true hx), hf]
    · rename_i hx
      rw [if_neg (of_decide_eq_false hx), ih hfirst]

theorem mem_updateFirst {type : Int} {f : Entry → Entry} {es : List Entry} {x : Entry}
    (h : x ∈ updateFirst type f es) : x ∈ es ∨ ∃ e ∈ es, e.type = type ∧ x = f e := by
  induction es with
  | nil => cases h
  | cons e es ih =>
    rw [updateFirst] at h
    split at h
    · rename_i ht
      obtain rfl | h := List.mem_cons.1 h
      · exact .inr ⟨e, List.mem_cons_self, ht, rfl⟩
      · exact .inl (List.mem_cons_of_mem _ h)
    · obtain rfl | h := List.mem_cons.1 h
      · exact .inl List.mem_cons_self
      · obtain h | ⟨e', he', hx⟩ := ih h
        · exact .inl (List.mem_cons_of_mem _ h)
        · exact .inr ⟨e', List.mem_cons_of_mem _ he', hx⟩

theorem first?_insertByType_of_ne {e : Entry} {t : Int} (ht : t ≠ e.type) (es : List Entry) :
    first? t (insertByType e es) = first? t es := by
  have hne : e.type ≠ t := fun h => ht h.symm
  induction es with
  | nil => simp [insertByType, first?, hne]
  | cons x xs ih =>
    rw [insertByType]
    split
    · simp [first?, hne]
    · rw [first?, List.find?_cons, first?, List.find?_cons]
      split
      · rfl
      · exact ih

theorem first?_insertByType_self {e : Entry} {es : List Entry} (h : first? e.type es = none) :
    first? e.type (insertByType e es) = some e := by
  induction es with
  | nil => simp [insertByType, first?]
  | cons x xs ih =>
    rw [insertByType]
    split
    · simp [first?]
    · rw [first?, List.find?_cons] at h
      split at h
      · cases h
      · rename_i hx
        rw [first?, List.find?_cons, hx]
        exact ih h

theorem perm_insertByType (e : Entry) (es : List Entry) : (insertByType e es).Perm (e :: es) := by
  induction es with
  | nil => exact .refl _
  | cons x xs ih =>
    rw [insertByType]
    split
    · exact .refl _
    · exact (ih.cons x).trans (.swap e x xs)

theorem eraseP_unused_cons_of_eq {e : Entry} (h : e.type = typeUnused) (es : List Entry) :
    (e :: es).eraseP (fun x => x.type = typeUnused) = es := by
  simp only [List.eraseP_cons, decide_eq_true h, cond_true]

theorem eraseP_unused_cons_of_ne {e : Entry} (h : e.type ≠ typeUnused) (es : List Entry) :
    (e :: es).eraseP (fun x => x.type = typeUnused) =
      e :: es.eraseP fun x => x.type = typeUnused := by
  simp only [List.eraseP_cons, decide_eq_false h, cond_false]

theorem first?_eraseP_unused {t : Int} (ht : t ≠ typeUnused) (es : List Entry) :
    first? t (es.eraseP fun x => x.type = typeUnused) = first? t es := by
  induction es with
  | nil => rfl
  | cons x xs ih =>
    by_cases hx : x.type = typeUnused
    · have hne : x.type ≠ t := by
        rw [hx]
        exact fun h => ht h.symm
      rw [eraseP_unused_cons_of_eq hx]
      simp [first?, hne]
    · rw [eraseP_unused_cons_of_ne hx, first?, List.find?_cons, first?, List.find?_cons]
      split
      · rfl
      · exact ih

theorem first?_addEntry_of_ne {e : Entry} {t : Int} (ht : t ≠ e.type) (hu : t ≠ typeUnused)
    (es : List Entry) : first? t (addEntry e es) = first? t es := by
  rw [addEntry, first?_insertByType_of_ne ht, first?_eraseP_unused hu]

theorem first?_addEntry_self {e : Entry} {t : Int} (ht : e.type = t) (hu : t ≠ typeUnused)
    {es : List Entry} (h : first? t es = none) : first? t (addEntry e es) = some e := by
  subst ht
  rw [addEntry]
  exact first?_insertByType_self (by rwa [first?_eraseP_unused hu])

theorem mem_addEntry {e x : Entry} {es : List Entry} (h : x ∈ addEntry e es) :
    x = e ∨ x ∈ es := by
  obtain h | h := List.mem_cons.1 ((perm_insertByType _ _).mem_iff.1 h)
  · exact .inl h
  · exact .inr (List.mem_of_mem_eraseP h)

/-! ## The entries of payloads -/

theorem entryType_ne_unused (k : PayloadKind) : k.entryType ≠ typeUnused := by
  cases k <;> decide

theorem entryType_lt (kind : PayloadKind) : 0 ≤ kind.entryType ∧ kind.entryType < 0x80 := by
  cases kind <;> decide

theorem entryType_injective {j k : PayloadKind} (h : j.entryType = k.entryType) : j = k := by
  cases j <;> cases k <;> first | rfl | exact absurd h (by decide)

theorem statedSize_of_ne {kind : PayloadKind} (h : kind ≠ .acm) (n : Nat) :
    kind.statedSize n = n := by
  cases kind with
  | acm => exact absurd rfl h
  | keyManifest => rfl
  | bootPolicy => rfl

theorem statedSize_lt {kind : PayloadKind} {n : Nat} (h : n < 0x1000000) :
    kind.statedSize n < 0x1000000 := by
  cases kind with
  | acm => exact Nat.zero_lt_succ _
  | keyManifest => exact h
  | bootPolicy => exact h

/-! ## Growth -/

/-- Only the types of the entries count. -/
theorem growth_congr {es es' : List Entry} (h : es.map Entry.type = es'.map Entry.type)
    (ks : List PayloadKind) : growth es ks = growth es' ks := by
  have hany : ∀ t : Int, (es.any fun e => e.type = t) = es'.any fun e => e.type = t := by
    intro t
    rw [← Function.comp_def (fun x : Int => decide (x = t)) Entry.type, ← List.any_map, h,
      List.any_map, Function.comp_def]
  have hcount : (es.countP fun e => e.type = typeUnused) =
      es'.countP fun e => e.type = typeUnused := by
    rw [← Function.comp_def (fun x : Int => decide (x = typeUnused)) Entry.type,
      ← List.countP_map, h, List.countP_map, Function.comp_def]
  simp only [growth, hany, hcount]

/-- A table with entries for all payloads does not grow. -/
theorem growth_eq_zero {es : List Entry} {kinds : List PayloadKind}
    (h : ∀ k ∈ kinds, first? k.entryType es ≠ none) : growth es kinds = 0 := by
  have hnone : (kinds.filter fun k => !es.any fun e => e.type = k.entryType) = [] := by
    refine List.filter_eq_nil_iff.2 fun k hk => ?_
    rw [any_type_eq, Option.isSome_iff_ne_none.2 (h k hk)]
    decide
  rw [growth, hnone, List.length_nil, Nat.zero_sub]

theorem growth_cons_of_present {es : List Entry} {k : PayloadKind} {e : Entry}
    (h : first? k.entryType es = some e) (ks : List PayloadKind) :
    growth es (k :: ks) = growth es ks := by
  rw [growth, growth, List.filter_cons, any_type_eq, h]
  rfl

/-- A changed entry is no entry more. -/
theorem growth_updateFirst {f : Entry → Entry} (hf : ∀ e, (f e).type = e.type) {es : List Entry}
    {k : PayloadKind} {e : Entry} (h : first? k.entryType es = some e) (ks : List PayloadKind) :
    (updateFirst k.entryType f es).length + growth (updateFirst k.entryType f es) ks =
      es.length + growth es (k :: ks) := by
  have hmap := map_type_updateFirst k.entryType hf es
  have hlen := congrArg List.length hmap
  rw [List.length_map, List.length_map] at hlen
  rw [growth_congr hmap, growth_cons_of_present h, hlen]

/-- An entry more makes the table longer, unless it takes the place of an unused one. -/
theorem growth_addEntry {es : List Entry} {e : Entry} {k : PayloadKind} (he : e.type = k.entryType)
    (h : first? k.entryType es = none) {ks : List PayloadKind} (hk : k ∉ ks) :
    (addEntry e es).length + growth (addEntry e es) ks = es.length + growth es (k :: ks) := by
  have hmissing : (ks.filter fun j => !(addEntry e es).any fun x => x.type = j.entryType) =
      ks.filter fun j => !es.any fun x => x.type = j.entryType := by
    refine List.filter_congr fun j hj => ?_
    have hne : j.entryType ≠ e.type := by
      rw [he]
      rintro hjk
      exact hk (entryType_injective hjk ▸ hj)
    rw [any_type_eq, any_type_eq, first?_addEntry_of_ne hne (entryType_ne_unused j)]
  have hunused : ¬ e.type = typeUnused := by
    rw [he]
    exact entryType_ne_unused k
  have hlen := (perm_insertByType e (es.eraseP fun x => x.type = typeUnused)).length_eq
  have hcount := (perm_insertByType e (es.eraseP fun x => x.type = typeUnused)).countP_eq
    fun x => x.type = typeUnused
  rw [List.countP_cons_of_neg (by simpa using hunused)] at hcount
  rw [List.length_cons] at hlen
  rw [growth, growth, hmissing, addEntry, hlen, hcount, List.filter_cons, any_type_eq, h,
    Option.isSome_none, Bool.not_false, if_pos rfl, List.length_cons]
  generalize (ks.filter fun j => !es.any fun x => x.type = j.entryType).length = missing
  by_cases hany : ∃ x ∈ es, x.type = typeUnused
  · obtain ⟨y, hy, htype⟩ := hany
    obtain ⟨x, l1, l2, _, hx, heq, herase⟩ := List.exists_of_eraseP
      (p := fun x => decide (x.type = typeUnused)) hy (decide_eq_true htype)
    have hcons : (x :: l2).countP (fun x => x.type = typeUnused) =
        l2.countP (fun x => x.type = typeUnused) + 1 := List.countP_cons_of_pos hx
    rw [herase, heq]
    simp only [List.length_append, List.length_cons, List.countP_append, hcons]
    omega
  · have hnone : ∀ x ∈ es, ¬ decide (x.type = typeUnused) = true := by
      intro x hx hx'
      exact hany ⟨x, hx, of_decide_eq_true hx'⟩
    rw [List.eraseP_of_forall_not hnone, List.countP_eq_zero.2 hnone]
    omega

end BootGuard.Fit
