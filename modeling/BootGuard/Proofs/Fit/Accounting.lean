/-
  What stitching does to the table, entry by entry.

  The growth of the table is foreseen from two numbers: how many kinds of payloads have no entry,
  and how many entries are unused. The payloads are then placed one at a time, and each may
  take an unused entry. `Accounts` says what the entries are behind some of the payloads, in
  terms of the entries at the start; one placement preserves it (`Accounts.place`), so a run
  does (`Accounts.placeAll`). `accounted_of_stitch` is about the table that is found in the
  result.
-/
import BootGuard.Proofs.Fit.Stitch

namespace BootGuard.Fit

/-! ## Entries before and after -/

/-- The kinds of payloads that there is no entry for. -/
def missing (es : List Entry) (kinds : List PayloadKind) : List PayloadKind :=
  kinds.filter fun k => !es.any fun e => e.type = k.entryType

/-- The entries but for the first `n` unused ones. -/
def withoutUnused : Nat → List Entry → List Entry
  | 0, es => es
  | _ + 1, [] => []
  | n + 1, e :: es =>
    if e.type = typeUnused then withoutUnused n es else e :: withoutUnused (n + 1) es

/-- Entries of which the first of each of some types may have another address and another size.
Everything else stays as it is. -/
inductive Retargeted : List Int → List Entry → List Entry → Prop
  | nil (types : List Int) : Retargeted types [] []
  | keep {types : List Int} {e : Entry} {es es' : List Entry} (he : e.type ∉ types)
      (h : Retargeted types es es') : Retargeted types (e :: es) (e :: es')
  | first {types : List Int} {e : Entry} {es es' : List Entry} (address size : Int)
      (he : e.type ∈ types) (h : Retargeted (types.filter (· ≠ e.type)) es es') :
      Retargeted types (e :: es) ({ e with address := address, size := size } :: es')

namespace Retargeted

variable {types : List Int} {es es' : List Entry} {t : Int}

theorem refl (es : List Entry) : Retargeted [] es es := by
  induction es with
  | nil => exact .nil _
  | cons e es ih => exact .keep List.not_mem_nil ih

/-- A type that no entry has makes no difference. -/
theorem append_of_notMem (h : Retargeted types es es') (ht : ∀ e ∈ es, e.type ≠ t) :
    Retargeted (types ++ [t]) es es' := by
  induction h with
  | nil => exact .nil _
  | keep he _ ih =>
    obtain ⟨hne, ht⟩ := List.forall_mem_cons.1 ht
    exact .keep (by simp [he, hne]) (ih ht)
  | first address size he _ ih =>
    obtain ⟨hne, ht⟩ := List.forall_mem_cons.1 ht
    refine .first address size (List.mem_append_left _ he) ?_
    rw [List.filter_append, List.filter_cons_of_pos (by simpa using hne.symm), List.filter_nil]
    exact ih ht

/-- Another type of which the first entry has changed. -/
theorem updateFirst (h : Retargeted types es es') (ht : t ∉ types) {f : Entry → Entry}
    (hf : ∀ e, f e = { e with address := (f e).address, size := (f e).size }) :
    Retargeted (types ++ [t]) es (updateFirst t f es') := by
  induction h with
  | nil => exact .nil _
  | @keep types e es es' he h ih =>
    rw [Fit.updateFirst]
    split
    · rename_i heq
      rw [hf e]
      refine .first _ _ (by simp [heq]) ?_
      rw [heq, List.filter_append, List.filter_cons_of_neg (by simp), List.filter_nil,
        List.append_nil, List.filter_eq_self.2]
      · exact h
      · intro x hx
        exact decide_eq_true fun hxt => ht (hxt ▸ hx)
    · rename_i hne
      exact .keep (by simp [he, hne]) (ih ht)
  | @first types e es es' address size he h ih =>
    have hne : e.type ≠ t := fun heq => ht (heq ▸ he)
    rw [Fit.updateFirst, if_neg hne]
    refine .first address size (List.mem_append_left _ he) ?_
    rw [List.filter_append, List.filter_cons_of_pos (by simpa using hne.symm), List.filter_nil]
    exact ih fun hmem => ht (List.mem_filter.1 hmem).1

/-- The first unused entry is the same in both. -/
theorem eraseP_unused (h : Retargeted types es es') (hunused : typeUnused ∉ types) :
    Retargeted types (es.eraseP fun e => e.type = typeUnused)
      (es'.eraseP fun e => e.type = typeUnused) := by
  induction h with
  | nil => exact .nil _
  | @keep types e es es' he h ih =>
    by_cases hu : e.type = typeUnused
    · rwa [eraseP_unused_cons_of_eq hu, eraseP_unused_cons_of_eq hu]
    · rw [eraseP_unused_cons_of_ne hu, eraseP_unused_cons_of_ne hu]
      exact .keep he (ih hunused)
  | @first types e es es' address size he h ih =>
    have hu : e.type ≠ typeUnused := fun heq => hunused (heq ▸ he)
    have hu' : ({ e with address := address, size := size } : Entry).type ≠ typeUnused := hu
    rw [eraseP_unused_cons_of_ne hu, eraseP_unused_cons_of_ne hu']
    exact .first address size he (ih fun hmem => hunused (List.mem_filter.1 hmem).1)

end Retargeted

/-! ## Unused and missing entries -/

@[simp] theorem withoutUnused_zero (es : List Entry) : withoutUnused 0 es = es := by
  cases es <;> rfl

theorem withoutUnused_succ (n : Nat) (es : List Entry) : withoutUnused (n + 1) es =
    (withoutUnused n es).eraseP fun e => e.type = typeUnused := by
  induction es generalizing n with
  | nil => cases n <;> rfl
  | cons e es ih =>
    by_cases hu : e.type = typeUnused
    · cases n with
      | zero =>
        rw [withoutUnused_zero, withoutUnused, if_pos hu, withoutUnused_zero,
          eraseP_unused_cons_of_eq hu]
      | succ n => rw [withoutUnused, if_pos hu, withoutUnused, if_pos hu, ih]
    · have hcons : withoutUnused n (e :: es) = e :: withoutUnused n es := by
        cases n with
        | zero => rw [withoutUnused_zero, withoutUnused_zero]
        | succ n => rw [withoutUnused, if_neg hu]
      rw [withoutUnused, if_neg hu, hcons, eraseP_unused_cons_of_ne hu, ih]

theorem withoutUnused_sublist (n : Nat) (es : List Entry) : (withoutUnused n es).Sublist es := by
  induction n with
  | zero =>
    rw [withoutUnused_zero]
  | succ n ih =>
    rw [withoutUnused_succ]
    exact List.eraseP_sublist.trans ih

theorem missing_append_of_first {es : List Entry} {kind : PayloadKind} {e : Entry}
    (h : first? kind.entryType es = some e) (kinds : List PayloadKind) :
    missing es (kinds ++ [kind]) = missing es kinds := by
  rw [missing, List.filter_append, List.filter_cons, any_type_eq, h, missing]
  simp

theorem missing_append_of_absent {es : List Entry} {kind : PayloadKind}
    (h : first? kind.entryType es = none) (kinds : List PayloadKind) :
    missing es (kinds ++ [kind]) = missing es kinds ++ [kind] := by
  rw [missing, List.filter_append, List.filter_cons, any_type_eq, h, missing]
  simp

theorem entryType_mem_map_iff {kind : PayloadKind} {kinds : List PayloadKind} :
    kind.entryType ∈ kinds.map PayloadKind.entryType ↔ kind ∈ kinds := by
  rw [List.mem_map]
  constructor
  · intro h
    obtain ⟨k, hk, heq⟩ := h
    exact entryType_injective heq ▸ hk
  · intro h
    exact ⟨kind, h, rfl⟩

theorem unused_notMem_entryTypes (kinds : List PayloadKind) :
    typeUnused ∉ kinds.map PayloadKind.entryType := by
  intro h
  obtain ⟨k, _, hk⟩ := List.mem_map.1 h
  exact entryType_ne_unused k hk

/-! ## Entries of some types -/

section Filter

variable {p : Int → Bool}

theorem filter_type_cons_pos {e : Entry} (h : p e.type = true) (es : List Entry) :
    (e :: es).filter (p ·.type) = e :: es.filter (p ·.type) :=
  List.filter_cons_of_pos (p := fun x : Entry => p x.type) h

theorem filter_type_cons_neg {e : Entry} (h : p e.type = false) (es : List Entry) :
    (e :: es).filter (p ·.type) = es.filter (p ·.type) :=
  List.filter_cons_of_neg (p := fun x : Entry => p x.type) (by simp [h])

/-- A change of an entry that is among them. -/
theorem filter_updateFirst {t : Int} (ht : p t = true) {f : Entry → Entry}
    (hf : ∀ e, (f e).type = e.type) (es : List Entry) :
    (updateFirst t f es).filter (p ·.type) = updateFirst t f (es.filter (p ·.type)) := by
  induction es with
  | nil => rfl
  | cons e es ih =>
    by_cases h : e.type = t
    · have hp : p e.type = true := by rwa [h]
      have hfp : p (f e).type = true := by rwa [hf]
      rw [updateFirst, if_pos h, filter_type_cons_pos hfp, filter_type_cons_pos hp, updateFirst,
        if_pos h]
    · rw [updateFirst, if_neg h]
      cases hp : p e.type with
      | true => rw [filter_type_cons_pos hp, filter_type_cons_pos hp, updateFirst, if_neg h, ih]
      | false => rw [filter_type_cons_neg hp, filter_type_cons_neg hp, ih]

/-- A change of an entry that is not among them. -/
theorem filter_updateFirst_of_neg {t : Int} (ht : p t = false) {f : Entry → Entry}
    (hf : ∀ e, (f e).type = e.type) (es : List Entry) :
    (updateFirst t f es).filter (p ·.type) = es.filter (p ·.type) := by
  induction es with
  | nil => rfl
  | cons e es ih =>
    by_cases h : e.type = t
    · have hp : p e.type = false := by rwa [h]
      have hfp : p (f e).type = false := by rwa [hf]
      rw [updateFirst, if_pos h, filter_type_cons_neg hfp, filter_type_cons_neg hp]
    · rw [updateFirst, if_neg h, List.filter_cons, List.filter_cons, ih]

theorem filter_insertByType_of_neg {e : Entry} (he : p e.type = false) (es : List Entry) :
    (insertByType e es).filter (p ·.type) = es.filter (p ·.type) := by
  induction es with
  | nil => rw [insertByType, filter_type_cons_neg he]
  | cons x xs ih =>
    rw [insertByType]
    split
    · rw [filter_type_cons_neg he]
    · rw [List.filter_cons, List.filter_cons, ih]

/-- A new entry that is not among them. The unused ones are, so one of them goes. -/
theorem filter_addEntry_of_neg {e : Entry} (he : p e.type = false) (hu : p typeUnused = true)
    (es : List Entry) : (addEntry e es).filter (p ·.type) =
      (es.filter (p ·.type)).eraseP fun x => x.type = typeUnused := by
  rw [addEntry, filter_insertByType_of_neg he]
  induction es with
  | nil => rfl
  | cons x xs ih =>
    by_cases hx : x.type = typeUnused
    · have hp : p x.type = true := by rwa [hx]
      rw [filter_type_cons_pos hp, eraseP_unused_cons_of_eq hx, eraseP_unused_cons_of_eq hx]
    · rw [eraseP_unused_cons_of_ne hx]
      cases hp : p x.type with
      | true =>
        rw [filter_type_cons_pos hp, filter_type_cons_pos hp, eraseP_unused_cons_of_ne hx, ih]
      | false => rw [filter_type_cons_neg hp, filter_type_cons_neg hp, ih]

/-- A new entry that is among them. The unused ones are not. -/
theorem filter_addEntry_of_pos {e : Entry} (he : p e.type = true) (hu : p typeUnused = false)
    (es : List Entry) :
    ((addEntry e es).filter (p ·.type)).Perm (e :: es.filter (p ·.type)) := by
  have herase : (es.eraseP fun x => x.type = typeUnused).filter (p ·.type) =
      es.filter (p ·.type) := by
    induction es with
    | nil => rfl
    | cons x xs ih =>
      by_cases hx : x.type = typeUnused
      · have hp : p x.type = false := by rwa [hx]
        rw [filter_type_cons_neg hp, eraseP_unused_cons_of_eq hx]
      · rw [eraseP_unused_cons_of_ne hx, List.filter_cons, List.filter_cons, ih]
  have hperm := (perm_insertByType e (es.eraseP fun x => x.type = typeUnused)).filter (p ·.type)
  rw [filter_type_cons_pos he, herase] at hperm
  exact hperm

end Filter

/-! ## One placement -/

/-- What a placement may do to the entry of a payload of a kind and a length. -/
structure Retargets (kind : PayloadKind) (length : Nat) (f : Entry → Entry) : Prop where
  eq : ∀ e, f e = { e with address := (f e).address, size := (f e).size }
  size : ∀ e, (f e).size = kind.statedSize length ∨ (kind = .acm ∧ (f e).size = e.size)

theorem Retargets.type_eq {kind : PayloadKind} {length : Nat} {f : Entry → Entry}
    (h : Retargets kind length f) (e : Entry) : (f e).type = e.type := by
  rw [h.eq]

theorem retargets_landed (kind : PayloadKind) (offset n length : Nat) :
    Retargets kind length (landed kind offset n length) where
  eq _ := rfl
  size _ := .inl rfl

/-- What placing a payload can do to the entries: the first one of its type is changed, or there
is none and one is added. -/
theorem Workspace.place_entries {w w' : Workspace} {kind : PayloadKind} {payload : Bytes}
    (h : w.place kind payload = .ok w') :
    (∃ e f, first? kind.entryType w.entries = some e ∧ Retargets kind payload.length f ∧
      w'.entries = updateFirst kind.entryType f w.entries) ∨
    (first? kind.entryType w.entries = none ∧ ∃ offset : Nat, w'.entries =
      addEntry (landed kind offset w.image.length payload.length { type := kind.entryType })
        w.entries) := by
  cases hfirst : first? kind.entryType w.entries with
  | none =>
    rw [place_of_none hfirst] at h
    obtain ⟨offset, _, _, _, _, _, hentries⟩ := move_spec h
    rw [any_type_eq, hfirst, Option.isSome_none, if_neg (by simp)] at hentries
    exact .inr ⟨rfl, offset, hentries⟩
  | some e =>
    left
    obtain ⟨offset, oldSize, _, _, _, ⟨_, rfl⟩ | hmove⟩ := place_of_first hfirst h
    · refine ⟨e, _, rfl, ⟨fun x => ?_, fun x => ?_⟩, rfl⟩
      · split <;> rfl
      · cases kind with
        | acm => exact .inr ⟨rfl, rfl⟩
        | keyManifest => exact .inl rfl
        | bootPolicy => exact .inl rfl
    · obtain ⟨offset', _, _, _, _, _, hentries⟩ := move_spec hmove
      rw [any_type_eq, hfirst, Option.isSome_some, if_pos rfl] at hentries
      exact ⟨e, _, rfl, retargets_landed _ _ _ _, hentries⟩

/-- The types of the entries that some payloads have no entry of. -/
def missingTypes (es : List Entry) (kinds : List PayloadKind) : List Int :=
  (missing es kinds).map PayloadKind.entryType

/-- The entries behind the placement of some payloads, in terms of the entries at the start.
Payloads of kinds that there was no entry for have got one, in the place of unused entries as
long as there were some; the others have at most another address and size. -/
structure Accounts (es : List Entry) (done : List (PayloadKind × Bytes)) (es' : List Entry) :
    Prop where
  survivors : Retargeted ((done.map Prod.fst).map PayloadKind.entryType)
    (withoutUnused (missing es (done.map Prod.fst)).length es)
    (es'.filter fun e => e.type ∉ missingTypes es (done.map Prod.fst))
  added : ((es'.filter fun e => e.type ∈ missingTypes es (done.map Prod.fst)).map
    Entry.type).Perm (missingTypes es (done.map Prod.fst))
  added_eq : ∀ e ∈ es', e.type ∈ missingTypes es (done.map Prod.fst) →
    e = { type := e.type, address := e.address, size := e.size }
  stated : ∀ x ∈ done, x.1 ≠ .acm →
    ∃ e, first? x.1.entryType es' = some e ∧ e.size = x.2.length
  first_eq : ∀ k, k ∉ done.map Prod.fst → first? k.entryType es' = first? k.entryType es

theorem accounts_nil (es : List Entry) : Accounts es [] es where
  survivors := by simpa [missing, missingTypes] using Retargeted.refl es
  added := by simp [missing, missingTypes]
  added_eq := by simp [missing, missingTypes]
  stated := by simp
  first_eq _ _ := rfl

theorem entryType_mem_missingTypes_iff {es : List Entry} {kinds : List PayloadKind}
    {kind : PayloadKind} : kind.entryType ∈ missingTypes es kinds ↔ kind ∈ missing es kinds :=
  entryType_mem_map_iff

theorem missingTypes_append_of_first {es : List Entry} {kind : PayloadKind} {e : Entry}
    (h : first? kind.entryType es = some e) (kinds : List PayloadKind) :
    missingTypes es (kinds ++ [kind]) = missingTypes es kinds := by
  rw [missingTypes, missing_append_of_first h, missingTypes]

theorem missingTypes_append_of_absent {es : List Entry} {kind : PayloadKind}
    (h : first? kind.entryType es = none) (kinds : List PayloadKind) :
    missingTypes es (kinds ++ [kind]) = missingTypes es kinds ++ [kind.entryType] := by
  rw [missingTypes, missing_append_of_absent h, List.map_append]
  rfl

namespace Accounts

variable {es es' : List Entry} {done : List (PayloadKind × Bytes)} {kind : PayloadKind}
  {payload : Bytes}

section Other

variable {es'' : List Entry} (h : Accounts es done es')
  (hother : ∀ k : PayloadKind, k ≠ kind → first? k.entryType es'' = first? k.entryType es')
include h hother

/-- The entries for the payloads before stay what they were. -/
theorem stated_append (hkind : kind ∉ done.map Prod.fst)
    (hself : kind ≠ .acm → ∃ e, first? kind.entryType es'' = some e ∧ e.size = payload.length) :
    ∀ x ∈ done ++ [(kind, payload)], x.1 ≠ .acm →
      ∃ e, first? x.1.entryType es'' = some e ∧ e.size = x.2.length := by
  intro x hx hacm
  obtain hx | hx := List.mem_append.1 hx
  · rw [hother x.1 fun heq => hkind (heq ▸ List.mem_map_of_mem hx)]
    exact h.stated x hx hacm
  · obtain rfl := List.mem_singleton.1 hx
    exact hself hacm

theorem first_eq_append : ∀ k, k ∉ done.map Prod.fst ++ [kind] →
    first? k.entryType es'' = first? k.entryType es := by
  intro k hk
  rw [List.mem_append, List.mem_singleton, not_or] at hk
  rw [hother k hk.2]
  exact h.first_eq k hk.1

end Other

/-- A payload takes the entry of its kind. -/
theorem updateFirst {e : Entry} {f : Entry → Entry} (h : Accounts es done es')
    (hkind : kind ∉ done.map Prod.fst) (hfirst : first? kind.entryType es' = some e)
    (hf : Retargets kind payload.length f) :
    Accounts es (done ++ [(kind, payload)]) (updateFirst kind.entryType f es') := by
  have hkinds : (done ++ [(kind, payload)]).map Prod.fst = done.map Prod.fst ++ [kind] :=
    List.map_append
  have hpresent := (h.first_eq kind hkind).symm.trans hfirst
  have htypes := missingTypes_append_of_first hpresent (done.map Prod.fst)
  have hnot : kind.entryType ∉ missingTypes es (done.map Prod.fst) := by
    rw [entryType_mem_missingTypes_iff]
    exact fun hmem => hkind (List.mem_filter.1 hmem).1
  have hother : ∀ k : PayloadKind, k ≠ kind →
      first? k.entryType (Fit.updateFirst kind.entryType f es') = first? k.entryType es' :=
    fun k hk => first?_updateFirst_of_ne _ hf.type_eq (fun ht => hk (entryType_injective ht)) es'
  refine {
    survivors := ?survivors
    added := ?added
    added_eq := ?added_eq
    stated := h.stated_append hother hkind ?stated
    first_eq := hkinds ▸ h.first_eq_append hother }
  case survivors =>
    rw [hkinds, missing_append_of_first hpresent, htypes, List.map_append,
      filter_updateFirst (p := fun t => t ∉ missingTypes es (done.map Prod.fst))
        (decide_eq_true hnot) hf.type_eq]
    refine h.survivors.updateFirst ?_ hf.eq
    rwa [entryType_mem_map_iff]
  case added =>
    rw [hkinds, htypes, filter_updateFirst_of_neg
      (p := fun t => t ∈ missingTypes es (done.map Prod.fst)) (decide_eq_false hnot) hf.type_eq]
    exact h.added
  case added_eq =>
    rw [hkinds, htypes]
    intro x hx hmem
    obtain hx | ⟨y, _, hy, rfl⟩ := mem_updateFirst hx
    · exact h.added_eq x hx hmem
    · rw [hf.type_eq, hy] at hmem
      exact absurd hmem hnot
  case stated =>
    intro hacm
    refine ⟨f e, ?_, ?_⟩
    · rw [first?_updateFirst_self _ hf.type_eq, hfirst, Option.map_some]
    · obtain hsize | ⟨heq, _⟩ := hf.size e
      · rw [hsize, statedSize_of_ne hacm]
      · exact absurd heq hacm

/-- A payload gets an entry, and takes an unused one for it if there is one. -/
theorem addEntry {e : Entry} (h : Accounts es done es') (hkind : kind ∉ done.map Prod.fst)
    (hfirst : first? kind.entryType es' = none)
    (he : e = { type := kind.entryType, address := e.address, size := e.size })
    (hsize : e.size = kind.statedSize payload.length) :
    Accounts es (done ++ [(kind, payload)]) (addEntry e es') := by
  have htype : e.type = kind.entryType := congrArg Entry.type he
  have hkinds : (done ++ [(kind, payload)]).map Prod.fst = done.map Prod.fst ++ [kind] :=
    List.map_append
  have habsent := (h.first_eq kind hkind).symm.trans hfirst
  have htypes := missingTypes_append_of_absent habsent (done.map Prod.fst)
  -- No entry of the type was there, so it makes no difference to the others.
  have hmem_iff : ∀ x ∈ es', x.type ∈ missingTypes es (done.map Prod.fst) ++ [kind.entryType] ↔
      x.type ∈ missingTypes es (done.map Prod.fst) := by
    intro x hx
    rw [List.mem_append, List.mem_singleton, or_iff_left (type_ne_of_absent hfirst x hx)]
  have hself : e.type ∈ missingTypes es (done.map Prod.fst) ++ [kind.entryType] := by
    rw [htype]
    exact List.mem_append_right _ List.mem_cons_self
  have hunused : typeUnused ∉ missingTypes es (done.map Prod.fst) ++ [kind.entryType] := by
    rw [← htypes]
    exact unused_notMem_entryTypes _
  have hother : ∀ k : PayloadKind, k ≠ kind →
      first? k.entryType (Fit.addEntry e es') = first? k.entryType es' := by
    intro k hk
    refine first?_addEntry_of_ne (fun ht => hk (entryType_injective ?_)) (entryType_ne_unused k) es'
    rw [ht, htype]
  refine {
    survivors := ?survivors
    added := ?added
    added_eq := ?added_eq
    stated := h.stated_append hother hkind ?stated
    first_eq := hkinds ▸ h.first_eq_append hother }
  case survivors =>
    rw [hkinds, missing_append_of_absent habsent, htypes, List.map_append, List.length_append,
      List.length_singleton, withoutUnused_succ, filter_addEntry_of_neg
        (p := fun t => t ∉ missingTypes es (done.map Prod.fst) ++ [kind.entryType])
        (decide_eq_false (not_not_intro hself)) (decide_eq_true hunused),
      List.filter_congr fun x hx => decide_eq_decide.2 (not_congr (hmem_iff x hx))]
    refine (h.survivors.eraseP_unused (unused_notMem_entryTypes _)).append_of_notMem ?_
    intro x hx
    have hmem := (withoutUnused_sublist _ _).subset (List.mem_of_mem_eraseP hx)
    exact type_ne_of_absent habsent x hmem
  case added =>
    have hperm := filter_addEntry_of_pos
      (p := fun t => t ∈ missingTypes es (done.map Prod.fst) ++ [kind.entryType])
      (decide_eq_true hself) (decide_eq_false hunused) es'
    rw [List.filter_congr fun x hx => decide_eq_decide.2 (hmem_iff x hx)] at hperm
    have hadded := (hperm.map Entry.type).trans (h.added.cons e.type)
    rw [htype] at hadded
    rw [hkinds, htypes]
    exact hadded.trans (List.perm_append_singleton _ _).symm
  case added_eq =>
    rw [hkinds, htypes]
    intro x hx hmem
    obtain rfl | hx := mem_addEntry hx
    · rw [htype]
      exact he
    · exact h.added_eq x hx ((hmem_iff x hx).1 hmem)
  case stated =>
    intro hacm
    refine ⟨e, first?_addEntry_self htype (entryType_ne_unused kind) hfirst, ?_⟩
    rw [hsize, statedSize_of_ne hacm]

/-- One payload is placed behind some others. -/
theorem place {w w' : Workspace} (h : Accounts es done w.entries)
    (hkind : kind ∉ done.map Prod.fst) (hplace : w.place kind payload = .ok w') :
    Accounts es (done ++ [(kind, payload)]) w'.entries := by
  obtain ⟨e, f, hfirst, hf, heq⟩ | ⟨hfirst, offset, heq⟩ := Workspace.place_entries hplace
  · rw [heq]
    exact h.updateFirst hkind hfirst hf
  · rw [heq]
    exact h.addEntry hkind hfirst rfl rfl

/-- All payloads are placed. -/
theorem placeAll {w wf : Workspace} {list : List (PayloadKind × Bytes)}
    (h : Accounts es done w.entries) (hnodup : ((done ++ list).map Prod.fst).Nodup)
    (hrun : w.placeAll list = .ok wf) : Accounts es (done ++ list) wf.entries := by
  induction list generalizing w done with
  | nil =>
    cases hrun
    rwa [List.append_nil]
  | cons x list ih =>
    obtain ⟨kind, payload⟩ := x
    obtain ⟨w', hplace, hrun⟩ := Workspace.placeAll_cons_eq_ok_iff.1 hrun
    have hkind : kind ∉ done.map Prod.fst := by
      rw [List.map_append, List.map_cons] at hnodup
      exact fun hmem => (List.nodup_append.1 hnodup).2.2 kind hmem kind List.mem_cons_self rfl
    rw [List.append_cons] at hnodup ⊢
    exact ih (h.place hkind hplace) hnodup hrun

end Accounts

/-! ## Entries that fit -/

theorem fits_updateFirst {t : Int} {f : Entry → Entry} {es : List Entry}
    (h : ∀ e ∈ es, e.Fits) (hf : ∀ e, e.Fits → (f e).Fits) : ∀ e ∈ updateFirst t f es, e.Fits := by
  intro e he
  obtain he | ⟨x, hx, _, rfl⟩ := mem_updateFirst he
  · exact h e he
  · exact hf x (h x hx)

namespace Workspace

theorem fits_of_place {w w' : Workspace} {kind : PayloadKind} {payload : Bytes}
    (hw : ∀ e ∈ w.entries, e.Fits) (hlength : payload.length < 0x1000000)
    (h : w.place kind payload = .ok w') : ∀ e ∈ w'.entries, e.Fits := by
  have hstated : kind.statedSize payload.length < 0x1000000 := statedSize_lt hlength
  obtain ⟨_, f, _, hf, heq⟩ | ⟨_, offset, heq⟩ := place_entries h
  · rw [heq]
    refine fits_updateFirst hw fun e he => ⟨?_, by rw [hf.type_eq]; exact he.2⟩
    obtain hsize | ⟨_, hsize⟩ := hf.size e
    · rw [hsize]
      omega
    · rw [hsize]
      exact he.1
  · rw [heq]
    intro e he
    obtain rfl | he := mem_addEntry he
    · exact ⟨⟨Int.natCast_nonneg _, Int.ofNat_lt.2 hstated⟩, entryType_lt kind⟩
    · exact hw e he

theorem fits_of_placeAll {w wf : Workspace} {list : List (PayloadKind × Bytes)}
    (hw : ∀ e ∈ w.entries, e.Fits) (hlength : ∀ x ∈ list, x.2.length < 0x1000000)
    (h : w.placeAll list = .ok wf) : ∀ e ∈ wf.entries, e.Fits := by
  induction list generalizing w with
  | nil =>
    cases h
    exact hw
  | cons x list ih =>
    obtain ⟨w', hplace, hrun⟩ := placeAll_cons_eq_ok_iff.1 h
    obtain ⟨hx, hlist⟩ := List.forall_mem_cons.1 hlength
    exact ih (fits_of_place hw hx hplace) hlist hrun

end Workspace

/-! ## The table of the result -/

/-- The table of a stitched image has as many more entries as payloads without one exceed the
unused ones. It accounts for all entries there were, and its checksum is right. -/
theorem accounted_of_stitch {image out : Bytes} {payloads : Payloads}
    (hlength : ∀ kind, (payloads.get kind).length < 0x1000000)
    (h : stitch image payloads = .ok out) : ∃ offset header es, TableAt image offset header es ∧
      (es.length + 1 + growth es payloads.kinds < maxEntries → ∃ checksum es',
        entriesAt out offset =
          .ok ({ header with size := es'.length + 1, checksum := checksum } :: es') ∧
        es'.length = es.length +
          ((missing es payloads.kinds).length - es.countP fun e => e.type = typeUnused) ∧
        Accounts es payloads.toList es' ∧
        if header.checksumFlag = 0 then checksum = 0
        else byteSum ((out.drop offset).take ((es'.length + 1) * entrySize)) % 256 = 0) := by
  obtain ⟨offset, header, es, htable⟩ := exists_tableAt_of_stitch h
  obtain ⟨measured, w, table, hst⟩ := stitched_of_stitch htable h
  refine ⟨offset, header, es, htable, fun hcount => ?_⟩
  obtain ⟨_, _, _, _, hdecoded⟩ := htable.bounds
  have hfits : ∀ e ∈ w.entries, e.Fits := by
    refine Workspace.fits_of_placeAll ?_ ?_ hst.run
    · intro e he
      obtain ⟨x, rfl⟩ := hdecoded e he
      exact Entry.fits_decode x
    · intro x hx
      rw [(Payloads.mem_toList_iff.1 hx).1]
      exact hlength x.1
  obtain ⟨c, hread, hc⟩ := hst.entriesAt_out hcount
  rw [map_cut_of_fits hfits] at hread
  have haccounts : Accounts es ([] ++ payloads.toList) w.entries :=
    (accounts_nil es).placeAll payloads.nodup_kinds hst.run
  refine ⟨c, w.entries, hread, hst.length_entries, haccounts, ?_⟩
  have hlen : table.length = (w.entries.length + 1) * entrySize := by
    have heq := congrArg Prod.snd hst.interval_eq
    rw [tableInterval, Nat.add_right_comm, ← hst.length_entries] at heq
    exact Nat.add_left_cancel heq
  rwa [← hlen, hst.slice_out]

/-- An image of 0x100 bytes with a table of an unused entry, whose checksum counts. -/
def slottedImage : Bytes :=
  headText ++ Bytes.ofNatLe 4 2 ++ Bytes.ofNatLe 2 0x0100 ++ [0x80, 0xFC] ++
  Bytes.zeros 12 ++ Bytes.ofNatLe 2 0x0100 ++ [0x7F, 0] ++
  Bytes.erased 0xA0 ++ Bytes.ofNatLe 8 0xFFFFFF00 ++ Bytes.zeros 0x38

def slottedPayloads : Payloads := { keys := List.replicate 0x10 0x4B }

def slottedOut : Bytes := (stitch slottedImage slottedPayloads).toOption.getD []

theorem stitch_slotted : stitch slottedImage slottedPayloads = .ok slottedOut :=
  eq_ok_of_toOption (by decide +kernel)

/-- The key manifest takes the unused entry; the bytes of the table still add up to zero. -/
theorem accounted_of_stitch_sample : ∃ es checksum es',
    (∃ header, TableAt slottedImage 0 header es ∧ header.checksumFlag = 1 ∧
      entriesAt slottedOut 0 =
        .ok ({ header with size := es'.length + 1, checksum := checksum } :: es')) ∧
    es'.length = es.length ∧ Accounts es slottedPayloads.toList es' ∧
    byteSum ((slottedOut.drop 0).take ((es'.length + 1) * entrySize)) % 256 = 0 := by
  have hlength : ∀ kind, (slottedPayloads.get kind).length < 0x1000000 := by
    intro kind
    cases kind <;> decide
  obtain ⟨offset, header, es, htable, h⟩ := accounted_of_stitch hlength stitch_slotted
  obtain rfl : 0 = offset := by
    have hfind : findTable slottedImage = .ok 0 := eq_ok_of_toOption (by decide +kernel)
    exact Except.ok.inj (hfind.symm.trans htable.find)
  have hread : entriesAt slottedImage 0 =
      .ok [Entry.decode (slottedImage.take entrySize), { type := typeUnused }] :=
    eq_ok_of_toOption (by decide +kernel)
  obtain ⟨rfl, rfl⟩ := List.cons.inj (Except.ok.inj (hread.symm.trans htable.read))
  obtain ⟨checksum, es', hout, hcount, haccounts, hsum⟩ := h (by decide)
  have hflag : (Entry.decode (slottedImage.take entrySize)).checksumFlag = 1 := by
    decide +kernel
  rw [hflag, if_neg (by decide)] at hsum
  exact ⟨_, checksum, es', ⟨_, htable, hflag, hout⟩, hcount, haccounts, hsum⟩

end BootGuard.Fit
