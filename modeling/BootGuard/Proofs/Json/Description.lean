/-
  Documents that describe a value.

  A document describes a value for a conversion if it is plain and the conversion takes it for
  that value. Integers and byte strings are described by their hexadecimal numerals, lists by
  the descriptions of their items, and a record by an object with a member for each of its
  fields: what such an object sets is the record again, whatever was there before
  (`loads_ints`, `loads_field`).
-/
import BootGuard.Proofs.Codec.Fields
import BootGuard.Proofs.Json.Text
import BootGuard.Proofs.Outcome
import BootGuard.Proofs.Text.Hexadecimal

namespace BootGuard

namespace Json

/-- The document `j` is plain and `read` takes it for `a`. -/
structure Describes {α : Type} (read : Json → Except Error α) (j : Json) (a : α) : Prop where
  plain : j.IsPlain
  read_eq : read j = .ok a

section Describes

variable {α : Type} {read : Json → Except Error α}

theorem describes_hexText (i : Int) : Describes toInt (.str (Text.hexText i)) i where
  plain := by
    refine .str (List.all_eq_true.2 fun c hc => ?_)
    obtain rfl | rfl | ⟨d, rfl⟩ := Text.mem_hexText hc
    · decide
    · decide
    · exact (by decide : ∀ d : Fin 16, isPlainChar (Nat.digitChar d) = true) d
  read_eq := by
    rw [toInt, Text.readInt?_hexText]

theorem describes_toHex (b : Bytes) : Describes toBytes (.str b.toHex) b where
  plain := by
    refine .str (List.all_eq_true.2 fun c hc => ?_)
    obtain ⟨d, rfl⟩ := Bytes.mem_toHex hc
    exact (by decide : ∀ d : Fin 16, isPlainChar (Text.digitChar d) = true) d
  read_eq := by
    rw [toBytes, Bytes.ofHex?_toHex]

/-- The items of a list are described one by one. -/
theorem describes_items {describe : α → Json} {as : List α}
    (h : ∀ a ∈ as, Describes read (describe a) a) :
    Describes (mapItems read) (.arr (as.map describe)) as where
  plain := by
    refine .arr fun j hj => ?_
    obtain ⟨a, ha, rfl⟩ := List.mem_map.1 hj
    exact (h a ha).plain
  read_eq := by
    refine mapM_eq_ok_iff.2 (List.forall₂_map_left_iff.2 ?_)
    exact List.forall₂_same.2 fun a ha => (h a ha).read_eq

end Describes

/-! ## Objects -/

/-- Names that can be the keys of one object. -/
def Keys (names : List String) : Prop := names.Nodup ∧ ∀ n ∈ names, isPlainText n = true

instance (names : List String) : Decidable (Keys names) := inferInstanceAs (Decidable (_ ∧ _))

section Members

variable {α : Type} {ms : List (String × Json)} {name : String} {j : Json}

theorem lookup_of_mem (h : (ms.map (·.1)).Nodup) (hm : (name, j) ∈ ms) :
    ms.lookup name = some j := by
  induction ms with
  | nil => cases hm
  | cons m ms ih =>
    rw [List.map_cons, List.nodup_cons] at h
    obtain rfl | hm := List.mem_cons.1 hm
    · exact List.lookup_cons_self
    · have hne : (name == m.1) = false := by
        refine beq_false_of_ne fun heq => h.1 ?_
        rw [← heq]
        exact List.mem_map_of_mem hm
      rw [List.lookup_cons, hne]
      exact ih h.2 hm

theorem isPlain_obj (hkeys : Keys (ms.map (·.1))) (h : ∀ m ∈ ms, m.2.IsPlain) :
    (obj ms).IsPlain :=
  .obj hkeys.1 (fun m hm => hkeys.2 m.1 (List.mem_map_of_mem hm)) h

theorem member?_of_mem (hkeys : Keys (ms.map (·.1))) (hm : (name, j) ∈ ms) :
    (obj ms).member? name = .ok (some j) := by
  rw [member?, lookup_of_mem hkeys.1 hm]

/-- The part of a manifest whose member is the one at place `i`. -/
theorem get?_obj (hkeys : Keys (ms.map (·.1))) (i : Nat) (hm : ms[i]? = some (name, j)) :
    (obj ms).get? name = .ok (some j) := by
  rw [get?, lookup_of_mem hkeys.1 (List.mem_of_getElem? hm)]

/-- A part that may be missing, which is described by null where it is. -/
theorem isPlain_part {a : Option α} {describe : α → Json} (h : ∀ x ∈ a, (describe x).IsPlain) :
    ((a.map describe).getD .null).IsPlain := by
  cases a with
  | none => exact .null
  | some x => exact h x rfl

/-- Such a part is read as what it describes. -/
theorem part?_obj {β : Type} {read : Json → Except Error β} {a : Option α} {describe : α → Json}
    {f : α → β} (hkeys : Keys (ms.map (·.1))) (i : Nat)
    (hm : ms[i]? = some (name, (a.map describe).getD .null))
    (h : ∀ x ∈ a, Describes read (describe x) (f x)) (hnull : ∀ x ∈ a, describe x ≠ .null) :
    (obj ms).part? name read = .ok (a.map f) := by
  rw [part?, get?_obj hkeys i hm, ok_bind]
  cases a with
  | none => rfl
  | some x =>
    -- This fact rules out the branch for null when the match is simplified.
    have hx : describe x ≠ .null := hnull x rfl
    simp only [Option.map_some, Option.getD_some, (h x rfl).read_eq, ok_bind]
    rfl

end Members

end Json

/-! ## Records -/

namespace Update

variable {σ α : Type}

/-- The update succeeds on every state and changes it by `f`. -/
def Loads (u : Update σ Unit) (f : σ → σ) : Prop := ∀ s, u.runOn s = (.ok (), f s)

theorem Loads.seq {u v : Update σ Unit} {f g : σ → σ} (hu : u.Loads f) (hv : v.Loads g) :
    Loads (do u; v) fun s => g (f s) := by
  intro s
  rw [runOn_bind, hu s]
  exact hv (f s)

theorem Loads.result_eq {u : Update σ Unit} {f : σ → σ} (hu : u.Loads f) (s : σ) :
    u.result s = .ok (f s) := by
  rw [result, hu s]

theorem loads_loadField {d j : Json} {name : String} {read : Json → Except Error α} {a : α}
    (hm : d.member? name = .ok (some j)) (hr : read j = .ok a) (set : α → σ → σ) :
    (loadField d name read set).Loads (set a) := by
  intro s
  simp only [loadField, hm, hr]
  exact runOn_modify (set a) s

end Update

namespace Json

variable {σ : Type} {fields : List (IntField σ)} {ms : List (String × Json)}

/-- The object that describes a record by its integer fields and by other members. -/
def record (fields : List (IntField σ)) (x : σ) (ms : List (String × Json)) : Json :=
  .obj (IntField.toMembers fields x ++ ms)

theorem map_fst_toMembers (x : σ) :
    (IntField.toMembers fields x ++ ms).map (·.1) = fields.map (·.name) ++ ms.map (·.1) := by
  rw [IntField.toMembers, List.map_append, List.map_map]
  rfl

section Record

variable (hkeys : Keys (fields.map (·.name) ++ ms.map (·.1)))

include hkeys

theorem isPlain_record (x : σ) (h : ms.Forall fun m => m.2.IsPlain) :
    (record fields x ms).IsPlain := by
  refine isPlain_obj ?_ fun m hm => ?_
  · rw [map_fst_toMembers]
    exact hkeys
  · obtain hm | hm := List.mem_append.1 hm
    · obtain ⟨f, _, rfl⟩ := List.mem_map.1 hm
      exact (describes_hexText _).plain
    · exact List.forall_iff_forall_mem.1 h m hm

theorem member?_record (x : σ) {name : String} {j : Json}
    (hm : (name, j) ∈ IntField.toMembers fields x ++ ms) :
    (record fields x ms).member? name = .ok (some j) := by
  refine member?_of_mem ?_ hm
  rw [map_fst_toMembers]
  exact hkeys

/-- The integer fields are set to what they are in the record. -/
theorem loads_ints (x : σ) :
    (Update.loadInts fields (record fields x ms)).Loads (IntField.copyAll fields x) := by
  have hfield : ∀ f ∈ fields, (Update.loadField (record fields x ms) f.name toInt f.set).Loads
      (f.set (f.get x)) := by
    intro f hf
    refine Update.loads_loadField (member?_record hkeys x ?_) (describes_hexText _).read_eq _
    exact List.mem_append_left _ (List.mem_map.2 ⟨f, hf, rfl⟩)
  have hall : ∀ fs : List (IntField σ), (∀ f ∈ fs, f ∈ fields) →
      (Update.loadInts fs (record fields x ms)).Loads (IntField.copyAll fs x) := by
    intro fs hfs
    induction fs with
    | nil => exact fun _ => rfl
    | cons f fs ih =>
      exact (hfield f (hfs f List.mem_cons_self)).seq
        (ih fun f hf => hfs f (List.mem_cons_of_mem _ hf))
  exact hall fields fun f hf => hf

/-- Another field is set to what its member, the one at place `i`, describes. -/
theorem loads_field {α : Type} (x : σ) (i : Nat) {name : String} {j : Json}
    (hm : ms[i]? = some (name, j)) {read : Json → Except Error α} {a : α}
    (h : Describes read j a) (set : α → σ → σ) :
    (Update.loadField (record fields x ms) name read set).Loads (set a) :=
  Update.loads_loadField
    (member?_record hkeys x (List.mem_append_right _ (List.mem_of_getElem? hm))) h.read_eq set

end Record

/-- A record of integer fields only. -/
theorem describes_flat (hkeys : Keys (fields.map (·.name))) (x base : σ)
    (hall : IntField.copyAll fields x base = x) :
    Describes (fun d => (Update.loadInts fields d).result base)
      (.obj (IntField.toMembers fields x)) x := by
  have hempty : Json.obj (IntField.toMembers fields x) = record fields x [] := by
    rw [record, List.append_nil]
  have hkeys' : Keys (fields.map (·.name) ++ ([] : List (String × Json)).map (·.1)) := by
    rw [List.map_nil, List.append_nil]
    exact hkeys
  rw [hempty]
  refine ⟨isPlain_record hkeys' x trivial, ?_⟩
  rw [(loads_ints hkeys' x).result_eq base, hall]

/-- A record of integer fields and one other field. -/
theorem describes_single {α : Type} {name : String} {read : Json → Except Error α} {j : Json}
    {a : α} {set : α → σ → σ} (hkeys : Keys (fields.map (·.name) ++ [name])) (x base : σ)
    (h : Describes read j a) (hall : set a (IntField.copyAll fields x base) = x) :
    Describes (fun d => (do
      Update.loadInts fields d
      Update.loadField d name read set : Update σ Unit).result base)
      (record fields x [(name, j)]) x where
  plain := isPlain_record hkeys x h.plain
  read_eq := by
    rw [((loads_ints hkeys x).seq (loads_field hkeys x 0 rfl h set)).result_eq base, hall]

end Json

end BootGuard
