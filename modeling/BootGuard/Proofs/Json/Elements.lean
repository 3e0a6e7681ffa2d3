/-
  Elements that documents describe, and what is read from their encodings.

  A document may give any number of reserved bytes, and no encoder minds: boot blocks and
  settings are written with as many as there are, bodies of key manifests with three. The
  reader takes three. So an element that a document describes is read back from its encoding
  exactly if the document gives three reserved bytes or none at all
  (`Element.run_read_of_ofJson`).
-/
import BootGuard.Proofs.Codec.Locality

namespace BootGuard

/-! ## Setting fields from a document -/

namespace Update

variable {σ α : Type} {P : σ → Prop} {d : Json} {name : String}

theorem runOn_loadField_eq_ok_iff {read : Json → Except Error α} {set : α → σ → σ} {s s' : σ}
    {u : Unit} : (loadField d name read set).runOn s = (.ok u, s') ↔
      (d.member? name = .ok none ∧ s' = s) ∨
        ∃ v a, d.member? name = .ok (some v) ∧ read v = .ok a ∧ s' = set a s := by
  unfold loadField
  rcases hm : d.member? name with e | _ | v
  · simp [runOn_throw]
  · simp [runOn_pure, eq_comm]
  · rcases hv : read v with e | a
    · simp [hv, runOn_throw]
    · simp [hv, runOn_modify, eq_comm]

/-- Only what a conversion yields is set. -/
theorem keeps_loadField_of_read {read : Json → Except Error α} {set : α → σ → σ}
    (hset : ∀ v a s, read v = .ok a → P s → P (set a s)) : Keeps P (loadField d name read set) := by
  unfold loadField
  split
  · exact keeps_throw _
  · exact keeps_pure _
  · split
    · exact keeps_throw _
    · rename_i hread
      exact keeps_modify fun s => hset _ _ s hread

theorem keeps_loadField {read : Json → Except Error α} {set : α → σ → σ}
    (hset : ∀ a s, P s → P (set a s)) : Keeps P (loadField d name read set) :=
  keeps_loadField_of_read fun _ a s _ => hset a s

theorem keeps_loadInts {fields : List (IntField σ)}
    (hset : ∀ f ∈ fields, ∀ v s, P s → P (f.set v s)) : Keeps P (loadInts fields d) := by
  induction fields with
  | nil => exact keeps_pure _
  | cons f fs ih =>
    exact (keeps_loadField (hset f List.mem_cons_self)).bind fun _ =>
      ih fun f hf => hset f (List.mem_cons_of_mem _ hf)

/-- A byte string that one field of a document sets and the others leave alone has three bytes
exactly if the field has, where it is not missing. -/
theorem length_of_load (part : σ → Bytes) {set : Bytes → σ → σ} {fields : List (IntField σ)}
    {rest : Update σ Unit} {s s' : σ} (hstart : (part s).length = 3)
    (hfields : ∀ f ∈ fields, ∀ v s, part (f.set v s) = part s)
    (hset : ∀ b s, part (set b s) = b)
    (hrest : ∀ b, Keeps (fun s => part s = b) rest)
    (h : (do loadInts fields d; loadField d name Json.toBytes set; rest).result s = .ok s') :
    (part s').length = 3 ↔
      ∀ v, d.member? name = .ok (some v) → ∃ b, v.toBytes = .ok b ∧ b.length = 3 := by
  obtain ⟨_, h⟩ := result_eq_ok_iff.1 h
  obtain ⟨_, s1, hints, h⟩ := runOn_bind_eq_ok_iff.1 h
  obtain ⟨_, s2, hfield, h⟩ := runOn_bind_eq_ok_iff.1 h
  have h1 : part s1 = part s := by
    have hkeep := keeps_loadInts (P := fun t => part t = part s) (d := d)
      (fun f hf v t ht => (hfields f hf v t).trans ht) s rfl
    rwa [hints] at hkeep
  have h2 : part s' = part s2 := by
    have hkeep := hrest (part s2) s2 rfl
    rwa [h] at hkeep
  obtain ⟨hnone, rfl⟩ | ⟨v, b, hv, hb, rfl⟩ := runOn_loadField_eq_ok_iff.1 hfield
  · simp [h2, h1, hstart, hnone]
  · simp [h2, hset, hv, hb]

end Update

/-! ## Reserved bytes -/

/-- The name of the reserved bytes in a document, for the kinds of elements that have any. -/
def ElementKind.reservedField? : ElementKind → Option String
  | bootBlock => some "rsvd2"
  | trustedBoot => some "rsvd3"
  | keyManifest => some "rsvd2"
  | policyHeader | signature => none

namespace Element

open Update

/-- The reserved bytes, for the kinds that have any. -/
def reserved? : Element → Option Bytes
  | bootBlock e => some e.rsvd2
  | trustedBoot e => some e.rsvd3
  | keyManifest b _ => some b.rsvd2
  | _ => none

theorem reserved?_withoutOffset (e : Element) : e.withoutOffset.reserved? = e.reserved? := by
  cases e <;> rfl

theorem Written.length_reserved {e : Element} {b : Bytes} (h : e.Written b) :
    ∀ r ∈ e.reserved?, r.length = 3 := by
  cases e with
  | bootBlock e => simpa [reserved?] using h.1
  | trustedBoot e => simpa [reserved?] using h.1
  | keyManifest k offset => simpa [reserved?] using h.1
  | _ => simp [reserved?]

/-- With three reserved bytes an encoding is that of an element as it is read. -/
theorem exists_written_of_encode {e : Element} {b : Bytes} (h : e.encode = .ok b)
    (hr : ∀ r ∈ e.reserved?, r.length = 3) :
    ∃ e' : Element, e'.Written b ∧ e'.withoutOffset = e.withoutOffset := by
  cases e with
  | policyHeader p offset => exact ⟨policyHeader p offset, h, rfl⟩
  | bootBlock e => exact ⟨bootBlock e, ⟨hr _ rfl, h⟩, rfl⟩
  | trustedBoot e => exact ⟨trustedBoot e, ⟨hr _ rfl, h⟩, rfl⟩
  | signature e => exact ⟨signature e, h, rfl⟩
  | keyManifest k offset =>
    exact ⟨keyManifest k b.length,
      ⟨hr _ rfl, KeyManifestBody.encode_eq_ok_iff_writtenAt.1 h⟩, rfl⟩

/-- An element is read back from its encoding, up to the offset, exactly if it has three reserved
bytes or is of a kind that has none. -/
theorem exists_run_read_iff {e : Element} {b : Bytes} (h : e.encode = .ok b) :
    (∃ e', read.run b 0 = .ok (e', b.length) ∧ e'.withoutOffset = e.withoutOffset) ↔
      ∀ r ∈ e.reserved?, r.length = 3 := by
  constructor
  · intro hall
    obtain ⟨e', hrun, heq⟩ := hall
    obtain ⟨_, x, _, hw, _⟩ := run_read_eq_ok_iff.1 hrun
    rw [← reserved?_withoutOffset, ← heq, reserved?_withoutOffset]
    exact hw.length_reserved
  · intro hr
    obtain ⟨e', hw, heq⟩ := exists_written_of_encode h hr
    exact ⟨e', run_read_eq_ok_iff.2 ⟨Int.le_refl 0, b, [], hw, (List.append_nil b).symm, rfl,
      fun _ => rfl⟩, heq⟩

/-- The reserved bytes of an element that a document describes are three exactly if the document
does not give another number of them. -/
theorem length_reserved_of_ofJson {kind : ElementKind} {d : Json} {e : Element}
    (h : ofJson kind d = .ok e) : (∀ r ∈ e.reserved?, r.length = 3) ↔
      ∀ name ∈ kind.reservedField?, ∀ v, d.member? name = .ok (some v) →
        ∃ b, v.toBytes = .ok b ∧ b.length = 3 := by
  cases kind with
  | policyHeader =>
    obtain ⟨p, _, rfl⟩ := map_eq_ok_iff.1 h
    simp [reserved?, ElementKind.reservedField?]
  | bootBlock =>
    obtain ⟨x, hx, rfl⟩ := map_eq_ok_iff.1 h
    have hlen := length_of_load BootBlock.rsvd2 rfl
      (by simp [BootBlock.fields, BootBlock.headFields, BootBlock.bodyFields,
        BootBlock.entryFields]) (fun _ _ => rfl) (fun b => ?_) hx
    · simpa [reserved?, ElementKind.reservedField?] using hlen
    · refine .bind (keeps_loadField ?_) fun _ => .bind (keeps_loadField ?_) fun _ =>
        .bind (keeps_loadField ?_) fun _ => keeps_loadField ?_
      all_goals exact fun _ _ hs => hs
  | trustedBoot =>
    obtain ⟨x, hx, rfl⟩ := map_eq_ok_iff.1 h
    have hlen := length_of_load TrustedBoot.rsvd3 rfl
      (by simp [TrustedBoot.fields, TrustedBoot.headFields, TrustedBoot.bodyFields])
      (fun _ _ => rfl) (fun b => ?_) hx
    · simpa [reserved?, ElementKind.reservedField?] using hlen
    · refine .bind (keeps_loadField ?_) fun _ => keeps_loadField ?_
      all_goals exact fun _ _ hs => hs
  | signature =>
    obtain ⟨x, _, rfl⟩ := map_eq_ok_iff.1 h
    simp [reserved?, ElementKind.reservedField?]
  | keyManifest =>
    obtain ⟨x, hx, rfl⟩ := map_eq_ok_iff.1 h
    have hlen := length_of_load KeyManifestBody.rsvd2 rfl
      (by simp [KeyManifestBody.fields, KeyManifestBody.headFields, KeyManifestBody.bodyFields])
      (fun _ _ => rfl) (fun b => ?_) hx
    · simpa [reserved?, ElementKind.reservedField?] using hlen
    · refine keeps_loadField ?_
      exact fun _ _ hs => hs

/-- An element that a document describes is read back from its encoding, which is used up, exactly
if the document gives three reserved bytes or does not mention them. -/
theorem run_read_of_ofJson {kind : ElementKind} {d : Json} {e : Element} {b : Bytes}
    (hload : ofJson kind d = .ok e) (henc : e.encode = .ok b) :
    (∃ e', read.run b 0 = .ok (e', b.length) ∧ e'.withoutOffset = e.withoutOffset) ↔
      ∀ name ∈ kind.reservedField?, ∀ v, d.member? name = .ok (some v) →
        ∃ r, v.toBytes = .ok r ∧ r.length = 3 :=
  (exists_run_read_iff henc).trans (length_reserved_of_ofJson hload)

/-- A boot block of one segment with given reserved bytes. -/
def sampleBlock (reserved : String) : Json :=
  .obj [("rsvd2", .str reserved), ("segments", .arr [.obj []])]

/-- Three reserved bytes are read back, one is not. -/
theorem run_read_of_ofJson_sample :
    (∃ e b e', ofJson .bootBlock (sampleBlock "0A0B0C") = .ok e ∧ e.encode = .ok b ∧
      read.run b 0 = .ok (e', b.length) ∧ e'.withoutOffset = e.withoutOffset) ∧
    ∃ e b, ofJson .bootBlock (sampleBlock "0A") = .ok e ∧ e.encode = .ok b ∧
      ¬ ∃ e', read.run b 0 = .ok (e', b.length) ∧ e'.withoutOffset = e.withoutOffset := by
  constructor
  · have hload : ofJson .bootBlock (sampleBlock "0A0B0C") =
        .ok (.bootBlock { rsvd2 := [0x0A, 0x0B, 0x0C], segments := [{}] }) :=
      eq_ok_of_toOption (by decide +kernel)
    have henc : (Element.bootBlock { rsvd2 := [0x0A, 0x0B, 0x0C], segments := [{}] }).encode =
        .ok _ := eq_ok_of_isOk [] (by decide)
    obtain ⟨e', hread⟩ := (run_read_of_ofJson hload henc).2 (by
      rintro _ ⟨⟩ _ ⟨⟩
      exact ⟨[0x0A, 0x0B, 0x0C], eq_ok_of_toOption (by decide +kernel), rfl⟩)
    exact ⟨_, _, e', hload, henc, hread⟩
  · have hload : ofJson .bootBlock (sampleBlock "0A") =
        .ok (.bootBlock { rsvd2 := [0x0A], segments := [{}] }) :=
      eq_ok_of_toOption (by decide +kernel)
    have henc : (Element.bootBlock { rsvd2 := [0x0A], segments := [{}] }).encode = .ok _ :=
      eq_ok_of_isOk [] (by decide)
    refine ⟨_, _, hload, henc, fun hread => ?_⟩
    obtain ⟨r, hr, hlen⟩ := (run_read_of_ofJson hload henc).1 hread "rsvd2" rfl (.str "0A") rfl
    have hone : (Json.str "0A").toBytes = .ok [0x0A] := eq_ok_of_toOption (by decide +kernel)
    rw [hone] at hr
    cases hr
    cases hlen

end Element

end BootGuard
