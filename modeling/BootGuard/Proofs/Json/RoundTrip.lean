/-
  Records survive the way into a document and back.

  A record is described by a document that is read as the record again, whatever its integers and
  byte strings are (`Record.read_toJson`). What a record has to bring along is that no list of
  digests in it holds an algorithm twice; what is read from a document always does
  (`Record.distinct_of_ofJson`), as the conversion of a list checks it.
-/
import BootGuard.Proofs.Json.Elements
import BootGuard.Proofs.Json.Records
import BootGuard.Record

namespace BootGuard

open Update

/-! ## Lists of digests -/

theorem DigestList.nodup_of_ofJson {d : Json} {l : DigestList} (h : ofJson d = .ok l) :
    l.algorithms.Nodup := by
  obtain ⟨digests, _, hl⟩ := bind_eq_ok_iff.1 h
  exact (ofDigests_eq_ok_iff.1 hl).2

theorem BootBlock.nodup_of_ofJson {d : Json} {e : BootBlock} (h : ofJson d = .ok e) :
    e.digestList.algorithms.Nodup := by
  obtain ⟨_, h⟩ := result_eq_ok_iff.1 h
  have hkeeps : Keeps (fun e : BootBlock => e.digestList.algorithms.Nodup) (load d) := by
    refine .bind (keeps_loadInts ?_) fun _ => .bind (keeps_loadField ?_) fun _ =>
      .bind (keeps_loadField ?_) fun _ => .bind (keeps_loadField_of_read ?_) fun _ =>
      .bind (keeps_loadField ?_) fun _ => keeps_loadField ?_
    · simp [fields, headFields, bodyFields, entryFields]
    · exact fun _ _ hs => hs
    · exact fun _ _ hs => hs
    · exact fun _ _ _ hread _ => DigestList.nodup_of_ofJson hread
    · exact fun _ _ hs => hs
    · exact fun _ _ hs => hs
  have hlast := hkeeps {} List.nodup_nil
  rwa [h] at hlast

theorem TrustedBoot.nodup_of_ofJson {d : Json} {e : TrustedBoot} (h : ofJson d = .ok e) :
    e.digestList.algorithms.Nodup := by
  obtain ⟨_, h⟩ := result_eq_ok_iff.1 h
  have hkeeps : Keeps (fun e : TrustedBoot => e.digestList.algorithms.Nodup) (load d) := by
    refine .bind (keeps_loadInts ?_) fun _ => .bind (keeps_loadField ?_) fun _ =>
      .bind (keeps_loadField_of_read ?_) fun _ => keeps_loadField ?_
    · simp [fields, headFields, bodyFields]
    · exact fun _ _ hs => hs
    · exact fun _ _ _ hread _ => DigestList.nodup_of_ofJson hread
    · exact fun _ _ hs => hs
  have hlast := hkeeps {} List.nodup_nil
  rwa [h] at hlast

/-! ## Elements -/

namespace Element

/-- No list of digests in the element holds an algorithm twice. -/
def DistinctDigests : Element → Prop
  | bootBlock e => e.digestList.algorithms.Nodup
  | trustedBoot e => e.digestList.algorithms.Nodup
  | policyHeader _ _ | signature _ | keyManifest _ _ => True

instance (e : Element) : Decidable e.DistinctDigests := by
  cases e <;> unfold DistinctDigests <;> infer_instance

theorem read_toJson {e : Element} (h : e.DistinctDigests) :
    ofJson e.kind e.toJson = .ok e.withoutOffset := by
  cases e with
  | policyHeader p offset => exact congrArg (Except.map _) p.describes.read_eq
  | bootBlock e => exact congrArg (Except.map _) (BootBlock.describes h).read_eq
  | trustedBoot e => exact congrArg (Except.map _) (TrustedBoot.describes h).read_eq
  | signature e => exact congrArg (Except.map _) e.describes.read_eq
  | keyManifest b offset => exact congrArg (Except.map _) b.describes.read_eq

/-- What is read from a document is of the kind asked for and holds no offset. -/
theorem distinct_of_ofJson {kind : ElementKind} {d : Json} {e : Element}
    (h : ofJson kind d = .ok e) : e.kind = kind ∧ e.withoutOffset = e ∧ e.DistinctDigests := by
  cases kind with
  | policyHeader =>
    obtain ⟨p, _, rfl⟩ := map_eq_ok_iff.1 h
    exact ⟨rfl, rfl, trivial⟩
  | bootBlock =>
    obtain ⟨e, he, rfl⟩ := map_eq_ok_iff.1 h
    exact ⟨rfl, rfl, BootBlock.nodup_of_ofJson he⟩
  | trustedBoot =>
    obtain ⟨e, he, rfl⟩ := map_eq_ok_iff.1 h
    exact ⟨rfl, rfl, TrustedBoot.nodup_of_ofJson he⟩
  | signature =>
    obtain ⟨e, _, rfl⟩ := map_eq_ok_iff.1 h
    exact ⟨rfl, rfl, trivial⟩
  | keyManifest =>
    obtain ⟨b, _, rfl⟩ := map_eq_ok_iff.1 h
    exact ⟨rfl, rfl, trivial⟩

end Element

/-! ## Records -/

namespace Record

/-- The record without the offset of a key signature, which is no part of what it says. -/
def withoutOffset : Record → Record
  | element e => element e.withoutOffset
  | r => r

/-- No list of digests in the record holds an algorithm twice. -/
def DistinctDigests : Record → Prop
  | digestList l => l.algorithms.Nodup
  | element e => e.DistinctDigests
  | digest _ | segment _ | key _ | signature _ | keySignature _ | keyHash _ => True

theorem same_withoutOffset (r : Record) : r.withoutOffset.same r = true := by
  cases r with
  | element e => cases e <;> simp [withoutOffset, same, Element.withoutOffset]
  | _ => exact same_self _

theorem read_toJson {r : Record} (h : r.DistinctDigests) :
    ofJson r.type r.toJson = .ok r.withoutOffset := by
  cases r with
  | digest d => exact congrArg (Except.map _) d.describes.read_eq
  | digestList l => exact congrArg (Except.map _) (DigestList.describes h).read_eq
  | segment s => exact congrArg (Except.map _) s.describes.read_eq
  | key k => exact congrArg (Except.map _) k.describes.read_eq
  | signature s => exact congrArg (Except.map _) s.describes.read_eq
  | keySignature k => exact congrArg (Except.map _) k.describes.read_eq
  | keyHash k => exact congrArg (Except.map _) k.describes.read_eq
  | element e => exact congrArg (Except.map _) (Element.read_toJson h)

/-- What is read from a document is of the type asked for and holds no offset. -/
theorem distinct_of_ofJson {t : RecordType} {d : Json} {r : Record} (h : ofJson t d = .ok r) :
    r.type = t ∧ r.withoutOffset = r ∧ r.DistinctDigests := by
  cases t with
  | digestList =>
    obtain ⟨l, hl, rfl⟩ := map_eq_ok_iff.1 h
    exact ⟨rfl, rfl, DigestList.nodup_of_ofJson hl⟩
  | element kind =>
    obtain ⟨e, he, rfl⟩ := map_eq_ok_iff.1 h
    obtain ⟨hkind, hoffset, hdistinct⟩ := Element.distinct_of_ofJson he
    exact ⟨congrArg _ hkind, congrArg _ hoffset, hdistinct⟩
  | _ =>
    obtain ⟨x, _, rfl⟩ := map_eq_ok_iff.1 h
    exact ⟨rfl, rfl, trivial⟩

/-- A record in which no list of digests holds an algorithm twice is read back from its document,
all but the offset that it does not compare. So a record that was read from any document is read
from its own document again. -/
theorem ofJson_toJson :
    (∀ r : Record, r.DistinctDigests →
      ofJson r.type r.toJson = .ok r.withoutOffset ∧ r.withoutOffset.same r = true) ∧
    ∀ (t : RecordType) (d : Json) (r : Record), ofJson t d = .ok r → ofJson t r.toJson = .ok r := by
  constructor
  · intro r h
    exact ⟨read_toJson h, r.same_withoutOffset⟩
  · intro t d r h
    obtain ⟨rfl, hoffset, hdistinct⟩ := distinct_of_ofJson h
    rw [read_toJson hdistinct, hoffset]

/-- A boot block with integers that fit no field, no reserved bytes, and two digests. -/
def sampleWide : BootBlock where
  flags := -0x1000000000000
  entryPoint := 0x123456789ABCDEF0123456789
  rsvd2 := []
  digestList := ⟨[⟨Algorithm.sha1, [0xAB]⟩, ⟨Algorithm.sha256, []⟩]⟩

/-- The block survives, and so does a segment of which a document gives the base only. -/
theorem ofJson_toJson_sample :
    ofJson (.element .bootBlock) sampleWide.toJson = .ok (element (.bootBlock sampleWide)) ∧
    ofJson .segment (.obj [("base", .str "-0o17")]) = .ok (segment { base := -15 }) ∧
    ofJson .segment (segment { base := -15 }).toJson = .ok (segment { base := -15 }) := by
  have hdistinct : sampleWide.digestList.algorithms.Nodup := by decide
  have hread : ofJson .segment (.obj [("base", .str "-0o17")]) =
      .ok (segment { base := -15 }) := eq_ok_of_toOption (by decide +kernel)
  exact ⟨(ofJson_toJson.1 (element (.bootBlock sampleWide)) hdistinct).1, hread,
    ofJson_toJson.2 _ _ _ hread⟩

end Record

end BootGuard
