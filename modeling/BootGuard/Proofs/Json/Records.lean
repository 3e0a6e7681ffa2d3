/-
  Records and elements are what their documents describe.

  Whatever the integers and byte strings of a record are, the record that is read from its
  document is the record itself. Only lists of digests ask for something: that no algorithm
  stands in one twice.
-/
import BootGuard.Element
import BootGuard.Proofs.Codec.Records
import BootGuard.Proofs.Json.Description

namespace BootGuard

open Json

/-! ## Records -/

theorem Digest.describes (d : Digest) : Describes ofJson d.toJson d :=
  describes_single (by decide) d {} (describes_toHex d.buffer) rfl

theorem DigestList.describes {l : DigestList} (h : l.algorithms.Nodup) :
    Describes ofJson l.toJson l := by
  have hitems : Describes (mapItems Digest.ofJson) l.toJson l.digests :=
    describes_items fun d _ => d.describes
  refine ⟨hitems.plain, ?_⟩
  rw [ofJson, hitems.read_eq, ok_bind]
  exact ofDigests_eq_ok_iff.2 ⟨rfl, h⟩

theorem Segment.describes (s : Segment) : Describes ofJson s.toJson s :=
  describes_flat (by decide) s {} rfl

theorem KeyDescriptor.describes (k : KeyDescriptor) : Describes ofJson k.toJson k :=
  describes_single (by decide) k {} (describes_toHex k.data) rfl

theorem SignatureDescriptor.describes (s : SignatureDescriptor) : Describes ofJson s.toJson s :=
  describes_single (by decide) s {} (describes_toHex s.data) rfl

namespace KeySignature

theorem keys : Keys (fields.map (·.name) ++ ["key", "signature"]) := by decide

theorem describes (k : KeySignature) : Describes ofJson k.toJson k where
  plain := isPlain_record keys k ⟨k.key.describes.plain, k.signature.describes.plain⟩
  read_eq :=
    ((loads_ints keys k).seq
      ((loads_field keys k 0 rfl k.key.describes _).seq
        (loads_field keys k 1 rfl k.signature.describes _))).result_eq {}

theorem toJson?_eq (k : Option KeySignature) : toJson? k = (k.map toJson).getD .null := by
  cases k <;> rfl

theorem describes? (k : Option KeySignature) : Describes ofJson? (toJson? k) k := by
  cases k with
  | none => exact ⟨.null, rfl⟩
  | some k =>
    refine ⟨k.describes.plain, ?_⟩
    show (ofJson k.toJson).map some = .ok (some k)
    rw [k.describes.read_eq]
    rfl

end KeySignature

theorem KeyHash.describes (k : KeyHash) : Describes ofJson k.toJson k :=
  describes_single (by decide) k {} k.digest.describes rfl

/-! ## Elements -/

theorem PolicyHeader.describes (h : PolicyHeader) : Describes ofJson h.toJson h :=
  describes_flat (by decide) h {} rfl

namespace BootBlock

theorem keys : Keys (fields.map (·.name) ++
    ["rsvd2", "post_ibb_hash", "digest_list", "obb_hash", "segments"]) := by decide

theorem describes {e : BootBlock} (h : e.digestList.algorithms.Nodup) :
    Describes ofJson e.toJson e := by
  have hreserved := describes_toHex e.rsvd2
  have hpost := e.postIbbHash.describes
  have hlist := DigestList.describes h
  have hobb := e.obbHash.describes
  have hsegments : Describes (mapItems Segment.ofJson) _ e.segments :=
    describes_items fun s _ => s.describes
  exact {
    plain := isPlain_record keys e
      ⟨hreserved.plain, hpost.plain, hlist.plain, hobb.plain, hsegments.plain⟩
    read_eq :=
      ((loads_ints keys e).seq
        ((loads_field keys e 0 rfl hreserved _).seq
          ((loads_field keys e 1 rfl hpost _).seq
            ((loads_field keys e 2 rfl hlist _).seq
              ((loads_field keys e 3 rfl hobb _).seq
                (loads_field keys e 4 rfl hsegments _)))))).result_eq {} }

end BootBlock

namespace TrustedBoot

theorem keys : Keys (fields.map (·.name) ++ ["rsvd3", "digest_list", "segments"]) := by decide

theorem describes {e : TrustedBoot} (h : e.digestList.algorithms.Nodup) :
    Describes ofJson e.toJson e := by
  have hreserved := describes_toHex e.rsvd3
  have hlist := DigestList.describes h
  have hsegments : Describes (mapItems Segment.ofJson) _ e.segments :=
    describes_items fun s _ => s.describes
  exact {
    plain := isPlain_record keys e ⟨hreserved.plain, hlist.plain, hsegments.plain⟩
    read_eq :=
      ((loads_ints keys e).seq
        ((loads_field keys e 0 rfl hreserved _).seq
          ((loads_field keys e 1 rfl hlist _).seq
            (loads_field keys e 2 rfl hsegments _)))).result_eq {} }

end TrustedBoot

theorem SignatureElement.describes (e : SignatureElement) : Describes ofJson e.toJson e :=
  describes_single (by decide) e {} (KeySignature.describes? e.keySignature) rfl

namespace KeyManifestBody

theorem keys : Keys (fields.map (·.name) ++ ["rsvd2", "hashes"]) := by decide

theorem describes (b : KeyManifestBody) : Describes ofJson b.toJson b := by
  have hreserved := describes_toHex b.rsvd2
  have hhashes : Describes (mapItems KeyHash.ofJson) _ b.hashes :=
    describes_items fun k _ => k.describes
  exact {
    plain := isPlain_record keys b ⟨hreserved.plain, hhashes.plain⟩
    read_eq :=
      ((loads_ints keys b).seq
        ((loads_field keys b 0 rfl hreserved _).seq
          (loads_field keys b 1 rfl hhashes _))).result_eq {} }

end KeyManifestBody

end BootGuard
