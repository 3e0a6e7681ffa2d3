/-
  Manifests built from a header and a list of records.

  A boot policy manifest is built from boot blocks, settings and a signature element in any
  order, and from nothing else (`BootPolicy.build_eq_ok_iff`), so whatever is assembled from
  them can be read back. A key manifest takes any record in the place of its key signature.
  `Manifest.ofBytes_encodeParts` says that this is the only way to get bytes that are no
  manifest.
-/
import BootGuard.Manifest.Building
import BootGuard.Proofs.Manifest.RoundTrip

namespace BootGuard

/-! ## The parts of a boot policy manifest -/

namespace Record

/-- The boot block that a record is. -/
def block? : Record → Option BootBlock
  | element (.bootBlock e) => some e
  | _ => none

/-- The settings of the measured launch that a record is. -/
def settings? : Record → Option TrustedBoot
  | element (.trustedBoot e) => some e
  | _ => none

/-- The signature element that a record is. -/
def signature? : Record → Option SignatureElement
  | element (.signature e) => some e
  | _ => none

/-- The record is of a type that stands behind the header of a boot policy manifest. -/
def BelongsInPolicy : Record → Prop
  | element (.bootBlock _) | element (.trustedBoot _) | element (.signature _) => True
  | _ => False

/-- The reserved bytes of an element in a boot policy manifest are as many as its encoding has
room for. -/
def ReservedFit : Record → Prop
  | element (.bootBlock e) => e.rsvd2.length = 3
  | element (.trustedBoot e) => e.rsvd3.length = 3
  | _ => True

end Record

section AtMostOne

variable {α : Type}

theorem toList_eq_toList_iff {a b : Option α} : a.toList = b.toList ↔ a = b := by
  cases a <;> cases b <;> simp

theorem toList_eq_append_singleton_iff {a b : Option α} {x : α} :
    b.toList = a.toList ++ [x] ↔ a = none ∧ b = some x := by
  cases a <;> cases b <;> simp

theorem exists_toList_of_length_le {as : List α} (h : as.length ≤ 1) :
    ∃ o : Option α, o.toList = as := by
  cases as with
  | nil => exact ⟨none, rfl⟩
  | cons x xs =>
    rw [List.length_cons] at h
    obtain rfl : xs = [] := List.length_eq_zero_iff.1 (by omega)
    exact ⟨some x, rfl⟩

/-- The front of a list of at most one item has at most one. -/
theorem exists_toList_of_append {a : Option α} {front back : List α}
    (h : a.toList = front ++ back) : ∃ b : Option α, b.toList = front := by
  have hlen := congrArg List.length h
  have hle := Option.length_toList_le (o := a)
  rw [List.length_append] at hlen
  exact exists_toList_of_length_le (by omega)

end AtMostOne

namespace BootPolicy

/-- A record is added to the part that it is; settings and a signature element only once. -/
theorem Parts.add_eq_ok_iff {parts parts' : Parts} {r : Record} :
    parts.add r = .ok parts' ↔ r.BelongsInPolicy ∧
      parts'.blocks = parts.blocks ++ r.block?.toList ∧
      parts'.settings.toList = parts.settings.toList ++ r.settings?.toList ∧
      parts'.signature.toList = parts.signature.toList ++ r.signature?.toList := by
  obtain ⟨blocks, settings, signature⟩ := parts
  obtain ⟨blocks', settings', signature'⟩ := parts'
  unfold Record.BelongsInPolicy Record.block? Record.settings? Record.signature?
  cases r with
  | element e =>
    cases e with
    | bootBlock b => simp [add, toList_eq_toList_iff, eq_comm]
    | trustedBoot t =>
      simp only [add, Option.toList_some, toList_eq_append_singleton_iff]
      cases settings <;> simp [toList_eq_toList_iff, eq_comm]
    | signature s =>
      simp only [add, Option.toList_some, toList_eq_append_singleton_iff]
      cases signature <;> simp [toList_eq_toList_iff, eq_comm]
    | _ => simp [add]
  | _ => simp [add]

/-- Behind all records the parts are those that were there and then those in the list. -/
theorem Parts.foldlM_add_eq_ok_iff {records : List Record} {parts parts' : Parts} :
    records.foldlM Parts.add parts = .ok parts' ↔ (∀ r ∈ records, r.BelongsInPolicy) ∧
      parts'.blocks = parts.blocks ++ records.filterMap Record.block? ∧
      parts'.settings.toList = parts.settings.toList ++ records.filterMap Record.settings? ∧
      parts'.signature.toList =
        parts.signature.toList ++ records.filterMap Record.signature? := by
  induction records generalizing parts with
  | nil =>
    obtain ⟨blocks, settings, signature⟩ := parts
    obtain ⟨blocks', settings', signature'⟩ := parts'
    simp [pure_eq_ok, toList_eq_toList_iff, eq_comm]
  | cons r rs ih =>
    have hcons {β : Type} (f : Record → Option β) :
        (r :: rs).filterMap f = (f r).toList ++ rs.filterMap f := by
      rw [List.filterMap_cons]
      cases f r <;> rfl
    simp only [List.foldlM_cons, bind_eq_ok_iff, ih, add_eq_ok_iff, hcons, List.forall_mem_cons]
    constructor
    · intro h
      obtain ⟨m, ⟨hr, hb, hs, hg⟩, hrs, hb', hs', hg'⟩ := h
      refine ⟨⟨hr, hrs⟩, ?_, ?_, ?_⟩
      · rw [hb', hb, List.append_assoc]
      · rw [hs', hs, List.append_assoc]
      · rw [hg', hg, List.append_assoc]
    · intro h
      obtain ⟨⟨hr, hrs⟩, hb, hs, hg⟩ := h
      rw [← List.append_assoc] at hb hs hg
      obtain ⟨settings, hsettings⟩ := exists_toList_of_append hs
      obtain ⟨signature, hsignature⟩ := exists_toList_of_append hg
      rw [← hsettings] at hs
      rw [← hsignature] at hg
      exact ⟨⟨_, settings, signature⟩, ⟨hr, rfl, hsettings, hsignature⟩, hrs, hb, hs, hg⟩

/-- A manifest is built exactly from boot blocks, settings at most once and one signature
element, in any order. -/
theorem build_eq_ok_iff {header : PolicyHeader} {offset : UInt16} {records : List Record}
    {p : BootPolicy} : build header offset records = .ok p ↔
      (∀ r ∈ records, r.BelongsInPolicy) ∧
      records.filterMap Record.block? = p.bootBlocks ∧
      records.filterMap Record.settings? = p.trustedBoot.toList ∧
      records.filterMap Record.signature? = [p.signature] ∧
      p.header = header ∧ p.keySignatureOffset = offset := by
  rw [build, bind_eq_ok_iff]
  constructor
  · intro hall
    obtain ⟨parts, hfold, h⟩ := hall
    obtain ⟨hbelong, hb, hs, hg⟩ := Parts.foldlM_add_eq_ok_iff.1 hfold
    cases hsig : parts.signature with
    | none =>
      rw [hsig] at h
      cases h
    | some s =>
      rw [hsig] at h hg
      cases h
      exact ⟨hbelong, hb.symm, hs.symm, hg.symm, rfl, rfl⟩
  · intro h
    obtain ⟨hbelong, hb, hs, hg, rfl, rfl⟩ := h
    refine ⟨⟨p.bootBlocks, p.trustedBoot, some p.signature⟩,
      Parts.foldlM_add_eq_ok_iff.2 ⟨hbelong, hb.symm, hs.symm, hg.symm⟩, rfl⟩

theorem reservedFit_of_build {header : PolicyHeader} {offset : UInt16} {records : List Record}
    {p : BootPolicy} (hfit : ∀ r ∈ records, r.ReservedFit)
    (h : build header offset records = .ok p) : p.ReservedFit := by
  obtain ⟨_, hb, hs, _⟩ := build_eq_ok_iff.1 h
  constructor
  · intro b hmem
    rw [← hb] at hmem
    obtain ⟨r, hr, hblock⟩ := List.mem_filterMap.1 hmem
    have := hfit r hr
    unfold Record.block? at hblock
    split at hblock
    · cases hblock
      exact this
    · cases hblock
  · intro t ht
    rw [Option.mem_def, ← Option.mem_toList, ← hs] at ht
    obtain ⟨r, hr, hsettings⟩ := List.mem_filterMap.1 ht
    have := hfit r hr
    unfold Record.settings? at hsettings
    split at hsettings
    · cases hsettings
      exact this
    · cases hsettings

end BootPolicy

/-! ## What stands behind the body of a key manifest -/

theorem Record.length_pos_of_encode {r : Record} {b : Bytes} (h : r.encode = .ok b) :
    0 < b.length := by
  cases r with
  | digest d =>
    rw [Digest.length_of_encode h, Digest.size]
    omega
  | digestList l =>
    obtain ⟨_, size, count, body, hsize, _, _, rfl⟩ := DigestList.encode_eq_ok_iff.1 h
    have hlen := length_of_packInt hsize
    simp only [List.length_append]
    omega
  | segment s =>
    have hlen : b.length = 12 := IntField.length_of_encodeAll h
    omega
  | key k =>
    obtain ⟨_, head, hhead, rfl⟩ := KeyDescriptor.encode_eq_ok_iff.1 h
    have hlen : head.length = 5 := IntField.length_of_encodeAll hhead
    rw [List.length_append]
    omega
  | signature s =>
    obtain ⟨_, head, hhead, rfl⟩ := SignatureDescriptor.encode_eq_ok_iff.1 h
    have hlen : head.length = 7 := IntField.length_of_encodeAll hhead
    rw [List.length_append]
    omega
  | keySignature k => exact List.length_pos_iff.2 (KeySignature.ne_nil_of_encode h)
  | keyHash k =>
    obtain ⟨usage, digest, husage, _, rfl⟩ := KeyHash.encode_eq_ok_iff.1 h
    have hlen : usage.length = 8 := IntField.length_of_encodeAll husage
    rw [List.length_append]
    omega
  | element e =>
    have hlen := congrArg List.length (Element.take_of_encode h)
    rw [List.length_take, ElementKind.length_id] at hlen
    omega

namespace KeyManifest

theorem encodeParts_eq_ok_iff {body : KeyManifestBody} {records : List Record} {b : Bytes} :
    encodeParts body records = .ok b ↔ ({ body := body } : KeyManifest).validate = .ok () ∧
      ∃ x, body.encode = .ok x ∧ ((records = [] ∧ b = x) ∨
        ∃ r y, records = [r] ∧ r.encode = .ok y ∧ b = x ++ y) := by
  have hrun {signature : Except Error Bytes} :
      ((assembleWith signature).runOn { body := body }).1 = .ok b ↔
        ({ body := body } : KeyManifest).validate = .ok () ∧
          ∃ x y, body.encode = .ok x ∧ signature = .ok y ∧ b = x ++ y := by
    constructor
    · intro h
      obtain ⟨hv, x, y, hx, hy, hb, _⟩ := assembleWith_eq_ok_iff.1 (Update.runOn_of_fst_eq_ok h)
      exact ⟨hv, x, y, hx, hy, hb⟩
    · intro h
      obtain ⟨hv, x, y, hx, hy, hb⟩ := h
      exact congrArg Prod.fst (assembleWith_eq_ok_iff.2 ⟨hv, x, y, hx, hy, hb, rfl⟩)
  match records with
  | [] =>
    rw [encodeParts, hrun]
    simp
  | [r] =>
    rw [encodeParts, hrun]
    simp
  | _ :: _ :: _ => simp [encodeParts]

/-- The body is read from its encoding, with as many reserved bytes as this has room for. -/
theorem read_of_encode {body : KeyManifestBody} {x : Bytes} (hx : body.encode = .ok x)
    (y : Bytes) : KeyManifestBody.read (Reader.start (x ++ y) 0) =
      .ok (({ body with rsvd2 := KeyManifestBody.reserved body.rsvd2 }, x.length),
        ⟨x.length, y⟩) := by
  rw [← KeyManifestBody.encode_reserved] at hx
  refine (KeyManifestBody.reads_read _ _ _ (Int.le_refl 0)).2 ⟨x, ⟨?_, ?_⟩, rfl, ?_⟩
  · exact KeyManifestBody.length_reserved _
  · exact KeyManifestBody.encode_eq_ok_iff_writtenAt.1 hx
  · exact (Int.zero_add _).symm

end KeyManifest

namespace Manifest

/-- What was read under strict order is assembled into the bytes it was read from. -/
theorem assemble_of_ofBytes_strict {m : Manifest} {b : Bytes} (h : ofBytes true b = .ok m) :
    assemble.runOn m = (.ok b, m) := by
  cases m with
  | bootPolicy p =>
    have hp := BootPolicy.ofBytes_strict_eq_ok_iff.1 (ofBytes_eq_bootPolicy_iff.1 h)
    exact assemble_bootPolicy_iff.2 hp.2
  | keyManifest k =>
    have hk := KeyManifest.ofBytes_eq_ok_iff.1 ((ofBytes_eq_keyManifest_iff true).1 h)
    exact assemble_keyManifest_iff.2 hk.2

/-- Behind the body of a key manifest a key signature is read or nothing. -/
theorem exists_ofBytes_append_iff {body : KeyManifestBody} {x y : Bytes}
    (hv : ({ body := body } : KeyManifest).validate = .ok ()) (hx : body.encode = .ok x) :
    (∃ m, ofBytes true (x ++ y) = .ok m) ↔ ∃ s, KeySignature.encode? s = .ok y := by
  have hid : (x ++ y).take 8 = ElementKind.keyManifest.id := by
    have hx8 := Element.take_of_encode (e := .keyManifest body 0) hx
    have hlen := congrArg List.length hx8
    rw [List.length_take, ElementKind.length_id] at hlen
    rw [List.take_append_of_le_length (by omega)]
    exact hx8
  constructor
  · intro h
    obtain ⟨m, hm⟩ := h
    rw [ofBytes_of_keyManifest hid, bind_eq_ok_iff] at hm
    obtain ⟨k, hk, _⟩ := hm
    obtain ⟨_, hasm⟩ := KeyManifest.ofBytes_eq_ok_iff.1 hk
    obtain ⟨_, x', sig, hx', hsig, heq, _⟩ := KeyManifest.assemble_eq_ok_iff.1 hasm
    -- The body that was assembled ends where the one that is read does.
    have hread := KeyManifest.read_of_encode hx y
    rw [heq, KeyManifest.read_of_encode hx' sig] at hread
    simp only [Except.ok.injEq, Prod.mk.injEq, Cursor.mk.injEq] at hread
    obtain ⟨_, _, rfl⟩ := hread
    exact ⟨_, hsig⟩
  · intro h
    obtain ⟨s, hs⟩ := h
    have hasm : KeyManifest.assemble.runOn { body := body, keySignature := s } =
        (.ok (x ++ y), _) :=
      KeyManifest.assemble_eq_ok_iff.2 ⟨hv, x, y, hx, hs, rfl, rfl⟩
    refine ⟨_, ofBytes_of_assemble true ?_ (assemble_keyManifest_iff.2 hasm)⟩
    rintro p ⟨⟩

/-- What is assembled from a header and further records is a manifest, also under strict order, and
is assembled from it again, exactly if the record behind the body of a key manifest is encoded like
a key signature. -/
theorem ofBytes_encodeParts {header : Record} {records : List Record} {b : Bytes}
    (hfit : ∀ r ∈ records, r.ReservedFit) (h : encodeParts header records = .ok b) :
    (∃ m, ofBytes true b = .ok m ∧ assemble.runOn m = (.ok b, m)) ↔
      ∀ body offset, header = .element (.keyManifest body offset) →
        ∀ r ∈ records, ∃ k : KeySignature, k.encode = r.encode := by
  have hiff : (∃ m, ofBytes true b = .ok m ∧ assemble.runOn m = (.ok b, m)) ↔
      ∃ m, ofBytes true b = .ok m :=
    exists_congr fun m => and_iff_left_of_imp assemble_of_ofBytes_strict
  rw [hiff]
  unfold encodeParts at h
  split at h
  · rename_i body offset
    obtain ⟨hv, x, hx, ⟨rfl, rfl⟩ | ⟨r, y, rfl, hy, rfl⟩⟩ := KeyManifest.encodeParts_eq_ok_iff.1 h
    · have hnone := (exists_ofBytes_append_iff (y := []) hv hx).2 ⟨none, rfl⟩
      rw [List.append_nil] at hnone
      simp [hnone]
    · rw [exists_ofBytes_append_iff hv hx]
      constructor
      · intro hs body' offset' _ r' hr'
        obtain ⟨s, hs⟩ := hs
        rw [List.mem_singleton.1 hr', hy]
        cases s with
        | none =>
          have hpos := Record.length_pos_of_encode hy
          cases hs
          cases hpos
        | some k => exact ⟨k, hs⟩
      · intro hall
        obtain ⟨k, hk⟩ := hall body offset rfl r (List.mem_singleton_self r)
        exact ⟨some k, hk.trans hy⟩
  · rename_i header offset
    obtain ⟨p, hp, hasm⟩ := bind_eq_ok_iff.1 h
    have hread := ofBytes_of_assemble_bootPolicy (BootPolicy.reservedFit_of_build hfit hp)
      (Update.runOn_of_fst_eq_ok hasm)
    exact iff_of_true ⟨_, hread⟩ nofun
  · cases h

/-- Boot blocks, settings and signature element in the wrong order make a manifest; a digest in the
place of the key signature of a key manifest makes none. -/
theorem ofBytes_encodeParts_sample :
    (∃ b m, encodeParts (.element (.policyHeader { nemPages := 1 } 0))
        [.element (.signature {}), .element (.trustedBoot {}),
          .element (.bootBlock { segments := [{}] })] = .ok b ∧
      ofBytes true b = .ok m ∧ assemble.runOn m = (.ok b, m)) ∧
    ∃ b, encodeParts (.element (.keyManifest {} 0)) [.digest {}] = .ok b ∧
      ¬ ∃ m, ofBytes true b = .ok m ∧ assemble.runOn m = (.ok b, m) := by
  constructor
  · have hparts : encodeParts (.element (.policyHeader { nemPages := 1 } 0))
        [.element (.signature {}), .element (.trustedBoot {}),
          .element (.bootBlock { segments := [{}] })] = .ok _ :=
      eq_ok_of_isOk [] (by decide +kernel)
    have hfit : ∀ r ∈ [Record.element (.signature {}), .element (.trustedBoot {}),
        .element (.bootBlock { segments := [{}] })], r.ReservedFit := by
      simp [Record.ReservedFit, Bytes.zeros]
    obtain ⟨m, hm⟩ := (ofBytes_encodeParts hfit hparts).2 (by rintro _ _ ⟨⟩)
    exact ⟨_, m, hparts, hm⟩
  · have hparts : encodeParts (.element (.keyManifest {} 0)) [.digest {}] = .ok _ :=
      eq_ok_of_isOk [] (by decide +kernel)
    refine ⟨_, hparts, fun hread => ?_⟩
    obtain ⟨k, hk⟩ := (ofBytes_encodeParts (by simp [Record.ReservedFit]) hparts).1 hread {} 0 rfl
      (.digest {}) (List.mem_singleton_self _)
    -- Four bytes are too few for a key signature.
    have hdigest : (Record.digest {}).encode = .ok [0x10, 0, 0, 0] := by decide
    have hlen := KeySignature.le_length_of_encode (hk.trans hdigest)
    exact absurd hlen (by decide)

end Manifest

end BootGuard
