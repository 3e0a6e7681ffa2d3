/-
  Offsets are exact, and hold nothing of the past.

  What an encoding says about its own layout is true of it (`Manifest.LaidOut`), and follows from
  what the manifest says. Neither the key signature nor the offset that earlier encodings left
  behind shows in the signed region: manifests that are alike without them have it in common
  (`assemble_of_unsigned_eq`).
-/
import BootGuard.Manifest.Edit
import BootGuard.Proofs.Manifest.RoundTrip
import BootGuard.Proofs.Manifest.SignedRegion

namespace BootGuard

/-! ## The stated offset -/

/-- Bytes that end in the front part are those of the front part. -/
theorem Bytes.take_drop_append {i n : Nat} {a : Bytes} (h : i + n ≤ a.length) (b : Bytes) :
    ((a ++ b).drop i).take n = (a.drop i).take n := by
  rw [List.drop_append_of_le_length (by omega),
    List.take_append_of_le_length (by rw [List.length_drop]; omega)]

/-- Behind the head of an element stands its body. -/
theorem Frame.drop_of_encode {kind : ElementKind} {structVer var0 size : Int} {body b : Bytes}
    (h : Frame.encode kind structVer var0 size body = .ok b) : b.drop 12 = body := by
  obtain ⟨head, hhead, rfl⟩ := Frame.encode_eq_ok_iff_head.1 h
  exact List.drop_left' (Frame.length_of_encode hhead)

/-- The encoded header states the offset that it was given. -/
theorem PolicyHeader.stated_of_encode {h : PolicyHeader} {offset : UInt16} {b : Bytes}
    (hb : h.encode offset = .ok b) : (b.drop 12).take 2 = Bytes.ofNatLe 2 offset.toNat := by
  obtain ⟨body, _, henc⟩ := PolicyHeader.encode_eq_ok_iff.1 hb
  rw [Frame.drop_of_encode henc, List.take_left' (Bytes.length_ofNatLe _ _)]

namespace BootPolicy

theorem stated_of_signedRegion {p : BootPolicy} {region : Bytes} (h : p.signedRegion = .ok region) :
    Bytes.toNatLe ((region.drop 12).take 2) = region.length := by
  obtain ⟨_, middle, header, head, _, hh, he, hle, rfl⟩ := signedRegion_eq_ok_iff.1 h
  have hheader := PolicyHeader.length_of_encode hh
  have hlt : offsetAfter middle.length < 65536 := Nat.lt_succ_of_le hle
  rw [List.append_assoc, Bytes.take_drop_append (by omega), ← List.append_assoc,
    PolicyHeader.stated_of_encode hh, Bytes.toNatLe_ofNatLe, length_signedRegion hh he,
    UInt16.toNat_ofNat_of_lt' hlt]
  exact Nat.mod_eq_of_lt hlt

end BootPolicy

namespace KeyManifest

theorem stated_of_signedRegion {k : KeyManifest} {region : Bytes}
    (h : k.signedRegion = .ok region) :
    Bytes.toNatLe ((region.drop 12).take 2) = region.length := by
  obtain ⟨_, hb⟩ := signedRegion_eq_ok_iff.1 h
  obtain ⟨off, fixed, count, hashes, hoff, _, _, _, henc⟩ :=
    KeyManifestBody.encode_eq_ok_iff_writtenAt.1 hb
  obtain ⟨hlen, hval⟩ := packInt_eq_ok_iff_toNatLe.1 hoff
  rw [Frame.drop_of_encode henc]
  simp only [List.append_assoc]
  rw [List.take_left' hlen]
  exact (Int.natCast_inj.1 hval).symm

end KeyManifest

namespace Manifest

/-- The signed region states where it ends. -/
theorem stated_of_signedRegion {m : Manifest} {region : Bytes} (h : m.signedRegion = .ok region) :
    Bytes.toNatLe ((region.drop 12).take 2) = region.length ∧ 14 ≤ region.length := by
  cases m with
  | bootPolicy p =>
    refine ⟨BootPolicy.stated_of_signedRegion h, ?_⟩
    obtain ⟨_, middle, header, head, _, hh, he, _, rfl⟩ := BootPolicy.signedRegion_eq_ok_iff.1 h
    rw [BootPolicy.length_signedRegion hh he, BootPolicy.offsetAfter]
    omega
  | keyManifest k =>
    refine ⟨KeyManifest.stated_of_signedRegion h, ?_⟩
    obtain ⟨_, hb⟩ := KeyManifest.signedRegion_eq_ok_iff.1 h
    obtain ⟨hashes, _, henc⟩ := KeyManifestBody.encode_eq_ok_iff.1 hb
    rw [KeyManifestBody.length_of_encodeWith henc, KeyManifestBody.offsetFor, Frame.headSize,
      KeyManifestBody.fixedSize]
    omega

/-- The end of the signed region is the length of the region, whatever offset is kept. -/
theorem signedRegionEnd_of_signedRegion {m : Manifest} {region : Bytes}
    (h : m.signedRegion = .ok region) : (signedRegionEnd.runOn m).1 = .ok region.length := by
  rw [signedRegionEnd, Update.runOn_get_bind]
  cases m with
  | bootPolicy p =>
    simp only [Update.runOn_ofExcept]
    exact BootPolicy.signedRegionEnd_of_signedRegion h
  | keyManifest k =>
    have hbody := KeyManifest.encodeBody_eq_ok_iff.2
      ⟨(KeyManifest.signedRegion_eq_ok_iff.1 h).2, rfl⟩
    simp only [runOn_onKeyManifest]
    rw [KeyManifest.signedRegionEnd, Update.runOn_bind, hbody]
    rfl

theorem runOn_totalLength {m m' : Manifest} {b : Bytes} (h : assemble.runOn m = (.ok b, m')) :
    totalLength.runOn m = (.ok b.length, m') := by
  rw [totalLength, Update.runOn_bind, h]
  rfl

/-! ## Layouts -/

/-- What the manifest says of its encoding `b` is true: the signed region ends at `stop`, where
the key signature starts, and the encoding states this itself. -/
structure LaidOut (m : Manifest) (b : Bytes) (stop : Nat) : Prop where
  stop_eq : (signedRegionEnd.runOn m).1 = .ok stop
  stated : Bytes.toNatLe ((b.drop 12).take 2) = stop
  stop_le : stop ≤ b.length
  signature : KeySignature.encode? m.keySignature = .ok (b.drop stop)
  total : (totalLength.runOn m).1 = .ok (stop + (b.drop stop).length)

theorem laidOut_of_signedRegion {m : Manifest} {region signature : Bytes}
    (hr : m.signedRegion = .ok region) (hs : KeySignature.encode? m.keySignature = .ok signature) :
    m.LaidOut (region ++ signature) region.length := by
  obtain ⟨hstated, hlen⟩ := stated_of_signedRegion hr
  have hasm : assemble.runOn m = (.ok (region ++ signature), m.withOffset region.length) :=
    assemble_eq_ok_iff.2 ⟨region, signature, hr, hs, rfl, rfl⟩
  constructor
  · exact signedRegionEnd_of_signedRegion hr
  · rw [Bytes.take_drop_append hlen]
    exact hstated
  · rw [List.length_append]
    omega
  · rw [List.drop_left]
    exact hs
  · rw [runOn_totalLength hasm, List.drop_left, List.length_append]

/-! ## Histories -/

theorem withOffset_eq_of_eq {m n : Manifest} (h : m.withOffset 0 = n.withOffset 0) (i : Nat) :
    m.withOffset i = n.withOffset i := by
  have hi := congrArg (withOffset i) h
  rwa [withOffset_withOffset, withOffset_withOffset] at hi

/-- A change of what a manifest says, which takes no account of the kept offset. -/
structure Edit where
  change : Manifest → Manifest
  change_withOffset : ∀ n m, change (m.withOffset n) = (change m).withOffset n

/-- Another key signature. -/
def Edit.keySignature (s : Option KeySignature) : Edit where
  change := withKeySignature s
  change_withOffset := withKeySignature_withOffset s

theorem load_withOffset (part : Section) (d : Json) (n : Nat) (m : Manifest) :
    ((load part d).runOn (m.withOffset n)).2 = ((load part d).runOn m).2.withOffset n := by
  cases m with
  | bootPolicy p =>
    cases part with
    | header => simp only [load, withOffset, runOn_onBootPolicy, Update.runOn_onPart]
    | signature => simp only [load, withOffset, runOn_onBootPolicy, Update.runOn_onPart]
    | trustedBoot =>
      simp only [load, withOffset, runOn_onBootPolicy, loadTrustedBoot, Update.runOn_get_bind]
      split
      · rfl
      · simp only [Update.runOn_onPart]
      · rename_i d _ _ _ _
        cases TrustedBoot.ofJson d with
        | error e => rfl
        | ok t => rfl
    | bootBlock index =>
      simp only [load, withOffset, runOn_onBootPolicy, loadBootBlock, Update.runOn_get_bind]
      cases p.bootBlocks[index]? with
      | none => rfl
      | some e => simp only [Update.runOn_onPart]
    | newBootBlock =>
      simp only [load, withOffset, runOn_onBootPolicy]
      cases BootBlock.ofJson d with
      | error e => rfl
      | ok e => rfl
    | body => rfl
  | keyManifest k =>
    cases part with
    | body => simp only [load, withOffset, runOn_onKeyManifest, Update.runOn_onPart]
    | _ => rfl

/-- The part of a manifest that a document changes, as far as it can be read. -/
def Edit.load (part : Section) (d : Json) : Edit where
  change m := ((Manifest.load part d).runOn m).2
  change_withOffset := load_withOffset part d

/-- Something that is done to a manifest. -/
inductive Operation
  | assemble
  | signedRegionEnd
  | edit (e : Edit)

namespace Operation

def isEdit : Operation → Bool
  | edit _ => true
  | _ => false

/-- The manifest that an operation leaves behind, also where it fails. -/
def run : Operation → Manifest → Manifest
  | assemble, m => (Manifest.assemble.runOn m).2
  | signedRegionEnd, m => (Manifest.signedRegionEnd.runOn m).2
  | edit e, m => e.change m

/-- The manifest that a history leaves behind. -/
def runAll (history : List Operation) (m : Manifest) : Manifest :=
  history.foldl (fun m o => o.run m) m

/-- What is not an edit changes nothing but the kept offset. -/
theorem run_of_not_isEdit {o : Operation} (h : o.isEdit = false) (m : Manifest) :
    (o.run m).withOffset 0 = m.withOffset 0 := by
  cases o with
  | assemble => exact keeps_assemble m m rfl
  | signedRegionEnd => exact keeps_signedRegionEnd m m rfl
  | edit e => cases h

theorem run_edit_congr (e : Edit) {m n : Manifest} (h : m.withOffset 0 = n.withOffset 0) :
    ((edit e).run m).withOffset 0 = ((edit e).run n).withOffset 0 := by
  rw [run, run, ← e.change_withOffset, ← e.change_withOffset, h]

/-- A history comes to the same as its edits alone, but for the kept offset. -/
theorem runAll_filter (history : List Operation) {m n : Manifest}
    (h : m.withOffset 0 = n.withOffset 0) :
    (runAll history m).withOffset 0 =
      (runAll (history.filter isEdit) n).withOffset 0 := by
  induction history generalizing m n with
  | nil => exact h
  | cons o history ih =>
    cases hedit : o.isEdit with
    | true =>
      rw [List.filter_cons_of_pos hedit]
      cases o with
      | edit e => exact ih (run_edit_congr e h)
      | _ => cases hedit
    | false =>
      rw [List.filter_cons_of_neg (by rw [hedit]; decide)]
      exact ih ((run_of_not_isEdit hedit m).trans h)

end Operation

/-! ## Encodings of manifests that are alike -/

/-- The manifest without its key signature and without the offset that it keeps. -/
def unsigned (m : Manifest) : Manifest := (m.withKeySignature none).withOffset 0

theorem signedRegion_unsigned_iff {m : Manifest} {region : Bytes} :
    m.unsigned.signedRegion = .ok region ↔ m.signedRegion = .ok region := by
  rw [unsigned, signedRegion_withOffset_iff, signedRegion_withKeySignature]

theorem assemble_congr {m n m' : Manifest} {b : Bytes} (h : m.withOffset 0 = n.withOffset 0)
    (hm : assemble.runOn m = (.ok b, m')) : assemble.runOn n = (.ok b, m') := by
  obtain ⟨region, signature, hr, hs, rfl, rfl⟩ := assemble_eq_ok_iff.1 hm
  refine assemble_eq_ok_iff.2 ⟨region, signature, ?_, ?_, rfl, withOffset_eq_of_eq h _⟩
  · rw [← signedRegion_withOffset_iff (n := 0), ← h, signedRegion_withOffset_iff]
    exact hr
  · rw [← keySignature_withOffset 0, ← h, keySignature_withOffset]
    exact hs

/-- Two manifests that are alike without their key signatures and kept offsets have the same
signed region, laid out as it says, before they are encoded and behind that. The past has no part
in an encoding: it is that of a manifest to which nothing has been done but the edits. -/
theorem assemble_of_unsigned_eq {m n m' n' : Manifest} {b c : Bytes}
    (hsame : m.unsigned = n.unsigned) (hm : assemble.runOn m = (.ok b, m'))
    (hn : assemble.runOn n = (.ok c, n')) :
    ∃ stop, b.take stop = c.take stop ∧ m.LaidOut b stop ∧ m'.LaidOut b stop ∧
      n.LaidOut c stop ∧ n'.LaidOut c stop ∧ assemble.runOn m' = (.ok b, m') ∧
      ∀ (history : List Operation) (start fresh : Manifest), Operation.runAll history start = m →
        fresh.withOffset 0 =
          (Operation.runAll (history.filter Operation.isEdit) start).withOffset 0 →
        assemble.runOn fresh = (.ok b, m') := by
  have hagain := assemble_idem hm
  obtain ⟨region, signature, hr, hs, rfl, rfl⟩ := assemble_eq_ok_iff.1 hm
  obtain ⟨region', signature', hr', hs', rfl, rfl⟩ := assemble_eq_ok_iff.1 hn
  have hregion := signedRegion_unsigned_iff.2 hr
  rw [hsame, signedRegion_unsigned_iff, hr'] at hregion
  cases hregion
  refine ⟨region.length, ?_, laidOut_of_signedRegion hr hs, ?_, laidOut_of_signedRegion hr' hs',
    ?_, hagain, fun history start fresh hstart hfresh => ?_⟩
  · rw [List.take_left, List.take_left]
  · refine laidOut_of_signedRegion (signedRegion_withOffset_iff.2 hr) ?_
    rw [keySignature_withOffset]
    exact hs
  · refine laidOut_of_signedRegion (signedRegion_withOffset_iff.2 hr') ?_
    rw [keySignature_withOffset]
    exact hs'
  · refine assemble_congr ?_ hm
    rw [hfresh, ← hstart]
    exact Operation.runAll_filter history rfl

/-- The sample is encoded, gets a key signature and has its stack enlarged. -/
def sampleHistory : List Operation :=
  [.assemble, .edit (.keySignature (some {})),
    .edit (.load .header (.obj [("nem_pages", .int 2)])), .signedRegionEnd]

/-- What is encoded behind a history has the signed region of a manifest without a key signature
that never was encoded, and the encoding of one that was no more than edited. -/
theorem assemble_of_unsigned_eq_sample :
    ∃ b c m' stop, assemble.runOn (Operation.runAll sampleHistory (.bootPolicy samplePolicy)) =
        (.ok b, m') ∧
      (assemble.runOn (.bootPolicy { samplePolicy with header := { nemPages := 2 } })).1 = .ok c ∧
      b ≠ c ∧ b.take stop = c.take stop ∧ m'.LaidOut b stop ∧
      assemble.runOn (.bootPolicy
        { samplePolicy with header := { nemPages := 2 }, signature := {} }) = (.ok b, m') := by
  have hm := Update.runOn_of_isOk [] (u := assemble)
    (s := Operation.runAll sampleHistory (.bootPolicy samplePolicy)) (by decide +kernel)
  have hn := Update.runOn_of_isOk [] (u := assemble)
    (s := .bootPolicy { samplePolicy with header := { nemPages := 2 } }) (by decide +kernel)
  obtain ⟨stop, htake, _, hlaid, _, _, _, hhistory⟩ :=
    assemble_of_unsigned_eq (by decide +kernel) hm hn
  refine ⟨_, _, _, stop, hm, congrArg Prod.fst hn, by decide +kernel, htake, hlaid, ?_⟩
  exact hhistory sampleHistory (.bootPolicy samplePolicy) _ rfl (by decide +kernel)

end Manifest

end BootGuard
