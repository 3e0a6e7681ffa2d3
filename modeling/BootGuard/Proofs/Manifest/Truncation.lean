/-
  Encodings that have been cut off, and encodings with something behind them.

  Of all the parts of an encoding only one is taken for a manifest: the signed region, which is
  the encoding without the key signature. Any other part is refused, as too short unless it ends
  where an element does; and so is whatever goes on behind the encoding (`ofBytes_cut`). Behind
  its header a boot policy manifest is a list of elements, and what the reader makes of a part of
  them is found by induction on the list (`readElements_take`).
-/
import BootGuard.Proofs.Codec.Cuts
import BootGuard.Proofs.Manifest.RoundTrip
import BootGuard.Signing.Signature

namespace BootGuard

open Reader

/-- The computation fails because the input is no manifest. -/
def Malformed {α : Type} (x : Except Error α) : Prop := ∃ cause, x = .error (.invalidManifest cause)

theorem Malformed.bind {α β : Type} {x : Except Error α} (h : Malformed x)
    (f : α → Except Error β) : Malformed (x >>= f) := by
  obtain ⟨cause, rfl⟩ := h
  exact ⟨cause, rfl⟩

theorem Reader.WrittenAll.append {α : Type} {W : α → Bytes → Prop} {as as' : List α} {x x' : Bytes}
    (h : WrittenAll W as x) (h' : WrittenAll W as' x') : WrittenAll W (as ++ as') (x ++ x') := by
  induction as generalizing x with
  | nil =>
    obtain rfl : x = [] := h
    exact h'
  | cons a as ih =>
    obtain ⟨x1, x2, ha, has, rfl⟩ := h
    exact ⟨x1, x2 ++ x', ha, ih has, List.append_assoc _ _ _⟩

/-! ## Lists of elements -/

namespace Element

/-- The offset `n` is the end of an element in the encodings of the list, or the start of it, and
there is more to come. -/
def EndsAt (es : List Element) (n : Nat) : Prop :=
  ∃ front back b, es = front ++ back ∧ back ≠ [] ∧ encodeItems encode front = .ok b ∧ b.length = n

theorem endsAt_zero {e : Element} {es : List Element} : EndsAt (e :: es) 0 :=
  ⟨[], e :: es, [], rfl, List.cons_ne_nil _ _, rfl, rfl⟩

theorem endsAt_cons_iff {e : Element} {es : List Element} {x : Bytes} {n : Nat}
    (he : e.encode = .ok x) (hn : n ≠ 0) :
    EndsAt (e :: es) n ↔ x.length ≤ n ∧ EndsAt es (n - x.length) := by
  constructor
  · rintro ⟨front, back, b, hsplit, hback, hb, rfl⟩
    cases front with
    | nil =>
      cases hb
      exact absurd rfl hn
    | cons e' front =>
      obtain ⟨rfl, rfl⟩ := List.cons.inj hsplit
      simp only [encodeItems, bind_eq_ok_iff, pure_eq_ok, Except.ok.injEq] at hb
      obtain ⟨b1, h1, b2, h2, rfl⟩ := hb
      rw [he] at h1
      cases h1
      rw [List.length_append, Nat.add_sub_cancel_left]
      exact ⟨Nat.le_add_right _ _, front, back, b2, rfl, hback, h2, rfl⟩
  · rintro ⟨hle, front, back, b, rfl, hback, hb, hlen⟩
    refine ⟨e :: front, back, x ++ b, rfl, hback, ?_, ?_⟩
    · rw [encodeItems, he, ok_bind, hb, ok_bind, pure_eq_ok]
    · rw [List.length_append, hlen]
      omega

theorem not_endsAt_singleton {e : Element} {n : Nat} (hn : n ≠ 0) : ¬ EndsAt [e] n := by
  rintro ⟨front, back, b, hsplit, hback, hb, rfl⟩
  cases front with
  | nil =>
    cases hb
    exact hn rfl
  | cons e' front =>
    have htail := (List.cons.inj hsplit).2
    exact hback (List.append_eq_nil_iff.1 htail.symm).2

/-- An element of a boot policy manifest is written as its encoding. -/
theorem Written.encode_eq {e : Element} {b : Bytes} (h : e.Written b)
    (hkind : e.kind ≠ .keyManifest) : e.encode = .ok b := by
  refine h.encode_eq_iff.2 fun body offset he => ?_
  rw [he] at hkind
  exact absurd rfl hkind

end Element

namespace BootPolicy

/-! ## What the reader makes of elements -/

section Run

variable {strict settled : Bool} {s : SignatureElement} {es : List Element}

/-- The elements are those that stand behind a header, or the last of them, with `s` at the end;
`settled` says that the settings have come before. -/
inductive Arranged (s : SignatureElement) : Bool → List Element → Prop
  | signature {settled : Bool} : Arranged s settled [.signature s]
  | bootBlock {es : List Element} (b : BootBlock) (h : Arranged s false es) :
    Arranged s false (.bootBlock b :: es)
  | trustedBoot {es : List Element} (t : TrustedBoot) (h : Arranged s true es) :
    Arranged s false (.trustedBoot t :: es)

theorem arranged_elements (s : SignatureElement) (blocks : List BootBlock)
    (settings : Option TrustedBoot) : Arranged s false
      (blocks.map .bootBlock ++ (settings.map .trustedBoot).toList ++ [.signature s]) := by
  induction blocks with
  | nil =>
    cases settings with
    | none => exact .signature
    | some t => exact .trustedBoot t .signature
  | cons b blocks ih => exact .bootBlock b ih

/-- No signature element has been found, and no settings unless `settled` says so. -/
structure Found.Open (f : Found) (settled : Bool) : Prop where
  signature : f.signature = none
  settings : settled = false → f.settings = none

theorem Found.Open.add_bootBlock {f : Found} (h : f.Open false) (strict : Bool) (b : BootBlock)
    (offset : Int) :
    f.add strict offset (.bootBlock b) = .ok { f with blocks := f.blocks ++ [b] } :=
  Found.add_eq_ok_iff.2 (.inl ⟨b, rfl, fun _ => h.settings rfl, rfl⟩)

theorem Found.Open.add_trustedBoot {f : Found} (h : f.Open false) (strict : Bool)
    (t : TrustedBoot) (offset : Int) :
    f.add strict offset (.trustedBoot t) = .ok { f with settings := some t } :=
  Found.add_eq_ok_iff.2 (.inr (.inl ⟨t, rfl, h.settings rfl, rfl⟩))

/-- One element is read and added, and the reader goes on behind it. -/
theorem readElements_cons {strict : Bool} {f f' : Found} {pos : Int} {e : Element} {x : Bytes}
    {rest : Bytes} (hpos : 0 ≤ pos) (hnone : f.signature = none) (hw : e.Written x)
    (hend : e.EndsInput → rest = []) (hadd : f.add strict pos e = .ok f') :
    readElements strict f ⟨pos, x ++ rest⟩ = readElements strict f' ⟨pos + x.length, rest⟩ := by
  have hread : Element.read ⟨pos, x ++ rest⟩ = .ok (e, ⟨pos + x.length, rest⟩) :=
    (Element.read_eq_ok_iff hpos).2 ⟨⟨x, hw, Cursor.passes_mk pos x rest⟩, hend⟩
  have hne : ¬ (x ++ rest).isEmpty = true := by
    rw [List.isEmpty_iff, List.append_eq_nil_iff]
    rintro ⟨rfl, _⟩
    exact absurd hw.eight_le (by decide)
  conv => lhs; rw [readElements]
  rw [if_neg hne, hnone, if_neg (by decide)]
  split
  · rename_i hread'
    rw [hread] at hread'
    cases hread'
  · rename_i hread'
    rw [hread] at hread'
    cases hread'
    rw [hadd]

/-- Where the reader finds an element that has been cut off, the input is too short. -/
theorem tooShort_readElements {strict : Bool} {f : Found} {pos : Int} {e : Element} {x : Bytes}
    {k : Nat} (hpos : 0 ≤ pos) (hnone : f.signature = none) (hw : e.Written x) (hk : k ≠ 0)
    (hlt : k < x.length) (hhead : ∀ s, e = .signature s → k ≠ Frame.headSize)
    (hlimit : k < sizeLimit) : TooShort (readElements strict f ⟨pos, x.take k⟩) := by
  obtain ⟨cause, hcause⟩ := Element.tooShort_read hpos hw hlt hhead hlimit
  have hne : ¬ (x.take k).isEmpty = true := by
    rw [List.isEmpty_iff, ← List.length_eq_zero_iff, List.length_take]
    omega
  rw [readElements, if_neg hne, hnone, if_neg (by decide)]
  split
  · rename_i hread
    rw [hcause] at hread
    cases hread
    exact ⟨cause, rfl⟩
  · rename_i hread
    rw [hcause] at hread
    cases hread

/-- What comes of elements that end at `k`: at the end of one of them the reader is content, but
has no signature element; elsewhere it finds the input too short. -/
structure Cut (es : List Element) (k : Nat) (outcome : Except Error Found) : Prop where
  at_end : Element.EndsAt es k → ∃ f, outcome = .ok f ∧ f.signature = none
  inside : ¬ Element.EndsAt es k → TooShort outcome

/-- The step of the run over elements that have been cut off. -/
theorem cut_cons {f f' : Found} {pos : Int} {e : Element} {x y : Bytes} {k : Nat}
    (hpos : 0 ≤ pos) (hnone : f.signature = none) (hw : e.Written x)
    (hkind : e.kind ≠ .keyManifest) (hhead : ∀ s, e = .signature s → k ≠ Frame.headSize)
    (hends : e.EndsInput → y = []) (hadd : f.add strict pos e = .ok f') (hlimit : k < sizeLimit)
    (hrest : x.length ≤ k → Cut es (k - x.length)
      (readElements strict f' ⟨pos + x.length, y.take (k - x.length)⟩)) :
    Cut (e :: es) k (readElements strict f ⟨pos, (x ++ y).take k⟩) := by
  have hencode := hw.encode_eq hkind
  rcases Nat.eq_zero_or_pos k with rfl | hk
  · refine ⟨fun _ => ⟨f, ?_, hnone⟩, fun hno => absurd Element.endsAt_zero hno⟩
    exact readElements_eq_ok_iff.2 (.inl ⟨rfl, rfl⟩)
  · have hiff : Element.EndsAt (e :: es) k ↔ _ :=
      Element.endsAt_cons_iff hencode (Nat.ne_of_gt hk)
    by_cases hlt : k < x.length
    · rw [List.take_append_of_le_length (Nat.le_of_lt hlt)]
      refine ⟨fun hend => ?_, fun _ => ?_⟩
      · exact absurd (hiff.1 hend).1 (Nat.not_le_of_lt hlt)
      · exact tooShort_readElements hpos hnone hw (Nat.ne_of_gt hk) hlt hhead hlimit
    · have hle := Nat.le_of_not_lt hlt
      have hends' : e.EndsInput → y.take (k - x.length) = [] := by
        intro hend
        rw [hends hend, List.take_nil]
      have hrun := readElements_cons hpos hnone hw hends' hadd
      rw [List.take_append, List.take_of_length_le hle, hrun]
      exact ⟨fun hend => (hrest hle).at_end (hiff.1 hend).2,
        fun hno => (hrest hle).inside fun hend => hno (hiff.2 ⟨hle, hend⟩)⟩

/-- What comes of the elements behind a header, cut off at any place but behind the head of the
signature element. -/
theorem readElements_take (h : Arranged s settled es) {f : Found} {pos : Int} {x signature : Bytes}
    {k : Nat} (hs : KeySignature.encode? s.keySignature = .ok signature) (hpos : 0 ≤ pos)
    (hf : f.Open settled) (hx : WrittenAll Element.Written es x) (hk : k < x.length)
    (hstop : k + signature.length ≠ x.length) (hlimit : k < sizeLimit) :
    Cut es k (readElements strict f ⟨pos, x.take k⟩) := by
  induction h generalizing f pos x k with
  | signature =>
    obtain ⟨x1, _, hw, rfl, rfl⟩ := hx
    obtain ⟨body, hbody, henc⟩ := SignatureElement.encode_eq_ok_iff.1 hw
    rw [hs] at hbody
    cases hbody
    have hlen := Frame.length_of_encode henc
    rw [List.append_nil] at hk hstop
    refine cut_cons hpos hf.signature hw nofun ?_ (fun _ => rfl) rfl hlimit ?_
    · rintro _ _ rfl
      exact hstop (by rw [hlen])
    · intro hle
      exact absurd hk (Nat.not_lt_of_le hle)
  | bootBlock b h ih =>
    obtain ⟨x1, x2, hw, hrest, rfl⟩ := hx
    rw [List.length_append] at hk hstop
    have hadd := hf.add_bootBlock strict b pos
    refine cut_cons hpos hf.signature hw nofun ?_ False.elim hadd hlimit ?_
    · rintro _ ⟨⟩
    · intro hle
      exact ih (by omega) ⟨hf.signature, hf.settings⟩ hrest (by omega) (by omega) (by omega)
  | trustedBoot t h ih =>
    obtain ⟨x1, x2, hw, hrest, rfl⟩ := hx
    rw [List.length_append] at hk hstop
    have hadd := hf.add_trustedBoot strict t pos
    refine cut_cons hpos hf.signature hw nofun ?_ False.elim hadd hlimit ?_
    · rintro _ ⟨⟩
    · intro hle
      exact ih (by omega) ⟨hf.signature, nofun⟩ hrest (by omega) (by omega) (by omega)

/-- The reader gets through the elements behind a header, and has the signature element then. -/
theorem readElements_append (h : Arranged s settled es) (hsome : s.keySignature ≠ none)
    {f : Found} {pos : Int} {x : Bytes} (hpos : 0 ≤ pos) (hf : f.Open settled)
    (hx : WrittenAll Element.Written es x) (tail : Bytes) :
    ∃ f' pos', f'.signature.isSome ∧
      readElements strict f ⟨pos, x ++ tail⟩ = readElements strict f' ⟨pos', tail⟩ := by
  induction h generalizing f pos x with
  | signature =>
    obtain ⟨x1, _, hw, rfl, rfl⟩ := hx
    rw [List.append_nil]
    exact ⟨_, _, rfl, readElements_cons hpos hf.signature hw (fun hend => absurd hend hsome) rfl⟩
  | bootBlock b h ih =>
    obtain ⟨x1, x2, hw, hrest, rfl⟩ := hx
    have hadd := hf.add_bootBlock strict b pos
    rw [List.append_assoc, readElements_cons hpos hf.signature hw False.elim hadd]
    exact ih (by omega) ⟨hf.signature, hf.settings⟩ hrest
  | trustedBoot t h ih =>
    obtain ⟨x1, x2, hw, hrest, rfl⟩ := hx
    have hadd := hf.add_trustedBoot strict t pos
    rw [List.append_assoc, readElements_cons hpos hf.signature hw False.elim hadd]
    exact ih (by omega) ⟨hf.signature, nofun⟩ hrest

end Run

/-! ## Boot policy manifests -/

/-- The elements behind the header. -/
def elementsBehind (p : BootPolicy) : List Element :=
  p.bootBlocks.map .bootBlock ++ (p.trustedBoot.map .trustedBoot).toList ++
    [.signature p.signature]

theorem writtenAll_blocks {blocks : List BootBlock} {x : Bytes}
    (hfit : ∀ b ∈ blocks, b.rsvd2.length = 3) (hx : encodeItems BootBlock.encode blocks = .ok x) :
    WrittenAll Element.Written (blocks.map .bootBlock) x := by
  induction blocks generalizing x with
  | nil =>
    cases hx
    rfl
  | cons b blocks ih =>
    simp only [encodeItems, bind_eq_ok_iff, pure_eq_ok, Except.ok.injEq] at hx
    obtain ⟨x1, h1, x2, h2, rfl⟩ := hx
    exact ⟨x1, x2, ⟨hfit b List.mem_cons_self, h1⟩,
      ih (fun b' hb' => hfit b' (List.mem_cons_of_mem _ hb')) h2, rfl⟩

theorem writtenAll_settings {settings : Option TrustedBoot} {x : Bytes}
    (hfit : ∀ t ∈ settings, t.rsvd3.length = 3) (hx : encodeSettings settings = .ok x) :
    WrittenAll Element.Written (settings.map .trustedBoot).toList x := by
  cases settings with
  | none =>
    cases hx
    rfl
  | some t => exact ⟨x, [], ⟨hfit t rfl, hx⟩, rfl, (List.append_nil x).symm⟩

theorem writtenAll_elementsBehind {p : BootPolicy} {middle signature : Bytes} (hfit : p.ReservedFit)
    (hm : p.encodeMiddle = .ok middle) (hs : p.signature.encode = .ok signature) :
    WrittenAll Element.Written p.elementsBehind (middle ++ signature) := by
  obtain ⟨blocks, settings, hb, ht, rfl⟩ := encodeMiddle_eq_ok_iff.1 hm
  refine WrittenAll.append (WrittenAll.append (writtenAll_blocks hfit.blocks hb)
    (writtenAll_settings hfit.settings ht)) ?_
  exact ⟨signature, [], hs, rfl, (List.append_nil _).symm⟩

/-- What is left to do when the elements have been read. -/
def finish (header : PolicyHeader) (offset : UInt16) (found : Found) : Except Error BootPolicy := do
  match found.signature with
  | none => throw (.invalidManifest .signatureMissing)
  | some (signature, signatureOffset) => do
    let p : BootPolicy :=
      { header := header
        bootBlocks := found.blocks
        trustedBoot := found.settings
        signature := signature
        keySignatureOffset := offset }
    p.validate
    if offset.toNat ≠ signatureOffset + Frame.headSize then
      throw (.invalidManifest (.policyOffset offset.toNat (signatureOffset + Frame.headSize)))
    return p

theorem malformed_finish {header : PolicyHeader} {offset : UInt16} {f : Found}
    (h : f.signature = none) : Malformed (finish header offset f) := by
  unfold finish
  rw [h]
  exact ⟨_, rfl⟩

/-- Behind a header the elements are read. -/
theorem ofBytes_append {strict : Bool} {p : BootPolicy} {header : Bytes}
    (hh : p.header.encode p.keySignatureOffset = .ok header) (rest : Bytes) :
    ofBytes strict (header ++ rest) =
      (readElements strict {} ⟨20, rest⟩ >>= finish p.header p.keySignatureOffset) := by
  have h0 : 0 ≤ (Reader.start (header ++ rest) 0).pos := Int.le_refl 0
  have hp : (Reader.start (header ++ rest) 0).Passes header ⟨20, rest⟩ := by
    refine ⟨rfl, ?_⟩
    rw [PolicyHeader.length_of_encode hh]
    rfl
  have hread := (PolicyHeader.reads_read _ (p.header, p.keySignatureOffset) _ h0).2 ⟨header, hh, hp⟩
  unfold ofBytes
  rw [hread, ok_bind]
  rfl

/-- A part of an encoding that ends elsewhere than the signed region is refused: as no manifest
at the end of an element, and as too short within one. -/
theorem refused_take (strict : Bool) {p : BootPolicy} {header middle signature b : Bytes} {k : Nat}
    (hfit : p.ReservedFit) (hh : p.header.encode p.keySignatureOffset = .ok header)
    (hm : p.encodeMiddle = .ok middle) (hs : p.signature.encode = .ok signature)
    (hb : KeySignature.encode? p.keySignature = .ok b)
    (hk : k < (header ++ (middle ++ signature)).length)
    (hstop : k + b.length ≠ (header ++ (middle ++ signature)).length) (hlimit : k < sizeLimit) :
    (k ≠ 0 ∧ Element.EndsAt p.elements k →
      Malformed (ofBytes strict ((header ++ (middle ++ signature)).take k))) ∧
    (¬ (k ≠ 0 ∧ Element.EndsAt p.elements k) →
      TooShort (ofBytes strict ((header ++ (middle ++ signature)).take k))) := by
  have hlen := PolicyHeader.length_of_encode hh
  rw [List.length_append] at hk hstop
  by_cases hlt : k < header.length
  · rw [List.take_append_of_le_length (Nat.le_of_lt hlt)]
    refine ⟨?_, fun _ => ?_⟩
    · rintro ⟨h0, hend⟩
      have hle := ((Element.endsAt_cons_iff (e := .policyHeader p.header p.keySignatureOffset)
        hh h0).1 hend).1
      exact absurd hlt (Nat.not_lt_of_le hle)
    · exact (PolicyHeader.selfDelimiting_read.tooShort PolicyHeader.reads_read
        (a := (p.header, p.keySignatureOffset)) (Int.le_refl 0) hh hlt hlimit).bind _
  · have hle := Nat.le_of_not_lt hlt
    have hiff : Element.EndsAt p.elements k ↔
        header.length ≤ k ∧ Element.EndsAt p.elementsBehind (k - header.length) :=
      Element.endsAt_cons_iff (e := .policyHeader p.header p.keySignatureOffset) hh (by omega)
    have hcut : Cut p.elementsBehind (k - header.length)
        (readElements strict {} ⟨20, (middle ++ signature).take (k - header.length)⟩) :=
      readElements_take (arranged_elements p.signature p.bootBlocks p.trustedBoot) hb (by decide)
        ⟨rfl, fun _ => rfl⟩ (writtenAll_elementsBehind hfit hm hs) (by omega) (by omega) (by omega)
    rw [List.take_append, List.take_of_length_le hle, ofBytes_append hh]
    refine ⟨?_, fun hno => ?_⟩
    · rintro ⟨_, hend⟩
      obtain ⟨f, hf, hnone⟩ := hcut.at_end (hiff.1 hend).2
      rw [hf, ok_bind]
      exact malformed_finish hnone
    · refine (hcut.inside fun hend => hno ⟨by omega, hiff.2 ⟨hle, hend⟩⟩).bind _

/-- Something behind an encoding with a key signature is refused. -/
theorem malformed_append {strict : Bool} {p : BootPolicy} {header middle signature : Bytes}
    (hfit : p.ReservedFit) (hh : p.header.encode p.keySignatureOffset = .ok header)
    (hm : p.encodeMiddle = .ok middle) (hs : p.signature.encode = .ok signature)
    (hsome : p.keySignature ≠ none) {tail : Bytes} (htail : tail ≠ []) :
    Malformed (ofBytes strict (header ++ (middle ++ signature ++ tail))) := by
  obtain ⟨f, pos, hf, hrun⟩ : ∃ f' pos', f'.signature.isSome ∧
      readElements strict {} ⟨20, middle ++ signature ++ tail⟩ =
        readElements strict f' ⟨pos', tail⟩ :=
    readElements_append (arranged_elements p.signature p.bootBlocks p.trustedBoot) hsome
      (by decide) ⟨rfl, fun _ => rfl⟩ (writtenAll_elementsBehind hfit hm hs) tail
  rw [ofBytes_append hh, hrun, readElements, if_neg (by rwa [List.isEmpty_iff]), if_pos hf]
  exact ⟨_, rfl⟩

end BootPolicy

/-! ## Key manifests -/

namespace KeyManifest

/-- Behind a body the key signature is read. -/
theorem ofBytes_append {k : KeyManifest} {body : Bytes} (hr : k.body.rsvd2.length = 3)
    (hv : k.validate = .ok ()) (hb : k.body.encode = .ok body) (rest : Bytes) :
    ofBytes (body ++ rest) =
      finish { body := k.body, keySignatureOffset := body.length } ⟨body.length, rest⟩ := by
  have h0 : 0 ≤ (Reader.start (body ++ rest) 0).pos := Int.le_refl 0
  have hp : (Reader.start (body ++ rest) 0).Passes body ⟨body.length, rest⟩ := by
    refine ⟨rfl, ?_⟩
    simp [Reader.start]
  have hread := (KeyManifestBody.reads_read _ (k.body, body.length) _ h0).2
    ⟨body, ⟨hr, KeyManifestBody.encode_eq_ok_iff_writtenAt.1 hb⟩, hp⟩
  rw [ofBytes_eq, hread, ok_bind]
  dsimp only
  rw [if_neg (not_not_intro rfl)]
  show (k.validate >>= fun _ => _) = _
  rw [hv, ok_bind]

/-- A part of an encoding that ends elsewhere than the body is too short. -/
theorem tooShort_take {k : KeyManifest} {body b : Bytes} {n : Nat}
    (hr : k.body.rsvd2.length = 3) (hv : k.validate = .ok ()) (hb : k.body.encode = .ok body)
    (hs : KeySignature.encode? k.keySignature = .ok b) (hn : n < (body ++ b).length)
    (hstop : n ≠ body.length) (hlimit : n < sizeLimit) :
    TooShort (ofBytes ((body ++ b).take n)) := by
  rw [List.length_append] at hn
  by_cases hlt : n < body.length
  · have hw := KeyManifestBody.encode_eq_ok_iff_writtenAt.1 hb
    rw [List.take_append_of_le_length (Nat.le_of_lt hlt), ofBytes_eq]
    exact (KeyManifestBody.selfDelimiting_read.tooShort KeyManifestBody.reads_read
      (a := (k.body, body.length)) (Int.le_refl 0) ⟨hr, hw⟩ hlt hlimit).bind _
  · rw [List.take_append, List.take_of_length_le (Nat.le_of_not_lt hlt), ofBytes_append hr hv hb]
    cases hsignature : k.keySignature with
    | none =>
      rw [hsignature] at hs
      cases hs
      exact absurd hn hlt
    | some s =>
      rw [hsignature] at hs
      have hne : ¬ (b.take (n - body.length)).isEmpty = true := by
        rw [List.isEmpty_iff, ← List.length_eq_zero_iff, List.length_take]
        omega
      unfold finish
      rw [if_neg hne]
      exact (KeySignature.selfDelimiting_read.tooShort KeySignature.reads_read
        (Int.natCast_nonneg _) hs (by omega) (by omega)).bind _

/-- Something behind a key signature is refused. -/
theorem malformed_append {k : KeyManifest} {body b : Bytes} (hr : k.body.rsvd2.length = 3)
    (hv : k.validate = .ok ()) (hb : k.body.encode = .ok body)
    (hs : KeySignature.encode? k.keySignature = .ok b) (hsome : k.keySignature ≠ none)
    {tail : Bytes} (htail : tail ≠ []) : Malformed (ofBytes (body ++ (b ++ tail))) := by
  rw [ofBytes_append hr hv hb]
  cases hsignature : k.keySignature with
  | none => exact absurd hsignature hsome
  | some s =>
    rw [hsignature] at hs
    have hread := (KeySignature.reads_read ⟨body.length, b ++ tail⟩ s _ (Int.natCast_nonneg _)).2
      ⟨b, hs, Cursor.passes_mk _ _ _⟩
    have hne : ¬ (b ++ tail).isEmpty = true := by
      rw [List.isEmpty_iff]
      exact List.append_ne_nil_of_right_ne_nil _ htail
    have hrest : (!tail.isEmpty) = true := by
      rw [List.isEmpty_eq_false_iff.2 htail]
      rfl
    unfold finish
    rw [if_neg hne, hread, ok_bind]
    dsimp only
    rw [if_pos hrest]
    exact ⟨_, rfl⟩

end KeyManifest

namespace Manifest

/-! ## Manifests of either kind -/

theorem tooShort_ofBytes {strict : Bool} {b : Bytes} (h : b.length < 8) :
    TooShort (ofBytes strict b) :=
  (Element.tooShort_peekId (c := Reader.start b 0) (Int.le_refl 0) h).bind _

/-- The reserved bytes are as many as the encoding has room for. -/
def ReservedFit : Manifest → Prop
  | bootPolicy p => p.ReservedFit
  | keyManifest k => k.body.rsvd2.length = 3

theorem padded_eq_self {m : Manifest} (h : m.ReservedFit) : m.padded = m := by
  cases m with
  | bootPolicy p => rfl
  | keyManifest k => rw [padded, KeyManifestBody.reserved_eq_self h]

theorem ReservedFit.withOffset {m : Manifest} (h : m.ReservedFit) (n : Nat) :
    (m.withOffset n).ReservedFit := by
  cases m with
  | bootPolicy p => exact ⟨h.blocks, h.settings⟩
  | keyManifest k => exact h

theorem ReservedFit.withKeySignature {m : Manifest} (h : m.ReservedFit)
    (s : Option KeySignature) : (m.withKeySignature s).ReservedFit := by
  cases m with
  | bootPolicy p => exact ⟨h.blocks, h.settings⟩
  | keyManifest k => exact h

/-- What there is room for in the fields of an encoding bounds its length. -/
theorem length_of_assemble_lt {m m' : Manifest} {b : Bytes} (h : assemble.runOn m = (.ok b, m')) :
    b.length < sizeLimit := by
  obtain ⟨region, signature, hr, hs, rfl, _⟩ := assemble_eq_ok_iff.1 h
  have hregion := length_signedRegion_le hr
  have hsignature : signature.length < 0x30000 := by
    cases hk : m.keySignature with
    | none =>
      rw [hk] at hs
      cases hs
      decide
    | some s =>
      rw [hk] at hs
      exact KeySignature.length_of_encode_lt hs
  rw [Frame.maxSize] at hregion
  rw [List.length_append, sizeLimit]
  omega

/-- At the offset `k` of the encoding an element ends, but not the last one: the header, a boot
block or the settings. -/
def EndsWithin (m : Manifest) (k : Nat) : Prop := k ≠ 0 ∧ Element.EndsAt m.elements k

/-- In a key manifest there is only one element. -/
theorem not_endsWithin_keyManifest (body : KeyManifest) (k : Nat) :
    ¬ (keyManifest body).EndsWithin k := fun h => Element.not_endsAt_singleton h.1 h.2

/-- The parts of an encoding that are refused, and how. -/
theorem refused_take {m : Manifest} {region b : Bytes} {strict : Bool} {k : Nat}
    (hfit : m.ReservedFit) (h : assemble.runOn m = (.ok b, m)) (hr : m.signedRegion = .ok region)
    (hk : k < b.length) (hstop : k ≠ region.length) :
    (m.EndsWithin k → Malformed (ofBytes strict (b.take k))) ∧
    (¬ m.EndsWithin k → TooShort (ofBytes strict (b.take k))) := by
  have hlimit : k < sizeLimit := Nat.lt_trans hk (length_of_assemble_lt h)
  obtain ⟨_, body, hr', hbody, hb, _⟩ := assemble_eq_ok_iff.1 h
  rw [hr] at hr'
  cases hr'
  have hrest : k + body.length ≠ b.length := by
    rw [hb, List.length_append]
    omega
  cases m with
  | bootPolicy p =>
    obtain ⟨_, middle, header, signature, hm, hh, hs, _, rfl, _⟩ :=
      BootPolicy.assemble_eq_ok_iff.1 (assemble_bootPolicy_iff.1 h)
    have hheader := PolicyHeader.length_of_encode hh
    rw [List.append_assoc] at hk hrest ⊢
    obtain ⟨hend, hinside⟩ :=
      BootPolicy.refused_take strict hfit hh hm hs hbody hk hrest hlimit
    by_cases h8 : k < 8
    · refine ⟨fun hat => ?_, fun _ => tooShort_ofBytes (by rw [List.length_take]; omega)⟩
      have hle := ((Element.endsAt_cons_iff (e := .policyHeader p.header p.keySignatureOffset)
        hh hat.1).1 hat.2).1
      omega
    · have hid : ((header ++ (middle ++ signature)).take k).take 8 =
          ElementKind.policyHeader.id := by
        rw [List.take_take, Nat.min_eq_left (Nat.le_of_not_lt h8),
          List.take_append_of_le_length (by omega)]
        exact Element.Written.take_eq_id (e := .policyHeader p.header p.keySignatureOffset) hh
      rw [ofBytes_of_policyHeader hid]
      exact ⟨fun hat => (hend hat).bind _, fun hno => (hinside hno).bind _⟩
  | keyManifest km =>
    obtain ⟨hv, bytes, sig, hbytes, hsig, rfl, _⟩ :=
      KeyManifest.assemble_eq_ok_iff.1 (assemble_keyManifest_iff.1 h)
    obtain rfl : bytes = region :=
      Except.ok.inj (hbytes.symm.trans (KeyManifest.signedRegion_eq_ok_iff.1 hr).2)
    refine ⟨fun hat => absurd hat (not_endsWithin_keyManifest km k), fun _ => ?_⟩
    by_cases h8 : k < 8
    · exact tooShort_ofBytes (by rw [List.length_take]; omega)
    · have hw : (Element.keyManifest km.body bytes.length).Written bytes :=
        ⟨hfit, KeyManifestBody.encode_eq_ok_iff_writtenAt.1 hbytes⟩
      have hid : ((bytes ++ sig).take k).take 8 = ElementKind.keyManifest.id := by
        rw [List.take_take, Nat.min_eq_left (Nat.le_of_not_lt h8),
          List.take_append_of_le_length hw.eight_le, hw.take_eq_id]
        rfl
      rw [ofBytes_of_keyManifest hid]
      exact (KeyManifest.tooShort_take hfit hv hbytes hsig hk hstop hlimit).bind _

/-- Whatever is behind an encoding with a key signature is refused. -/
theorem malformed_append {m : Manifest} {b : Bytes} (strict : Bool) (hfit : m.ReservedFit)
    (h : assemble.runOn m = (.ok b, m)) (hsome : m.keySignature ≠ none) {tail : Bytes}
    (htail : tail ≠ []) : Malformed (ofBytes strict (b ++ tail)) := by
  cases m with
  | bootPolicy p =>
    obtain ⟨_, middle, header, signature, hm, hh, hs, _, rfl, _⟩ :=
      BootPolicy.assemble_eq_ok_iff.1 (assemble_bootPolicy_iff.1 h)
    have hw : (Element.policyHeader p.header p.keySignatureOffset).Written header := hh
    have hid : (header ++ (middle ++ signature ++ tail)).take 8 = ElementKind.policyHeader.id := by
      rw [List.take_append_of_le_length hw.eight_le]
      exact hw.take_eq_id
    rw [List.append_assoc, List.append_assoc, ← List.append_assoc middle,
      ofBytes_of_policyHeader hid]
    exact (BootPolicy.malformed_append hfit hh hm hs hsome htail).bind _
  | keyManifest k =>
    obtain ⟨hv, body, sig, hb, hs, rfl, _⟩ :=
      KeyManifest.assemble_eq_ok_iff.1 (assemble_keyManifest_iff.1 h)
    have hw : (Element.keyManifest k.body body.length).Written body :=
      ⟨hfit, KeyManifestBody.encode_eq_ok_iff_writtenAt.1 hb⟩
    have hid : (body ++ (sig ++ tail)).take 8 = ElementKind.keyManifest.id := by
      rw [List.take_append_of_le_length hw.eight_le]
      exact hw.take_eq_id
    rw [List.append_assoc, ofBytes_of_keyManifest hid]
    exact (KeyManifest.malformed_append hfit hv hb hs hsome htail).bind _

theorem ne_nil_of_encode? {s : Option KeySignature} {b : Bytes}
    (h : KeySignature.encode? s = .ok b) (hs : s ≠ none) : b ≠ [] := by
  cases s with
  | none => exact absurd rfl hs
  | some s => exact KeySignature.ne_nil_of_encode h

/-- The signed region alone is the encoding of the manifest without its key signature. -/
theorem ofBytes_unsigned {m : Manifest} {region : Bytes} (hfit : m.ReservedFit)
    (hr : m.signedRegion = .ok region) (hoffset : m.withOffset region.length = m) :
    (∀ strict, ofBytes strict region = .ok (m.withKeySignature none)) ∧
      assemble.runOn (m.withKeySignature none) = (.ok region, m.withKeySignature none) ∧
      signedRegionEnd.runOn (m.withKeySignature none) =
        (.ok region.length, m.withKeySignature none) := by
  have hr' : (m.withKeySignature none).signedRegion = .ok region := by
    rw [signedRegion_withKeySignature]
    exact hr
  have hoffset' : (m.withKeySignature none).withOffset region.length =
      m.withKeySignature none := by
    rw [← withKeySignature_withOffset, hoffset]
  have hasm : assemble.runOn (m.withKeySignature none) = (.ok region, m.withKeySignature none) := by
    refine assemble_eq_ok_iff.2 ⟨region, [], hr', ?_, (List.append_nil _).symm, hoffset'.symm⟩
    rw [keySignature_withKeySignature]
    rfl
  have hfit' := hfit.withKeySignature none
  refine ⟨fun strict => ?_, hasm, ?_⟩
  · rw [ofBytes_of_assemble strict ?_ hasm, padded_eq_self hfit']
    intro p hp
    rw [hp] at hfit'
    exact hfit'
  · have hend := runOn_signedRegionEnd hr'
    rwa [hoffset'] at hend

/-- Of all the parts of an encoding with a key signature one is read: what is left of it when it is
cut off at the end of the signed region, which is the encoding of the manifest without its key
signature. Other parts are refused, as no manifest if they end where an element does and as too
short everywhere else, and so is the encoding with something behind it. -/
theorem ofBytes_cut {m m' : Manifest} {b : Bytes} (hfit : m.ReservedFit)
    (hsigned : m.keySignature ≠ none) (h : assemble.runOn m = (.ok b, m')) :
    ∃ stop region, m' = m.withOffset stop ∧ signedRegionEnd.runOn m' = (.ok stop, m') ∧
      stop < b.length ∧ Signing.truncate b stop = .ok region ∧ ∀ strict,
        ofBytes strict region = .ok (m'.withKeySignature none) ∧
        assemble.runOn (m'.withKeySignature none) = (.ok region, m'.withKeySignature none) ∧
        signedRegionEnd.runOn (m'.withKeySignature none) =
          (.ok stop, m'.withKeySignature none) ∧
        (∀ k < b.length, k ≠ stop →
          (m'.EndsWithin k → Malformed (ofBytes strict (b.take k))) ∧
          (¬ m'.EndsWithin k → TooShort (ofBytes strict (b.take k)))) ∧
        (∀ body k, m = keyManifest body → ¬ m'.EndsWithin k) ∧
        ∀ tail, tail ≠ [] → Malformed (ofBytes strict (b ++ tail)) := by
  have hagain := assemble_idem h
  obtain ⟨region, signature, hr, hs, rfl, rfl⟩ := assemble_eq_ok_iff.1 h
  have hfit' := hfit.withOffset region.length
  have hr' := signedRegion_withOffset_iff (n := region.length).2 hr
  have hne := ne_nil_of_encode? hs hsigned
  obtain ⟨hread, hcut, hend⟩ := ofBytes_unsigned hfit' hr' (withOffset_withOffset _ _ m)
  refine ⟨region.length, region, rfl, runOn_signedRegionEnd hr, ?_, ?_, fun strict => ⟨hread strict,
    hcut, hend, fun k hk hstop => refused_take hfit' hagain hr' hk hstop, ?_,
    fun tail htail => malformed_append strict hfit' hagain ?_ htail⟩⟩
  · have hpos := List.length_pos_iff.2 hne
    rw [List.length_append]
    omega
  · unfold Signing.truncate
    rw [if_neg (by rw [List.length_append]; omega), Int.toNat_natCast, List.take_left]
  · rintro body k rfl
    exact not_endsWithin_keyManifest _ k
  · rw [keySignature_withOffset]
    exact hsigned

/-- The sample with a key signature. -/
def sampleSigned : Manifest := .bootPolicy { samplePolicy with signature := {} }

/-- Cut off behind its header the sample is no manifest, and one byte earlier it is too short. -/
theorem ofBytes_cut_sample :
    ∃ b m' stop region, assemble.runOn sampleSigned = (.ok b, m') ∧
      Signing.truncate b stop = .ok region ∧
      ofBytes true region = .ok (m'.withKeySignature none) ∧
      Malformed (ofBytes true (b.take 20)) ∧ TooShort (ofBytes true (b.take 19)) ∧
      Malformed (ofBytes true (b ++ [0])) := by
  have hasm := Update.runOn_of_isOk [] (u := assemble) (s := sampleSigned) (by decide +kernel)
  have hlen : 20 < ((assemble.runOn sampleSigned).1.toOption.getD []).length := by decide +kernel
  have hend : (signedRegionEnd.runOn (assemble.runOn sampleSigned).2).1 = .ok 164 :=
    eq_ok_of_toOption (by decide +kernel)
  have hfit : sampleSigned.ReservedFit := BootPolicy.ReservedFit.mk (by decide) (by decide)
  obtain ⟨stop, region, hm', hstop, _, htruncate, hread⟩ := ofBytes_cut hfit (by decide) hasm
  obtain rfl : 164 = stop := Except.ok.inj (hend.symm.trans (congrArg Prod.fst hstop))
  obtain ⟨hregion, _, _, hcut, _, htail⟩ := hread true
  have hzero : ({ nemPages := 1 } : PolicyHeader).encode 0 = .ok _ :=
    eq_ok_of_isOk [] (by decide)
  obtain ⟨x, hx⟩ := PolicyHeader.encode_of_encode hzero 164
  have hheader := PolicyHeader.length_of_encode hx
  have hiff (n : Nat) (hn : n ≠ 0) :
      Element.EndsAt (.policyHeader { nemPages := 1 } 164 ::
        [.bootBlock { segments := [{}] }, .trustedBoot {}, .signature {}]) n ↔ _ :=
    Element.endsAt_cons_iff hx hn
  refine ⟨_, _, 164, region, hasm, htruncate, hregion, (hcut 20 hlen (by decide)).1 ?_,
    (hcut 19 (by omega) (by decide)).2 ?_, htail [0] (by decide)⟩
  · rw [hm']
    refine ⟨by decide, (hiff 20 (by decide)).2 ⟨by omega, ?_⟩⟩
    rw [hheader]
    exact Element.endsAt_zero
  · rw [hm']
    intro hends
    have hle := ((hiff 19 (by decide)).1 hends.2).1
    omega

end Manifest

end BootGuard
