/-
  Boot policy manifests are read exactly as they are assembled, up to the order of elements.

  While a manifest is read, what has been found so far always has an encoding as long as the
  bytes that have been passed, and under strict order it is these bytes (`Found.Covers`). One
  element preserves this (`Found.Covers.add`), so the whole run does (`covers_readElements`).
  The other way round the reader gets through every encoding in the order in which it is
  assembled (`readElements_of_written`).
-/
import BootGuard.Proofs.Codec.Elements
import BootGuard.Manifest.Reading

namespace BootGuard.BootPolicy

/-! ## Assembling -/

/-- The reserved bytes of every element are as many as their encoding has room for. -/
structure ReservedFit (p : BootPolicy) : Prop where
  blocks : ∀ b ∈ p.bootBlocks, b.rsvd2.length = 3
  settings : ∀ t ∈ p.trustedBoot, t.rsvd3.length = 3

theorem encodeBlocks_eq (bs : List BootBlock) :
    encodeBlocks bs = encodeItems BootBlock.encode bs := by
  induction bs with
  | nil => rfl
  | cons b bs ih => rw [encodeBlocks, encodeItems, ih]

theorem encodeSettings_eq (settings : Option TrustedBoot) :
    encodeSettings settings = encodeItems TrustedBoot.encode settings.toList := by
  cases settings with
  | none => rfl
  | some t =>
    rw [Option.toList_some, encodeItems_singleton]
    rfl

theorem encodeMiddle_eq_ok_iff {p : BootPolicy} {middle : Bytes} :
    p.encodeMiddle = .ok middle ↔ ∃ blocks settings,
      encodeItems BootBlock.encode p.bootBlocks = .ok blocks ∧
      encodeSettings p.trustedBoot = .ok settings ∧ middle = blocks ++ settings := by
  simp only [encodeMiddle, bind_eq_ok_iff, pure_eq_ok, Except.ok.injEq, encodeBlocks_eq]
  constructor
  · intro h
    obtain ⟨blocks, hb, settings, hs, rfl⟩ := h
    exact ⟨blocks, settings, hb, hs, rfl⟩
  · intro h
    obtain ⟨blocks, settings, hb, hs, rfl⟩ := h
    exact ⟨blocks, hb, settings, hs, rfl⟩

/-- The offset of the key signature in a manifest whose middle takes `n` bytes. -/
def offsetAfter (n : Nat) : Nat := 20 + n + Frame.headSize

theorem arrange_eq_ok_iff {p : BootPolicy} {middle : Bytes} {offset : UInt16} :
    p.arrange = .ok (middle, offset) ↔ p.validate = .ok () ∧ p.encodeMiddle = .ok middle ∧
      (∃ header, p.header.encode p.keySignatureOffset = .ok header) ∧
      offsetAfter middle.length ≤ Frame.maxSize ∧
      offset = UInt16.ofNat (offsetAfter middle.length) := by
  simp only [arrange, offsetBehind, bind_eq_ok_iff, ite_throw_eq_ok_iff, pure_eq_ok,
    Except.ok.injEq, Prod.mk.injEq, Nat.not_lt]
  constructor
  · intro h
    obtain ⟨⟨⟩, hv, _, hm, _, ⟨header, hh, rfl⟩, hle, rfl, rfl⟩ := h
    rw [PolicyHeader.length_of_encode hh] at hle ⊢
    exact ⟨hv, hm, ⟨header, hh⟩, hle, rfl⟩
  · intro h
    obtain ⟨hv, hm, ⟨header, hh⟩, hle, rfl⟩ := h
    refine ⟨(), hv, middle, hm, _, ⟨header, hh, rfl⟩, ?_, rfl, ?_⟩
    · rw [PolicyHeader.length_of_encode hh]
      exact hle
    · rw [PolicyHeader.length_of_encode hh, offsetAfter]

theorem assemble_eq_ok_iff {p p' : BootPolicy} {b : Bytes} :
    assemble.runOn p = (.ok b, p') ↔ p.validate = .ok () ∧ ∃ middle header signature,
      p.encodeMiddle = .ok middle ∧ p.header.encode p'.keySignatureOffset = .ok header ∧
      p.signature.encode = .ok signature ∧ offsetAfter middle.length ≤ Frame.maxSize ∧
      b = header ++ middle ++ signature ∧
      p' = { p with keySignatureOffset := UInt16.ofNat (offsetAfter middle.length) } := by
  rw [assemble, Update.runOn_get_bind, Update.runOn_bind_eq_ok_iff]
  constructor
  · intro h
    obtain ⟨⟨middle, offset⟩, _, h1, h2⟩ := h
    obtain ⟨harr, rfl⟩ := Update.runOn_ofExcept_eq_ok_iff.1 h1
    obtain ⟨hv, hm, _, hle, rfl⟩ := arrange_eq_ok_iff.1 harr
    rw [Update.runOn_modify_bind, Update.runOn_get_bind] at h2
    obtain ⟨henc, rfl⟩ := Update.runOn_ofExcept_eq_ok_iff.1 h2
    simp only [encodeAround, bind_eq_ok_iff, pure_eq_ok, Except.ok.injEq] at henc
    obtain ⟨header, hh, signature, hs, rfl⟩ := henc
    exact ⟨hv, middle, header, signature, hm, hh, hs, hle, rfl, rfl⟩
  · intro h
    obtain ⟨hv, middle, header, signature, hm, hh, hs, hle, rfl, rfl⟩ := h
    refine ⟨(middle, UInt16.ofNat (offsetAfter middle.length)), p,
      Update.runOn_ofExcept_eq_ok_iff.2 ⟨arrange_eq_ok_iff.2
        ⟨hv, hm, PolicyHeader.encode_of_encode hh _, hle, rfl⟩, rfl⟩, ?_⟩
    rw [Update.runOn_modify_bind, Update.runOn_get_bind]
    refine Update.runOn_ofExcept_eq_ok_iff.2 ⟨?_, rfl⟩
    simp only [encodeAround, bind_eq_ok_iff, pure_eq_ok, Except.ok.injEq]
    exact ⟨header, hh, signature, hs, rfl⟩

/-- Assembling again changes nothing. -/
theorem assemble_idem {p p' : BootPolicy} {b : Bytes}
    (h : assemble.runOn p = (.ok b, p')) : assemble.runOn p' = (.ok b, p') := by
  rw [assemble_eq_ok_iff] at h ⊢
  obtain ⟨hv, middle, header, signature, hm, hh, hs, hle, rfl, rfl⟩ := h
  exact ⟨hv, middle, header, signature, hm, hh, hs, hle, rfl, rfl⟩

/-! ## What has been found -/

/-- The encodings of the parts that have been found, behind `start`. -/
structure Found.WrittenAs (start : Nat) (f : Found) (blocks settings signature : Bytes) : Prop where
  encode_blocks : encodeItems BootBlock.encode f.blocks = .ok blocks
  encode_settings : encodeSettings f.settings = .ok settings
  signature_none : f.signature = none → signature = []
  signature_some : ∀ s offset, f.signature = some (s, offset) →
    s.encode = .ok signature ∧ offset = start + blocks.length + settings.length
  fit_blocks : ∀ x ∈ f.blocks, x.rsvd2.length = 3
  fit_settings : ∀ t ∈ f.settings, t.rsvd3.length = 3

/-- The encodings of what has been found are as long as the bytes `b` behind `start`; under
strict order they are these bytes. -/
def Found.Covers (strict : Bool) (start : Nat) (f : Found) (b : Bytes) : Prop :=
  ∃ blocks settings signature, f.WrittenAs start blocks settings signature ∧
    b.length = blocks.length + settings.length + signature.length ∧
    (strict = true → b = blocks ++ settings ++ signature)

theorem Found.covers_nil (strict : Bool) (start : Nat) : Found.Covers strict start {} [] :=
  ⟨[], [], [], ⟨rfl, rfl, fun _ => rfl, by simp, by simp, by simp⟩, rfl, fun _ => rfl⟩

/-- What adding an element can do. -/
theorem Found.add_eq_ok_iff {strict : Bool} {offset : Int} {f f' : Found} {e : Element} :
    f.add strict offset e = .ok f' ↔
      (∃ x, e = .bootBlock x ∧ (strict = true → f.settings = none) ∧
        f' = { f with blocks := f.blocks ++ [x] }) ∨
      (∃ t, e = .trustedBoot t ∧ f.settings = none ∧ f' = { f with settings := some t }) ∨
      (∃ s, e = .signature s ∧ f' = { f with signature := some (s, offset.toNat) }) := by
  cases e with
  | bootBlock x =>
    rw [Found.add]
    cases hset : f.settings with
    | none =>
      rw [Option.isSome_none, Bool.and_false, if_neg (by simp)]
      constructor
      · rintro ⟨⟩
        exact .inl ⟨x, rfl, fun _ => rfl, rfl⟩
      · rintro (⟨_, ⟨⟩, _, rfl⟩ | ⟨_, h, _⟩ | ⟨_, h, _⟩)
        · rfl
        · cases h
        · cases h
    | some t =>
      rw [Option.isSome_some, Bool.and_true]
      constructor
      · intro h
        split at h
        · cases h
        · rename_i hs
          cases h
          exact .inl ⟨x, rfl, fun h => absurd h hs, rfl⟩
      · rintro (⟨_, ⟨⟩, hs, rfl⟩ | ⟨_, h, _⟩ | ⟨_, h, _⟩)
        · rw [if_neg fun h => Option.some_ne_none t (hs h)]
        · cases h
        · cases h
  | trustedBoot t =>
    rw [Found.add]
    cases hset : f.settings with
    | none =>
      rw [Option.isSome_none, if_neg (by simp)]
      constructor
      · rintro ⟨⟩
        exact .inr (.inl ⟨t, rfl, rfl, rfl⟩)
      · rintro (⟨_, h, _⟩ | ⟨_, ⟨⟩, _, rfl⟩ | ⟨_, h, _⟩)
        · cases h
        · rfl
        · cases h
    | some t' =>
      rw [Option.isSome_some, if_pos rfl]
      constructor
      · intro h
        cases h
      · rintro (⟨_, h, _⟩ | ⟨_, _, h, _⟩ | ⟨_, h, _⟩) <;> cases h
  | signature s => simp [Found.add, eq_comm]
  | policyHeader h offset => simp [Found.add]
  | keyManifest k offset => simp [Found.add]

/-- One element more. -/
theorem Found.Covers.add {strict : Bool} {start : Nat} {f f' : Found} {b x : Bytes} {e : Element}
    (h : f.Covers strict start b) (hnone : f.signature = none) (he : e.Written x)
    (hadd : f.add strict (start + b.length : Nat) e = .ok f') :
    f'.Covers strict start (b ++ x) := by
  obtain ⟨blocks, settings, signature, hw, hlen, hstrict⟩ := h
  obtain rfl := hw.signature_none hnone
  rw [List.length_nil, Nat.add_zero] at hlen
  obtain ⟨y, rfl, hsettings, rfl⟩ | ⟨t, rfl, hsettings, rfl⟩ | ⟨s, rfl, rfl⟩ :=
    add_eq_ok_iff.1 hadd
  · refine ⟨blocks ++ x, settings, [],
      ⟨?_, hw.encode_settings, fun _ => rfl, ?_, ?_, hw.fit_settings⟩,
      ?_, ?_⟩
    · exact encodeItems_append hw.encode_blocks ((encodeItems_singleton _).trans he.2)
    · intro s offset hs
      rw [show f.signature = some (s, offset) from hs] at hnone
      cases hnone
    · intro z hz
      obtain hz | hz := List.mem_append.1 hz
      · exact hw.fit_blocks z hz
      · rw [List.mem_singleton.1 hz]
        exact he.1
    · simp only [List.length_append, List.length_nil, hlen]
      omega
    · intro hs
      have hset : settings = [] := by
        have := hw.encode_settings
        rw [hsettings hs] at this
        exact (Except.ok.inj this).symm
      rw [hstrict hs, hset]
      simp
  · have hset : settings = [] := by
      have := hw.encode_settings
      rw [hsettings] at this
      exact (Except.ok.inj this).symm
    refine ⟨blocks, x, [], ⟨hw.encode_blocks, he.2, fun _ => rfl, ?_, hw.fit_blocks, ?_⟩, ?_, ?_⟩
    · intro s offset hs
      rw [show f.signature = some (s, offset) from hs] at hnone
      cases hnone
    · rintro t' ⟨⟩
      exact he.1
    · simp only [List.length_append, List.length_nil, hlen, hset]
      omega
    · intro hs
      rw [hstrict hs, hset]
      simp
  · refine ⟨blocks, settings, x, ⟨hw.encode_blocks, hw.encode_settings, by simp, ?_, hw.fit_blocks,
      hw.fit_settings⟩, ?_, ?_⟩
    · rintro s' offset ⟨⟩
      refine ⟨he, ?_⟩
      rw [Int.toNat_natCast, hlen, Nat.add_assoc]
    · rw [List.length_append, hlen]
    · intro hs
      rw [hstrict hs, List.append_nil]

/-- Strict order only refuses more. -/
theorem Found.add_of_strict {offset : Int} {f f' : Found} {e : Element}
    (h : f.add true offset e = .ok f') : f.add false offset e = .ok f' := by
  rw [add_eq_ok_iff] at h ⊢
  obtain ⟨x, rfl, _, rfl⟩ | h := h
  · exact .inl ⟨x, rfl, by simp, rfl⟩
  · exact .inr h

/-! ## The run over the elements -/

theorem readElements_eq_ok_iff {strict : Bool} {f f' : Found} {c : Cursor} :
    readElements strict f c = .ok f' ↔ (c.rest = [] ∧ f' = f) ∨
      (c.rest ≠ [] ∧ f.signature = none ∧ ∃ e c' f1, Element.read c = .ok (e, c') ∧
        f.add strict c.pos e = .ok f1 ∧ readElements strict f1 c' = .ok f') := by
  rw [readElements]
  split
  · rename_i hend
    have hnil := List.isEmpty_iff.1 hend
    simp [hnil, eq_comm]
  · rename_i hend
    have hne : c.rest ≠ [] := fun h => hend (List.isEmpty_iff.2 h)
    split
    · rename_i hs
      have hsome : f.signature ≠ none := Option.isSome_iff_ne_none.1 hs
      simp [hne, hsome]
    · rename_i hs
      have hnone : f.signature = none := by simpa using hs
      simp only [hne, false_and, false_or, hnone, true_and, ne_eq, not_false_eq_true]
      constructor
      · intro h
        split at h
        · cases h
        · rename_i e c' hread
          cases hadd : f.add strict c.pos e with
          | error _ =>
            rw [hadd] at h
            cases h
          | ok f1 =>
            rw [hadd] at h
            exact ⟨e, c', f1, hread, hadd, h⟩
      · intro hall
        obtain ⟨e, c', f1, hread, hadd, h⟩ := hall
        split
        · rename_i hread'
          rw [hread] at hread'
          cases hread'
        · rename_i e' c'' hread'
          rw [hread] at hread'
          cases hread'
          rw [hadd]
          exact h

/-- Every run covers all of the input. -/
theorem covers_readElements {strict : Bool} (start : Nat) {f f' : Found} {c : Cursor} {b : Bytes}
    (hpos : c.pos = (start + b.length : Nat)) (h : f.Covers strict start b)
    (hr : readElements strict f c = .ok f') : f'.Covers strict start (b ++ c.rest) := by
  induction hn : c.rest.length using Nat.strongRecOn generalizing f c b with
  | ind n ih =>
    obtain ⟨hnil, rfl⟩ | ⟨hne, hnone, e, c', f1, hread, hadd, hr'⟩ := readElements_eq_ok_iff.1 hr
    · rw [hnil, List.append_nil]
      exact h
    · obtain ⟨⟨x, hw, hp⟩, _⟩ := (Element.read_eq_ok_iff (by omega)).1 hread
      have hlt : c'.rest.length < n := by
        have := Element.consumes_read c e c' hread
        omega
      rw [hp.rest, ← List.append_assoc]
      refine ih _ hlt ?_ (h.add hnone hw ?_) hr' rfl
      · rw [hp.pos, hpos, List.length_append]
        push_cast
        omega
      · rw [← hpos]
        exact hadd

/-- A run under strict order is a run without it. -/
theorem readElements_of_strict {f f' : Found} {c : Cursor}
    (hr : readElements true f c = .ok f') : readElements false f c = .ok f' := by
  induction hn : c.rest.length using Nat.strongRecOn generalizing f c with
  | ind n ih =>
    rw [readElements_eq_ok_iff] at hr ⊢
    obtain h | ⟨hne, hnone, e, c', f1, hread, hadd, hr'⟩ := hr
    · exact .inl h
    · have hlt : c'.rest.length < n := by
        have := Element.consumes_read c e c' hread
        omega
      exact .inr ⟨hne, hnone, e, c', f1, hread, Found.add_of_strict hadd, ih _ hlt hr' rfl⟩

/-- The run goes on behind an encoded element. -/
theorem readElements_of_passes {strict : Bool} {f f1 f' : Found} {c c' : Cursor} {e : Element}
    {x : Bytes} (hc : 0 ≤ c.pos) (hnone : f.signature = none) (hw : e.Written x)
    (hp : c.Passes x c') (hend : e.EndsInput → c'.rest = [])
    (hadd : f.add strict c.pos e = .ok f1) (hr : readElements strict f1 c' = .ok f') :
    readElements strict f c = .ok f' := by
  have hne : c.rest ≠ [] := by
    rw [hp.rest]
    exact List.append_ne_nil_of_left_ne_nil hw.ne_nil _
  exact readElements_eq_ok_iff.2
    (.inr ⟨hne, hnone, e, c', f1, (Element.read_eq_ok_iff hc).2 ⟨⟨x, hw, hp⟩, hend⟩, hadd, hr⟩)

theorem readElements_blocks {strict : Bool} {bs : List BootBlock} {f f' : Found} {c c' : Cursor}
    {x : Bytes} (hc : 0 ≤ c.pos) (hsig : f.signature = none) (hset : f.settings = none)
    (hfit : ∀ b ∈ bs, b.rsvd2.length = 3) (hx : encodeItems BootBlock.encode bs = .ok x)
    (hp : c.Passes x c')
    (hr : readElements strict { f with blocks := f.blocks ++ bs } c' = .ok f') :
    readElements strict f c = .ok f' := by
  induction bs generalizing f c x with
  | nil =>
    cases hx
    obtain rfl := Cursor.passes_nil_iff.1 hp
    rw [List.append_nil] at hr
    exact hr
  | cons b bs ih =>
    simp only [encodeItems, bind_eq_ok_iff, pure_eq_ok, Except.ok.injEq] at hx
    obtain ⟨x1, h1, x2, h2, rfl⟩ := hx
    obtain ⟨m, hp1, hp2⟩ := Cursor.passes_append_iff.1 hp
    have hadd : f.add strict c.pos (.bootBlock b) = .ok { f with blocks := f.blocks ++ [b] } :=
      Found.add_eq_ok_iff.2 (.inl ⟨b, rfl, fun _ => hset, rfl⟩)
    have hw : (Element.bootBlock b).Written x1 := ⟨hfit b List.mem_cons_self, h1⟩
    refine readElements_of_passes hc hsig hw hp1 False.elim hadd ?_
    refine ih (hp1.pos_nonneg hc) hsig hset (fun b' hb' => hfit b' (List.mem_cons_of_mem _ hb'))
      h2 hp2 ?_
    rw [List.append_assoc]
    exact hr

theorem readElements_settings {strict : Bool} {settings : Option TrustedBoot} {f f' : Found}
    {c c' : Cursor} {x : Bytes} (hc : 0 ≤ c.pos) (hsig : f.signature = none)
    (hset : f.settings = none) (hfit : ∀ t ∈ settings, t.rsvd3.length = 3)
    (hx : encodeSettings settings = .ok x) (hp : c.Passes x c')
    (hr : readElements strict { f with settings := settings } c' = .ok f') :
    readElements strict f c = .ok f' := by
  cases settings with
  | none =>
    cases hx
    obtain rfl := Cursor.passes_nil_iff.1 hp
    rw [← hset] at hr
    exact hr
  | some t =>
    have hadd : f.add strict c.pos (.trustedBoot t) = .ok { f with settings := some t } :=
      Found.add_eq_ok_iff.2 (.inr (.inl ⟨t, rfl, hset, rfl⟩))
    have hw : (Element.trustedBoot t).Written x := ⟨hfit t rfl, hx⟩
    exact readElements_of_passes hc hsig hw hp False.elim hadd hr

/-- The reader gets through the parts of a manifest in the order of their encodings. -/
theorem readElements_of_written {p : BootPolicy} {middle signature : Bytes} (start : Nat)
    (hfit : p.ReservedFit) (hm : p.encodeMiddle = .ok middle)
    (hs : p.signature.encode = .ok signature) :
    readElements true {} ⟨start, middle ++ signature⟩ =
      .ok ⟨p.bootBlocks, p.trustedBoot, some (p.signature, start + middle.length)⟩ := by
  obtain ⟨blocks, settings, hb, ht, rfl⟩ := encodeMiddle_eq_ok_iff.1 hm
  have hpb := Cursor.passes_mk start blocks (settings ++ signature)
  have hps := Cursor.passes_mk (start + blocks.length) settings signature
  have hpg := Cursor.passes_mk (start + blocks.length + settings.length) signature []
  rw [List.append_assoc]
  refine readElements_blocks (Int.natCast_nonneg _) rfl rfl hfit.blocks hb hpb ?_
  have hpos := hpb.pos_nonneg (Int.natCast_nonneg start)
  refine readElements_settings hpos rfl rfl hfit.settings ht hps ?_
  rw [List.append_nil] at hpg
  have hpos := hps.pos_nonneg (hpb.pos_nonneg (Int.natCast_nonneg _))
  refine readElements_of_passes (e := .signature p.signature) hpos rfl hs hpg
    (fun _ => rfl) rfl (readElements_eq_ok_iff.2 (.inl ⟨rfl, ?_⟩))
  simp only [List.nil_append, List.length_append]
  congr 3
  omega

/-! ## Reading a manifest -/

theorem ofBytes_eq_ok_iff {strict : Bool} {b : Bytes} {p : BootPolicy} :
    ofBytes strict b = .ok p ↔ ∃ header rest offset, b = header ++ rest ∧
      p.header.encode p.keySignatureOffset = .ok header ∧
      readElements strict {} ⟨20, rest⟩ =
        .ok ⟨p.bootBlocks, p.trustedBoot, some (p.signature, offset)⟩ ∧
      p.validate = .ok () ∧ p.keySignatureOffset.toNat = offset + Frame.headSize := by
  have h0 : 0 ≤ (Reader.start b 0).pos := Int.le_refl 0
  rw [ofBytes, bind_eq_ok_iff]
  simp only [bind_eq_ok_iff]
  constructor
  · intro h
    obtain ⟨⟨⟨header, keyOffset⟩, c⟩, hread, ⟨blocks, settings, signature⟩, hr, hfin⟩ := h
    obtain ⟨x, hx, hp⟩ := (PolicyHeader.reads_read _ _ _ h0).1 hread
    have hc : c = ⟨20, c.rest⟩ := by
      have hpos := hp.pos
      rw [PolicyHeader.length_of_encode hx] at hpos
      cases c
      simp only [Reader.start] at hpos
      rw [hpos]
      rfl
    rw [hc] at hr
    cases signature with
    | none => cases hfin
    | some so =>
      obtain ⟨s, offset⟩ := so
      simp only [bind_eq_ok_iff, ite_throw_eq_ok_iff, pure_eq_ok, Except.ok.injEq] at hfin
      obtain ⟨⟨⟩, hv, hoff, rfl⟩ := hfin
      exact ⟨x, c.rest, offset, hp.rest, hx, hr, hv, Decidable.of_not_not hoff⟩
  · intro h
    obtain ⟨header, rest, offset, rfl, hh, hr, hv, hoff⟩ := h
    have hp : (Reader.start (header ++ rest) 0).Passes header ⟨20, rest⟩ := by
      refine ⟨rfl, ?_⟩
      rw [PolicyHeader.length_of_encode hh]
      rfl
    refine ⟨((p.header, p.keySignatureOffset), ⟨20, rest⟩),
      (PolicyHeader.reads_read _ _ _ h0).2 ⟨header, hh, hp⟩, _, hr, ?_⟩
    simp only [bind_eq_ok_iff, ite_throw_eq_ok_iff]
    exact ⟨(), hv, not_not_intro hoff, rfl⟩

/-- What is read under strict order is read without it. -/
theorem ofBytes_of_strict {b : Bytes} {p : BootPolicy} (h : ofBytes true b = .ok p) :
    ofBytes false b = .ok p := by
  rw [ofBytes_eq_ok_iff] at h ⊢
  obtain ⟨header, rest, offset, hb, hh, hr, hv, hoff⟩ := h
  exact ⟨header, rest, offset, hb, hh, readElements_of_strict hr, hv, hoff⟩

/-- A manifest that was read is assembled into bytes of the same number, with the offset that it
has; under strict order into the same bytes. -/
theorem assemble_of_ofBytes {strict : Bool} {b : Bytes} {p : BootPolicy}
    (h : ofBytes strict b = .ok p) : p.ReservedFit ∧ ∃ b', assemble.runOn p = (.ok b', p) ∧
      b'.length = b.length ∧ (strict = true → b' = b) := by
  obtain ⟨header, rest, offset, rfl, hh, hr, hv, hoff⟩ := ofBytes_eq_ok_iff.1 h
  obtain ⟨blocks, settings, signature, hw, hlen, hstrict⟩ :=
    covers_readElements 20 rfl (Found.covers_nil strict 20) hr
  obtain ⟨hs, hsig⟩ := hw.signature_some _ _ rfl
  simp only [List.nil_append] at hlen hstrict
  have hnat : p.keySignatureOffset.toNat = offsetAfter (blocks ++ settings).length := by
    rw [hoff, hsig, offsetAfter, List.length_append, Nat.add_assoc 20]
  have hkey : p.keySignatureOffset = UInt16.ofNat (offsetAfter (blocks ++ settings).length) := by
    rw [← hnat, UInt16.ofNat_toNat]
  refine ⟨⟨hw.fit_blocks, hw.fit_settings⟩, header ++ (blocks ++ settings) ++ signature, ?_, ?_,
    ?_⟩
  · refine assemble_eq_ok_iff.2 ⟨hv, blocks ++ settings, header, signature,
      encodeMiddle_eq_ok_iff.2 ⟨blocks, settings, hw.encode_blocks, hw.encode_settings, rfl⟩, hh,
      hs, ?_, rfl, ?_⟩
    · rw [← hnat, Frame.maxSize]
      have := p.keySignatureOffset.toNat_lt
      omega
    · rw [← hkey]
  · simp only [List.length_append, hlen]
    omega
  · intro h
    rw [hstrict h, List.append_assoc]

/-- The manifests that are read under strict order are those that are assembled into the input,
and whose offset is the one that assembling derives. -/
theorem ofBytes_strict_eq_ok_iff {b : Bytes} {p : BootPolicy} :
    ofBytes true b = .ok p ↔ p.ReservedFit ∧ assemble.runOn p = (.ok b, p) := by
  constructor
  · intro h
    obtain ⟨hfit, b', hasm, _, hb⟩ := assemble_of_ofBytes h
    rw [hb rfl] at hasm
    exact ⟨hfit, hasm⟩
  · intro hall
    obtain ⟨hfit, hasm⟩ := hall
    obtain ⟨hv, middle, header, signature, hm, hh, hs, hle, rfl, hp⟩ := assemble_eq_ok_iff.1 hasm
    refine ofBytes_eq_ok_iff.2 ⟨header, middle ++ signature, 20 + middle.length,
      List.append_assoc _ _ _, hh, readElements_of_written 20 hfit hm hs, hv, ?_⟩
    have hkey := congrArg keySignatureOffset hp
    rw [hkey]
    rw [Frame.maxSize] at hle
    exact UInt16.toNat_ofNat_of_lt' (Nat.lt_succ_of_le hle)

end BootGuard.BootPolicy
