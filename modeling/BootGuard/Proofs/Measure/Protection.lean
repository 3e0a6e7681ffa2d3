/-
  What is protected is what is measured.

  Two loops go over the segments of a boot policy manifest: one gathers the bytes that boot
  blocks measure, the other the intervals that stitching protects.
  `Segment.contents_eq_ok_iff` relates them: the first succeeds exactly if the second does and
  every empty segment maps into the image, and its bytes are those of the intervals in order.
  `protects_measured` states this of a manifest that was read; there images that agree on
  the intervals cannot be told apart by computing digests (`rehash_congr`).
-/
import BootGuard.Proofs.Fit.Manifests
import BootGuard.Proofs.Manifest.RoundTrip
import BootGuard.Proofs.Measure.Rehash

namespace BootGuard

open Fit

namespace Bytes

/-- The bytes of some intervals, one after the other. -/
def slices (b : Bytes) (rs : List (Nat × Nat)) : Bytes := rs.flatMap fun r => b.range r.1 r.2

theorem slices_cons (b : Bytes) (r : Nat × Nat) (rs : List (Nat × Nat)) :
    b.slices (r :: rs) = b.range r.1 r.2 ++ b.slices rs := rfl

theorem range_self (b : Bytes) (i : Int) : b.range i i = [] := by
  rw [range, Nat.sub_self, List.take_zero]

end Bytes

/-! ## The two loops -/

namespace Segment

/-- The segment starts at a place in an image of `n` bytes. -/
def Maps (s : Segment) (n : Nat) : Prop := ∃ offset, offsetOf s.base n = .ok offset

/-- Every segment that is measured and empty starts at a place in an image of `n` bytes. -/
def EmptyMap (n : Nat) (ss : List Segment) : Prop :=
  ∀ s ∈ ss, s.measured = true → s.size = 0 → s.Maps n

theorem emptyMap_cons {n : Nat} {s : Segment} {ss : List Segment} :
    EmptyMap n (s :: ss) ↔ (s.measured = true → s.size = 0 → s.Maps n) ∧ EmptyMap n ss :=
  List.forall_mem_cons

/-- An empty segment is located wherever it starts at a place in the image. -/
theorem Located.maps_iff {s : Segment} (hs : s.Located) (hsize : s.size = 0) {n : Nat} :
    s.Maps n ↔ ∃ offset, s.locate n = .ok offset := by
  refine exists_congr fun offset => ?_
  rw [locate_eq_ok_iff]
  constructor
  · intro h
    have hlt := (offsetOf_bounds (.inl hs.1) h).2
    exact ⟨h, by omega⟩
  · intro h
    exact h.1

/-- The interval of a segment covers what the segment measures. -/
theorem Located.slices_cons {s : Segment} (hs : s.Located) {image : Bytes} {offset : Int}
    (h : s.locate image.length = .ok offset) (rs : List (Nat × Nat)) :
    image.slices ((offset.toNat, (offset + s.size).toNat) :: rs) =
      image.range offset (offset + s.size) ++ image.slices rs := by
  have hpos := (hs.bounds h).1
  have hsize := hs.2
  rw [Bytes.slices_cons, Int.toNat_of_nonneg hpos, Int.toNat_of_nonneg (by omega)]

/-- The bytes that segments measure are those of the intervals that are protected. -/
theorem contents_eq_ok_iff {image : Bytes} {ss : List Segment} (hss : ∀ s ∈ ss, s.Located)
    {b : Bytes} : contents image ss = .ok b ↔
      ∃ ranges, segmentRanges image.length ss = .ok ranges ∧ EmptyMap image.length ss ∧
        b = image.slices ranges := by
  induction ss generalizing b with
  | nil =>
    constructor
    · intro h
      cases h
      exact ⟨[], rfl, fun s hs => (List.not_mem_nil hs).elim, rfl⟩
    · intro h
      obtain ⟨_, hr, _, rfl⟩ := h
      cases hr
      rfl
  | cons s ss ih =>
    obtain ⟨hs, hss⟩ := List.forall_mem_cons.1 hss
    rw [emptyMap_cons]
    by_cases hm : s.measured = true
    · rw [contents_cons_eq_ok_iff hm]
      by_cases hsize : s.size = 0
      · -- an empty segment adds no bytes and no interval, but has to be somewhere
        rw [segmentRanges_cons_of_skipped (.inr hsize)]
        simp only [hm, hsize, true_implies, hs.maps_iff hsize, Int.add_zero, Bytes.range_self,
          List.nil_append, ih hss]
        constructor
        · intro h
          obtain ⟨offset, _, hoff, ⟨ranges, hr, he, rfl⟩, rfl⟩ := h
          exact ⟨ranges, hr, ⟨⟨offset, hoff⟩, he⟩, rfl⟩
        · intro h
          obtain ⟨ranges, hr, ⟨⟨offset, hoff⟩, he⟩, rfl⟩ := h
          exact ⟨offset, _, hoff, ⟨ranges, hr, he, rfl⟩, rfl⟩
      · simp only [segmentRanges_cons_eq_ok_iff hm hsize, ih hss]
        constructor
        · intro h
          obtain ⟨offset, _, hoff, ⟨rs, hrs, he, rfl⟩, rfl⟩ := h
          exact ⟨_, ⟨offset, rs, hoff, hrs, rfl⟩, ⟨fun _ h0 => absurd h0 hsize, he⟩,
            (hs.slices_cons hoff rs).symm⟩
        · intro h
          obtain ⟨_, ⟨offset, rs, hoff, hrs, rfl⟩, ⟨_, he⟩, rfl⟩ := h
          exact ⟨offset, _, hoff, ⟨rs, hrs, he, rfl⟩, hs.slices_cons hoff rs⟩
    · have hm' : s.measured = false := Bool.eq_false_iff.2 hm
      have hvacuous : s.measured = true → s.size = 0 → s.Maps image.length :=
        fun h => absurd h hm
      rw [contents_cons_of_unmeasured hm', segmentRanges_cons_of_skipped (.inl hm'), ih hss]
      simp only [and_iff_right hvacuous]

/-- Protected intervals are not empty and lie in the image. -/
theorem segmentRanges_bounds {n : Nat} {ss : List Segment} (hss : ∀ s ∈ ss, s.Located)
    {ranges : List (Nat × Nat)} (h : segmentRanges n ss = .ok ranges) :
    ∀ r ∈ ranges, r.1 < r.2 ∧ r.2 ≤ n := by
  induction ss generalizing ranges with
  | nil =>
    cases h
    intro r hr
    exact (List.not_mem_nil hr).elim
  | cons s ss ih =>
    obtain ⟨hs, hss⟩ := List.forall_mem_cons.1 hss
    by_cases hskip : s.measured = false ∨ s.size = 0
    · rw [segmentRanges_cons_of_skipped hskip] at h
      exact ih hss h
    · obtain ⟨hm, hsize⟩ := not_or.1 hskip
      obtain ⟨offset, rs, hoff, hrs, rfl⟩ :=
        (segmentRanges_cons_eq_ok_iff (Bool.not_eq_false _ ▸ hm) hsize).1 h
      obtain ⟨hpos, hle⟩ := hs.bounds hoff
      have hlen := hs.2
      refine List.forall_mem_cons.2 ⟨⟨?_, ?_⟩, ih hss hrs⟩
      · show offset.toNat < (offset + s.size).toNat
        omega
      · show (offset + s.size).toNat ≤ n
        omega

theorem contents_append (image : Bytes) (ss ts : List Segment) :
    contents image (ss ++ ts) = do
      let b ← contents image ss
      let c ← contents image ts
      return b ++ c := by
  induction ss with
  | nil =>
    rw [List.nil_append, contents, ok_bind]
    cases contents image ts <;> rfl
  | cons s ss ih =>
    rw [List.cons_append, contents, contents, ih]
    by_cases hm : s.measured = true
    · rw [if_pos hm, if_pos hm]
      simp only [bind_assoc, pure_bind, List.append_assoc]
    · rw [if_neg hm, if_neg hm]

/-- What boot blocks measure one by one is what all their segments measure. -/
theorem contents_flatMap (image : Bytes) (es : List BootBlock) :
    contents image (es.flatMap (·.segments)) =
      (es.mapM (BootBlock.content · image)).map List.flatten := by
  induction es with
  | nil => rfl
  | cons e es ih =>
    rw [List.flatMap_cons, contents_append, ih, List.mapM_cons, BootBlock.content]
    cases contents image e.segments with
    | error _ => rfl
    | ok b => cases es.mapM (BootBlock.content · image) <;> rfl

end Segment

/-! ## Images that cannot be told apart -/

namespace Measure

open Update

/-- The manifest is a boot policy manifest whose boot blocks measure the same in two images. -/
def Indistinct (out image : Bytes) (m : Manifest) : Prop :=
  ∃ p, m = .bootPolicy p ∧ ∀ e ∈ p.bootBlocks, e.content out = e.content image

/-- The manifest in the place of the boot policy manifest has a property. -/
def Slots.PolicyHas (P : Manifest → Prop) (s : Slots) : Prop := ∃ m, s.policy = some m ∧ P m

theorem Indistinct.of_withOffset {out image : Bytes} {m m' : Manifest}
    (hm : Indistinct out image m) (h : m'.withOffset 0 = m.withOffset 0) :
    Indistinct out image m' := by
  obtain ⟨p, rfl, hp⟩ := hm
  cases m' with
  | keyManifest k => cases h
  | bootPolicy p' =>
    have hblocks : p'.bootBlocks = p.bootBlocks := by
      injection h with h
      exact (congrArg BootPolicy.bootBlocks h :)
    refine ⟨p', rfl, ?_⟩
    rwa [hblocks]

/-! ### What the nodes keep -/

theorem keeps_signedDigest (m0 : Manifest) (alg : Int) :
    Keeps (fun m => m.withOffset 0 = m0.withOffset 0) (Manifest.signedDigest alg) :=
  (Manifest.keeps_assemble m0).bind fun _ =>
    (Manifest.keeps_signedRegionEnd m0).bind fun _ => keeps_ofExcept _

theorem keeps_signedDigests (m0 : Manifest) (algs : List Int) :
    Keeps (fun m => m.withOffset 0 = m0.withOffset 0) (signedDigests algs) := by
  induction algs with
  | nil => exact keeps_pure _
  | cons alg algs ih =>
    exact (keeps_signedDigest m0 alg).bind fun _ => ih.bind fun _ => keeps_pure _

/-- Computing the digests of a signed region changes nothing but the kept offset. -/
theorem keeps_runSigned (m0 : Manifest) (algs : Option (List Int)) :
    Keeps (fun m => m.withOffset 0 = m0.withOffset 0) (runSigned algs) :=
  keeps_get.bind fun _ => (keeps_signedDigests m0 _).bind fun _ => keeps_pure _

theorem keeps_onPolicy {α : Type} {P : Manifest → Prop} {u : Update Manifest α}
    (h : Keeps P u) : Keeps (Slots.PolicyHas P) (onPolicy u) := by
  intro s hs
  obtain ⟨m, hm, hP⟩ := hs
  rw [runOn_onPolicy hm]
  exact ⟨_, rfl, h m hP⟩

/-- Work on the key manifest leaves the boot policy manifest alone. -/
theorem keeps_onKeys {α : Type} (P : Manifest → Prop) (u : Update Manifest α) :
    Keeps (Slots.PolicyHas P) (onKeys u) := by
  intro s hs
  cases hk : s.keys with
  | none =>
    rw [onKeys, runOn_get_bind, hk]
    exact hs
  | some k =>
    rw [runOn_onKeys hk]
    exact hs

section Indistinct

variable (out image : Bytes) (algs : Option (List Int))

/-- What a boot block measures does not depend on the digests it has. -/
theorem keeps_runBlock (measured : Bytes) (i : Nat) :
    Keeps (fun p => ∀ e ∈ p.bootBlocks, e.content out = e.content image)
      (runBlock measured algs i) := by
  intro p hp
  rw [runBlock, runOn_get_bind]
  cases hget : p.bootBlocks[i]? with
  | none => exact hp
  | some e =>
    have hset : ∀ l, ∀ e' ∈ p.bootBlocks.set i { e with digestList := l },
        e'.content out = e'.content image := by
      intro l e' he'
      obtain he' | rfl := List.mem_or_eq_of_mem_set he'
      · exact hp e' he'
      · exact hp e (List.mem_of_getElem? hget)
    rw [runOn_bind, runOn_ofExcept]
    cases rehashBlock measured algs e with
    | error _ => exact hp
    | ok l => exact hset l

theorem keeps_onBlock (measured : Bytes) (i : Nat) :
    Keeps (Slots.PolicyHas (Indistinct out image))
      (onPolicy (Manifest.onBootPolicy (runBlock measured algs i))) := by
  refine keeps_onPolicy fun m hm => ?_
  obtain ⟨p, rfl, hp⟩ := hm
  rw [Manifest.runOn_onBootPolicy]
  exact ⟨_, rfl, keeps_runBlock out image algs measured i p hp⟩

theorem keeps_run (measured : Option Bytes) (t : Task) :
    Keeps (Slots.PolicyHas (Indistinct out image)) (run measured algs t) := by
  cases t with
  | bootBlock i => exact (keeps_onBlock out image algs _ i).bind fun _ => keeps_pure _
  | policy =>
    exact keeps_onPolicy fun m hm => hm.of_withOffset (keeps_runSigned m algs m rfl)
  | keys =>
    refine keeps_get.bind fun s => ?_
    cases s.policy with
    | none => exact keeps_onKeys _ _
    | some policy => exact (keeps_onKeys _ _).bind fun _ => keeps_onKeys _ _

/-! ### What the nodes compute -/

theorem agreeOn_runBlock (i : Nat) :
    AgreeOn (fun p => ∀ e ∈ p.bootBlocks, e.content out = e.content image)
      (runBlock out algs i) (runBlock image algs i) := by
  intro p hp
  rw [runBlock, runBlock, runOn_get_bind, runOn_get_bind]
  cases hget : p.bootBlocks[i]? with
  | none => rfl
  | some e =>
    have hrehash : rehashBlock out algs e = rehashBlock image algs e := by
      unfold rehashBlock
      rw [hp e (List.mem_of_getElem? hget)]
    dsimp only
    rw [hrehash]

theorem agreeOn_run (t : Task) :
    AgreeOn (Slots.PolicyHas (Indistinct out image)) (run (some out) algs t)
      (run (some image) algs t) := by
  cases t with
  | bootBlock i =>
    have hrun : AgreeOn (Slots.PolicyHas (Indistinct out image))
        (onPolicy (Manifest.onBootPolicy (runBlock out algs i)))
        (onPolicy (Manifest.onBootPolicy (runBlock image algs i))) := by
      intro s hs
      obtain ⟨_, hs, p, rfl, hp⟩ := hs
      rw [runOn_onPolicy hs, runOn_onPolicy hs, Manifest.runOn_onBootPolicy,
        Manifest.runOn_onBootPolicy, agreeOn_runBlock out image algs i p hp]
    exact hrun.andThen _
  | policy => exact agreeOn_refl _
  | keys => exact agreeOn_refl _

end Indistinct

theorem Graph.agreeOn_runAll {α β σ : Type} {P : σ → Prop} {r r' : α → Update σ β}
    (hkeeps : ∀ t, Keeps P (r t)) (hagree : ∀ t, AgreeOn P (r t) (r' t)) (g : Graph α)
    (names : List String) : AgreeOn P (g.runAll r names) (g.runAll r' names) := by
  induction names with
  | nil => exact agreeOn_refl _
  | cons name names ih =>
    rw [runAll, runAll]
    cases g.find? name with
    | none => exact agreeOn_refl _
    | some n =>
      exact (hagree n.task).bind (hkeeps n.task) fun _ => ih.andThen _

/-- Computing the digests of a manifest over images in which its boot blocks measure the same
makes no difference: neither to the outcome nor to the manifest that is left. -/
theorem rehash_congr {p : BootPolicy} {out image : Bytes}
    (h : ∀ e ∈ p.bootBlocks, e.content out = e.content image)
    (algs : Option (List Algorithm.Spec)) (policy : Option Manifest) :
    rehash (.bootPolicy p) (some out) algs policy =
      rehash (.bootPolicy p) (some image) algs policy := by
  have hagree : AgreeOn (Slots.PolicyHas (Indistinct out image)) (rehashAll (some out) algs)
      (rehashAll (some image) algs) := by
    rw [rehashAll_eq, rehashAll_eq]
    refine (agreeOn_refl _).bind (keeps_ofExcept _) fun asked => ?_
    refine (agreeOn_refl _).bind keeps_get fun s => ?_
    refine (agreeOn_refl _).bind (keeps_ofExcept _) fun g => ?_
    refine (agreeOn_refl _).bind (keeps_ofExcept _) fun names => ?_
    exact g.agreeOn_runAll (keeps_run out image asked _) (agreeOn_run out image asked) names
  exact hagree _ ⟨_, rfl, p, rfl, h⟩

/-! ## Manifests that were read -/

section Read

variable {strict : Bool} {b : Bytes} {p : BootPolicy}
  (h : Manifest.ofBytes strict b = .ok (.bootPolicy p))
include h

theorem measuredRanges_of_ofBytes (n : Int) :
    measuredRanges b n = segmentRanges n (p.bootBlocks.flatMap (·.segments)) := by
  have hread : Manifest.ofBytes false b = .ok (.bootPolicy p) := by
    cases strict with
    | false => exact h
    | true =>
      have hstrict := Manifest.ofBytes_eq_bootPolicy_iff.1 h
      exact Manifest.ofBytes_eq_bootPolicy_iff.2 (BootPolicy.ofBytes_of_strict hstrict)
  rw [measuredRanges, hread, ok_bind]

theorem located_of_mem_flatMap :
    ∀ s ∈ p.bootBlocks.flatMap (·.segments), s.Located := by
  intro s hs
  obtain ⟨e, he, hs⟩ := List.mem_flatMap.1 hs
  exact BootPolicy.located_of_ofBytes (Manifest.ofBytes_eq_bootPolicy_iff.1 h) e he s hs

/-- The boot blocks can be measured exactly if there are ranges to protect and every measured
segment that is empty maps into the image; what they measure is what the ranges cover. -/
theorem contents_of_ofBytes_iff {image bytes : Bytes} :
    (p.bootBlocks.mapM (BootBlock.content · image)).map List.flatten = .ok bytes ↔
      ∃ ranges, measuredRanges b image.length = .ok ranges ∧
        Segment.EmptyMap image.length (p.bootBlocks.flatMap (·.segments)) ∧
        bytes = image.slices ranges := by
  rw [← Segment.contents_flatMap, measuredRanges_of_ofBytes h,
    Segment.contents_eq_ok_iff (located_of_mem_flatMap h)]

/-- What stitching protects is what boot blocks measure: where all of them can be measured there
are ranges, none is empty, all lie in the image, and in order they cover what is measured. Where
there are ranges, all boot blocks can be measured exactly if every measured segment that is empty
maps into the image, and computing digests over an image of the same size that agrees on the
ranges makes no difference. -/
theorem protects_measured (image : Bytes) :
    (∀ contents, p.bootBlocks.mapM (BootBlock.content · image) = .ok contents →
      ∃ ranges, measuredRanges b image.length = .ok ranges ∧
        (∀ r ∈ ranges, r.1 < r.2 ∧ r.2 ≤ image.length) ∧
        image.slices ranges = contents.flatten) ∧
    ∀ ranges, measuredRanges b image.length = .ok ranges →
      ((∃ contents, p.bootBlocks.mapM (BootBlock.content · image) = .ok contents) ↔
        Segment.EmptyMap image.length (p.bootBlocks.flatMap (·.segments))) ∧
      ∀ out, out.length = image.length → (∀ r ∈ ranges, Bytes.Agree out image r) →
        ∀ algs policy, rehash (.bootPolicy p) (some out) algs policy =
          rehash (.bootPolicy p) (some image) algs policy := by
  have hsegments := located_of_mem_flatMap h
  refine ⟨fun contents hcontents => ?_, fun ranges hranges => ⟨⟨?_, ?_⟩, ?_⟩⟩
  · obtain ⟨ranges, hranges, _, heq⟩ :=
      (contents_of_ofBytes_iff h).1 (map_eq_ok_iff.2 ⟨contents, hcontents, rfl⟩)
    refine ⟨ranges, hranges, ?_, heq.symm⟩
    rw [measuredRanges_of_ofBytes h] at hranges
    exact Segment.segmentRanges_bounds hsegments hranges
  · intro hall
    obtain ⟨contents, hcontents⟩ := hall
    obtain ⟨_, _, hempty, _⟩ :=
      (contents_of_ofBytes_iff h).1 (map_eq_ok_iff.2 ⟨contents, hcontents, rfl⟩)
    exact hempty
  · intro hempty
    obtain ⟨contents, hcontents, _⟩ :=
      map_eq_ok_iff.1 ((contents_of_ofBytes_iff h).2 ⟨ranges, hranges, hempty, rfl⟩)
    exact ⟨contents, hcontents⟩
  · intro out hlen hagree algs policy
    rw [measuredRanges_of_ofBytes h] at hranges
    refine rehash_congr (fun e he => ?_) algs policy
    have hlocated : ∀ s ∈ e.segments, s.Located :=
      fun s hs => hsegments s (List.mem_flatMap.2 ⟨e, he, hs⟩)
    exact BootBlock.content_congr_of_ranges hranges he hlen hlocated fun r hr _ => hagree r hr

end Read

/-! ## A manifest with overlapping segments -/

/-- A manifest of two boot blocks: one measures eight bytes by address and names bytes that are
not in the image, without measuring them; the other measures eight bytes by offset, which overlap
with those of the first, and has an empty segment. -/
def shieldPolicy : BootPolicy where
  header := { nemPages := 1 }
  bootBlocks :=
    [{ segments := [{ base := 0xFFFFFFE4, size := 8 }, { flags := 1, base := 0x40, size := 8 }] },
     { setType := 1, segments := [{ base := 8, size := 8 }, { base := 0xFFFFFFFF, size := 0 }] }]
  signature := { keySignature := none }
  keySignatureOffset := 240

def shieldBytes : Bytes := (BootPolicy.assemble.runOn shieldPolicy).1.toOption.getD []

def shieldImage : Bytes := List.replicate 32 0x5A

/-- All bytes that are not measured are changed. -/
def shieldOut : Bytes := Bytes.zeros 4 ++ List.replicate 12 0x5A ++ Bytes.zeros 16

theorem ofBytes_shield : Manifest.ofBytes true shieldBytes = .ok (.bootPolicy shieldPolicy) :=
  eq_ok_of_toOption (by decide +kernel)

theorem measuredRanges_shield :
    measuredRanges shieldBytes shieldImage.length = .ok [(4, 12), (8, 16)] :=
  eq_ok_of_toOption (by decide +kernel)

theorem agree_shield : ∀ r ∈ [(4, 12), (8, 16)], Bytes.Agree shieldOut shieldImage r := by
  have hall : ∀ i < 16, 4 ≤ i → shieldOut[i]? = shieldImage[i]? := by decide
  intro r hr i hi
  simp only [List.mem_cons, List.not_mem_nil, or_false] at hr
  obtain rfl | rfl := hr
  · exact hall i (by have := hi.2; omega) hi.1
  · exact hall i hi.2 (by have := hi.1; omega)

theorem emptyMap_shield : Segment.EmptyMap shieldImage.length
    (shieldPolicy.bootBlocks.flatMap (·.segments)) := by
  intro s hs _ hsize
  simp only [shieldPolicy, List.flatMap_cons, List.flatMap_nil, List.cons_append,
    List.nil_append, List.mem_cons, List.not_mem_nil, or_false] at hs
  obtain rfl | rfl | rfl | rfl := hs
  · exact absurd hsize (by decide)
  · exact absurd hsize (by decide)
  · exact absurd hsize (by decide)
  · exact ⟨31, eq_ok_of_toOption (by decide)⟩

/-- The empty segment maps to the last byte, so both boot blocks can be measured: sixteen bytes in
two ranges. The other twenty bytes have no part in the digests. -/
theorem protects_measured_sample :
    Manifest.ofBytes true shieldBytes = .ok (.bootPolicy shieldPolicy) ∧
      (∃ contents, shieldPolicy.bootBlocks.mapM (BootBlock.content · shieldImage) = .ok contents ∧
        contents.flatten = shieldImage.slices [(4, 12), (8, 16)]) ∧
      ∀ algs policy, rehash (.bootPolicy shieldPolicy) (some shieldOut) algs policy =
        rehash (.bootPolicy shieldPolicy) (some shieldImage) algs policy := by
  obtain ⟨hcovered, hprotected⟩ := protects_measured ofBytes_shield shieldImage
  obtain ⟨hmeasurable, hcongr⟩ := hprotected _ measuredRanges_shield
  refine ⟨ofBytes_shield, ?_, hcongr shieldOut rfl agree_shield⟩
  obtain ⟨contents, hcontents⟩ := hmeasurable.2 emptyMap_shield
  obtain ⟨ranges, hranges, _, hslices⟩ := hcovered contents hcontents
  rw [measuredRanges_shield] at hranges
  cases hranges
  exact ⟨contents, hcontents, hslices.symm⟩

end Measure

end BootGuard
