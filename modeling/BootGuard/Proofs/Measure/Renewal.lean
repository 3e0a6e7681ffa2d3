/-
  Computing all digests anew leaves none behind that is stale.

  `Renewed` says what a run makes of the manifests that it is given, and which digests it
  yields. Every step of a run is a fixed point of itself, so the same run from what it has left
  behind yields the same digests and changes nothing (`rehashAll_renewed`).
-/
import BootGuard.Proofs.Measure.Rehash

namespace BootGuard

/-- A key manifest without what computing digests changes. -/
def KeyManifest.withoutHashes (k : KeyManifest) : KeyManifest :=
  { k with body := { k.body with hashes := [] }, keySignatureOffset := 0 }

namespace Measure

/-! ## What a run makes of its manifests -/

/-- The boot block `e'` is `e` with a digest of what it measures in the image for each algorithm
that is wanted; without an image it is `e`. -/
def BlockRenewed (image : Option Bytes) (algs : Option (List Int)) (e e' : BootBlock) : Prop :=
  match image with
  | none => e' = e
  | some image => e'.withoutDigests = e.withoutDigests ∧
      ∃ content, e.content image = .ok content ∧
        List.Forall₂ (fun alg d => d.hashAlg = alg ∧ Algorithm.IsDigest content alg d.buffer)
          (wantedAlgs algs e) e'.digestList.digests

/-- The boot policy manifest `p'` is `p` with renewed boot blocks. -/
structure PolicyRenewed (image : Option Bytes) (algs : Option (List Int)) (p p' : BootPolicy) :
    Prop where
  rest : p'.withoutDigests = p.withoutDigests
  blocks : List.Forall₂ (BlockRenewed image algs) p.bootBlocks p'.bootBlocks

/-- The key hash `h'` is `h`, with the digest of the key of the boot policy manifest under the
algorithm that `h` has if it is for such keys and there is the manifest. -/
def HashRenewed (policy : Option BootPolicy) (h h' : KeyHash) : Prop :=
  match policy, h.signsBootPolicy with
  | some p, true => ∃ s d, p.keySignature = some s ∧ s.key.populated = true ∧
      Algorithm.IsDigest s.key.data h.digest.hashAlg d ∧
      h' = { h with digest := ⟨h.digest.hashAlg, d⟩ }
  | _, _ => h' = h

/-- The key manifest `k'` is `k` with renewed key hashes. -/
structure KeysRenewed (policy : Option BootPolicy) (k k' : KeyManifest) : Prop where
  rest : k'.withoutHashes = k.withoutHashes
  hashes : List.Forall₂ (HashRenewed policy) k.body.hashes k'.body.hashes

/-- The digests `ds` are those of the bytes that a signature of the manifest covers. Assembling
the manifest does not change it. -/
def Recorded (algs : Option (List Int)) (m : Manifest) (ds : List (Int × Bytes)) : Prop :=
  ∃ b stop, Manifest.assemble.runOn m = (.ok b, m) ∧
    Manifest.signedRegionEnd.runOn m = (.ok stop, m) ∧
    List.Forall₂ (fun alg d => d.1 = alg ∧ Algorithm.IsDigest (b.take stop) alg d.2)
      (signedAlgs algs m) ds

/-- What a run leaves behind, `p'` of `p` and `k'` of `k`, and what it yields. -/
structure Renewed (image : Option Bytes) (algs : Option (List Int)) (p p' : Option BootPolicy)
    (k k' : Option KeyManifest) (results : List (String × Outcome)) : Prop where
  names : results.map Prod.fst =
    (if image.isSome then (List.range (p.elim 0 (·.bootBlocks.length))).map blockName else []) ++
      (p.map fun _ => "bpm").toList ++ (k.map fun _ => "km").toList
  policy : Option.Rel (PolicyRenewed image algs) p p'
  keys : Option.Rel (KeysRenewed p') k k'
  recorded : ∃ ps ks : Option (List (Int × Bytes)),
    Option.Rel (fun q ds => Recorded algs (.bootPolicy q) ds) p' ps ∧
    Option.Rel (fun q ds => Recorded algs (.keyManifest q) ds) k' ks ∧
    results = (if image.isSome then blockResults 0 (p'.elim [] (·.bootBlocks)) else []) ++
      (ps.map fun ds => ("bpm", .signed ds)).toList ++
      (ks.map fun ds => ("km", .signed ds)).toList

/-! ## The steps -/

theorem blockRenewed_of_renewBlock {image : Bytes} {algs : Option (List Int)} {e e' : BootBlock}
    (h : renewBlock image algs e = .ok e') : BlockRenewed (some image) algs e e' := by
  obtain ⟨l, hl, rfl⟩ := map_eq_ok_iff.1 h
  obtain ⟨_, content, hcontent, hdigests⟩ := rehashBlock_eq_ok_iff.1 hl
  refine ⟨rfl, content, hcontent, (mapM_eq_ok_iff.1 hdigests).imp fun alg d hd => ?_⟩
  obtain ⟨b, hb, rfl⟩ := map_eq_ok_iff.1 hd
  exact ⟨rfl, Algorithm.hash_eq_ok_iff.1 hb⟩

theorem blocksRenewed_of_renewBlocks {image : Option Bytes} {algs : Option (List Int)}
    {es es' : List BootBlock} (h : renewBlocks image algs es = .ok es') :
    List.Forall₂ (BlockRenewed image algs) es es' := by
  cases image with
  | none =>
    cases h
    exact List.forall₂_same.2 fun _ _ => rfl
  | some image => exact (mapM_eq_ok_iff.1 h).imp fun _ _ he => blockRenewed_of_renewBlock he

theorem Signs.recorded {algs : Option (List Int)} {m m' : Manifest} {ds : List (Int × Bytes)}
    (h : Signs algs m m' ds) : Recorded algs m' ds := by
  obtain ⟨region, signature, hr, hs, rfl, hds⟩ := h
  have hasm := Manifest.assemble_eq_ok_iff.2 ⟨region, signature, hr, hs, rfl, rfl⟩
  refine ⟨_, _, Manifest.assemble_idem hasm, Manifest.runOn_signedRegionEnd hr, ?_⟩
  rw [signedAlgs_withOffset, List.take_left]
  refine (mapM_eq_ok_iff.1 hds).imp fun alg d hd => ?_
  obtain ⟨b, hb, rfl⟩ := map_eq_ok_iff.1 hd
  exact ⟨rfl, Algorithm.hash_eq_ok_iff.1 hb⟩

/-- The steps for a boot policy manifest, with their parts. -/
theorem PolicyStep.renewed {image : Option Bytes} {algs : Option (List Int)} {p p' : BootPolicy}
    {results : List (String × Outcome)} (h : PolicyStep image algs p p' results) :
    PolicyRenewed image algs p p' ∧ ∃ ds, Recorded algs (.bootPolicy p') ds ∧
      results = (if image.isSome then blockResults 0 p'.bootBlocks else []) ++
        [("bpm", .signed ds)] := by
  have hrest := h.withoutDigests_eq
  obtain ⟨es, ds, hes, hsigns, rfl⟩ := h
  have hblocks : p'.bootBlocks = es := by
    obtain ⟨_, _, _, _, hm, _⟩ := hsigns
    cases hm
    rfl
  subst hblocks
  exact ⟨⟨hrest, blocksRenewed_of_renewBlocks hes⟩, ds, hsigns.recorded, rfl⟩

theorem hashRenewed_of_renewHash {p : BootPolicy} {h h' : KeyHash}
    (hh : renewHash (.bootPolicy p) h = .ok h') : HashRenewed (some p) h h' := by
  unfold HashRenewed
  cases hbit : h.signsBootPolicy with
  | false =>
    rw [renewHash, hbit] at hh
    cases hh
    rfl
  | true =>
    rw [renewHash, if_pos hbit] at hh
    simp only [bind_eq_ok_iff, pure_eq_ok, Except.ok.injEq] at hh
    obtain ⟨key, hkey, d, hd, rfl⟩ := hh
    unfold policyKey at hkey
    split at hkey
    · cases hkey
    · rename_i s hs
      split at hkey
      · rename_i hpopulated
        cases hkey
        rw [KeyDescriptor.dataDigest, if_pos hpopulated] at hd
        exact ⟨s, d, hs, hpopulated, Algorithm.hash_eq_ok_iff.1 hd, rfl⟩
      · cases hkey

theorem keysRenewed_of_renewHashes {policy : Option BootPolicy} {k k' : KeyManifest}
    (h : renewHashes (policy.map .bootPolicy) k = .ok k') : KeysRenewed policy k k' := by
  cases policy with
  | none =>
    cases h
    exact ⟨rfl, List.forall₂_same.2 fun _ _ => rfl⟩
  | some p =>
    obtain ⟨hs, hhs, rfl⟩ := map_eq_ok_iff.1 h
    exact ⟨rfl, (mapM_eq_ok_iff.1 hhs).imp fun _ _ hh => hashRenewed_of_renewHash hh⟩

/-- The step for a key manifest, with its parts. -/
theorem KeysStep.renewed {policy : Option BootPolicy} {algs : Option (List Int)}
    {k k' : KeyManifest} {results : List (String × Outcome)}
    (h : KeysStep policy algs k k' results) :
    KeysRenewed policy k k' ∧ ∃ ds, Recorded algs (.keyManifest k') ds ∧
      results = [("km", .signed ds)] := by
  obtain ⟨k1, ds, hk1, hsigns, rfl⟩ := h
  obtain ⟨hrest, hhashes⟩ := keysRenewed_of_renewHashes hk1
  have hrecorded := hsigns.recorded
  obtain ⟨_, _, _, _, hm, _⟩ := hsigns
  cases hm
  exact ⟨⟨hrest, hhashes⟩, ds, hrecorded, rfl⟩

/-! ## Steps that are made again -/

theorem IfPresent.idem {α β : Type} {step : α → α → List β → Prop}
    (hstep : ∀ a a' results, step a a' results → step a' a' results) {o o' : Option α}
    {results : List β} (h : IfPresent step o o' results) : IfPresent step o' o' results := by
  cases h with
  | none => exact .none
  | some h => exact .some (hstep _ _ _ h)

theorem PolicyStep.idem {image : Option Bytes} {algs : Option (List Int)} (p p' : BootPolicy)
    (results : List (String × Outcome)) (h : PolicyStep image algs p p' results) :
    PolicyStep image algs p' p' results := by
  obtain ⟨es, ds, hes, hsigns, rfl⟩ := h
  have hagain := hsigns.idem
  obtain ⟨_, _, _, _, hm, _⟩ := hsigns
  cases hm
  exact ⟨es, ds, renewBlocks_idem hes, hagain, rfl⟩

theorem KeysStep.idem {policy : Option BootPolicy} {algs : Option (List Int)}
    (k k' : KeyManifest) (results : List (String × Outcome))
    (h : KeysStep policy algs k k' results) : KeysStep policy algs k' k' results := by
  obtain ⟨k1, ds, hk1, hsigns, rfl⟩ := h
  have hagain := hsigns.idem
  obtain ⟨_, _, _, _, hm, _⟩ := hsigns
  cases hm
  refine ⟨_, ds, ?_, hagain, rfl⟩
  cases policy with
  | none => rfl
  | some p =>
    obtain ⟨hs, hhs, rfl⟩ := map_eq_ok_iff.1 hk1
    exact map_eq_ok_iff.2 ⟨hs, mapM_idem renewHash_idem hhs, rfl⟩

/-- The graph of what is left behind is the same. -/
theorem graph_of_steps {image : Option Bytes} {algs : Option (List Int)}
    {p p' : Option BootPolicy} {k k' : Option KeyManifest} {policy : Option BootPolicy}
    {first rest : List (String × Outcome)} (hp : IfPresent (PolicyStep image algs) p p' first)
    (hk : IfPresent (KeysStep policy algs) k k' rest) :
    graph image.isSome (slots p' k') = graph image.isSome (slots p k) := by
  refine graph_congr ?_ ?_ ?_
  · cases hp with
    | none => rfl
    | some h =>
      have hlength := h.renewed.1.blocks.length_eq
      unfold blockCount
      cases image with
      | none => rfl
      | some image => exact congrArg Except.ok hlength.symm
  · cases hp <;> rfl
  · cases hk <;> rfl

/-! ## The whole run -/

theorem map_fst_blockResults (index : Nat) (es : List BootBlock) :
    (blockResults index es).map Prod.fst = (List.range' index es.length).map blockName := by
  induction es generalizing index with
  | nil => rfl
  | cons e es ih => rw [blockResults, List.map_cons, ih, List.length_cons, List.range'_succ,
      List.map_cons]

theorem renewed_of_steps {image : Option Bytes} {algs : Option (List Int)}
    {p p' : Option BootPolicy} {k k' : Option KeyManifest} {first rest : List (String × Outcome)}
    (hp : IfPresent (PolicyStep image algs) p p' first)
    (hk : IfPresent (KeysStep p' algs) k k' rest) :
    Renewed image algs p p' k k' (first ++ rest) := by
  have hpolicy : ∃ ps : Option (List (Int × Bytes)), Option.Rel (PolicyRenewed image algs) p p' ∧
      Option.Rel (fun q ds => Recorded algs (.bootPolicy q) ds) p' ps ∧
      first = (if image.isSome then blockResults 0 (p'.elim [] (·.bootBlocks)) else []) ++
        (ps.map fun ds => ("bpm", .signed ds)).toList := by
    cases hp with
    | none => exact ⟨none, .none, .none, by cases image <;> rfl⟩
    | some h =>
      obtain ⟨hrenewed, ds, hds, rfl⟩ := h.renewed
      exact ⟨some ds, .some hrenewed, .some hds, rfl⟩
  have hkeys : ∃ ks : Option (List (Int × Bytes)), Option.Rel (KeysRenewed p') k k' ∧
      Option.Rel (fun q ds => Recorded algs (.keyManifest q) ds) k' ks ∧
      rest = (ks.map fun ds => ("km", .signed ds)).toList := by
    cases hk with
    | none => exact ⟨none, .none, .none, rfl⟩
    | some h =>
      obtain ⟨hrenewed, ds, hds, rfl⟩ := h.renewed
      exact ⟨some ds, .some hrenewed, .some hds, rfl⟩
  obtain ⟨ps, hprel, hps, rfl⟩ := hpolicy
  obtain ⟨ks, hkrel, hks, rfl⟩ := hkeys
  refine ⟨?_, hprel, hkrel, ps, ks, hps, hks, rfl⟩
  have hblocks : (if image.isSome then blockResults 0 (p'.elim [] (·.bootBlocks))
      else []).map Prod.fst =
        if image.isSome then (List.range (p.elim 0 (·.bootBlocks.length))).map blockName
        else [] := by
    cases image with
    | none => rfl
    | some image =>
      rw [Option.isSome_some, if_pos rfl, if_pos rfl, map_fst_blockResults, List.range_eq_range']
      cases hprel with
      | none => rfl
      | some h => rw [Option.elim_some, Option.elim_some, h.blocks.length_eq]
  rw [List.map_append, List.map_append, hblocks]
  congr 1
  · congr 1
    cases hprel with
    | none =>
      cases hps
      rfl
    | some _ =>
      cases hps
      rfl
  · cases hkrel with
    | none =>
      cases hks
      rfl
    | some _ =>
      cases hks
      rfl

/-- No digest is stale after all were computed anew, and nothing else but the kept offsets has
changed; computing them once more yields the same and changes nothing. -/
theorem rehashAll_renewed {image : Option Bytes} {algs : Option (List Algorithm.Spec)}
    {p : Option BootPolicy} {k : Option KeyManifest} {s : Slots}
    {results : List (String × Outcome)}
    (h : (rehashAll image algs).runOn (slots p k) = (.ok results, s)) :
    ∃ asked p' k', askedFor algs = .ok asked ∧ s = slots p' k' ∧
      Renewed image asked p p' k k' results ∧
      (rehashAll image algs).runOn (slots p' k') = (.ok results, slots p' k') := by
  obtain ⟨asked, g, p', k', first, rest, hasked, hg, hp, hk, rfl, rfl⟩ :=
    rehashAll_eq_ok_iff_steps.1 h
  refine ⟨asked, p', k', hasked, rfl, renewed_of_steps hp hk, ?_⟩
  refine rehashAll_eq_ok_iff_steps.2 ⟨asked, g, p', k', first, rest, hasked, ?_,
    hp.idem PolicyStep.idem, hk.idem KeysStep.idem, rfl, rfl⟩
  rw [graph_of_steps hp hk]
  exact hg

/-- An image of 32 bytes. -/
def sampleImage : Bytes := List.replicate 32 0x5A

/-- A boot policy manifest with a key, whose one boot block is the upper half of the image. -/
def samplePolicy : BootPolicy where
  header := { nemPages := 3 }
  bootBlocks := [{ segments := [{ base := 0xFFFFFFF0, size := 0x10 }] }]
  signature :=
    { keySignature := some { key := { keyAlg := Algorithm.ecc, keySize := 8, data := [1, 2] } } }

/-- A key manifest with one hash for keys of boot policy manifests and one for other keys. -/
def sampleKeys : KeyManifest where
  body :=
    { hashes := [⟨1, ⟨Algorithm.sha256, Bytes.zeros 32⟩⟩, ⟨2, ⟨Algorithm.sha1, Bytes.zeros 20⟩⟩] }

def sampleAlgs : List Algorithm.Spec := [.text "sha256", .id Algorithm.sha1]

def sampleGraph : Graph Task := ⟨taskNodes 1 true true⟩

theorem order_sampleGraph :
    sampleGraph.order Graph.recursionLimit = .ok ["ibb:0", "bpm", "km"] := by cbv

/-- The boot policy manifest with the digests of sixteen bytes 0x5A. -/
def renewedPolicy : BootPolicy :=
  { samplePolicy with
    keySignatureOffset := 184
    bootBlocks := samplePolicy.bootBlocks.map fun e => { e with
      digestList := ⟨[
        ⟨Algorithm.sha256,
          [0x1C, 0x71, 0x2E, 0xCC, 0x21, 0xE2, 0x7E, 0x37, 0x41, 0x11, 0xD5, 0xA1, 0xBE, 0xEA, 0xF7,
           0x5A, 0x4E, 0x34, 0x3B, 0x38, 0x14, 0xC1, 0x84, 0x7C, 0xBA, 0x14, 0x01, 0x34, 0x20, 0x80,
           0x98, 0x73]⟩,
        ⟨Algorithm.sha1,
          [0xCA, 0x06, 0x15, 0x90, 0x25, 0x81, 0xFF, 0xAC, 0xBD, 0xA1, 0x3B, 0x28, 0x63, 0x05, 0xFD,
           0x6D, 0xA9, 0x2D, 0x04, 0x42]⟩]⟩ } }

/-- The key manifest with the digest of the bytes 1 and 2. -/
def renewedKeys : KeyManifest where
  keySignatureOffset := 100
  body :=
    { hashes := [
        ⟨1, ⟨Algorithm.sha256,
          [0xA1, 0x28, 0x71, 0xFE, 0xE2, 0x10, 0xFB, 0x86, 0x19, 0x29, 0x1E, 0xAE, 0xA1, 0x94, 0x58,
           0x1C, 0xBD, 0x25, 0x31, 0xE4, 0xB2, 0x37, 0x59, 0xD2, 0x25, 0xF6, 0x80, 0x69, 0x23, 0xF6,
           0x32, 0x22]⟩⟩,
        ⟨2, ⟨Algorithm.sha1, Bytes.zeros 20⟩⟩] }

theorem rehashAll_renewed_sample : ∃ results asked,
    (rehashAll (some sampleImage) (some sampleAlgs)).runOn
      (slots (some samplePolicy) (some sampleKeys)) =
        (.ok results, slots (some renewedPolicy) (some renewedKeys)) ∧
    askedFor (some sampleAlgs) = .ok asked ∧
    Renewed (some sampleImage) asked (some samplePolicy) (some renewedPolicy) (some sampleKeys)
      (some renewedKeys) results ∧
    (rehashAll (some sampleImage) (some sampleAlgs)).runOn
      (slots (some renewedPolicy) (some renewedKeys)) =
        (.ok results, slots (some renewedPolicy) (some renewedKeys)) := by
  have hasked : askedFor (some sampleAlgs) = .ok (some [Algorithm.sha256, Algorithm.sha1]) :=
    eq_ok_of_toOption (by decide +kernel)
  have hgraph : graph true (slots (some samplePolicy) (some sampleKeys)) = .ok sampleGraph := rfl
  have hrun := Update.runOn_of_isOk []
    (u := sampleGraph.runAll (run (some sampleImage) (some [Algorithm.sha256, Algorithm.sha1]))
      ["ibb:0", "bpm", "km"])
    (s := slots (some samplePolicy) (some sampleKeys)) (by decide +kernel)
  have hslots : ((sampleGraph.runAll
      (run (some sampleImage) (some [Algorithm.sha256, Algorithm.sha1]))
      ["ibb:0", "bpm", "km"]).runOn (slots (some samplePolicy) (some sampleKeys))).2 =
        slots (some renewedPolicy) (some renewedKeys) := by decide +kernel
  rw [hslots] at hrun
  have hrehash : (rehashAll (some sampleImage) (some sampleAlgs)).runOn
      (slots (some samplePolicy) (some sampleKeys)) =
        (.ok _, slots (some renewedPolicy) (some renewedKeys)) :=
    rehashAll_eq_ok_iff.2
      ⟨_, sampleGraph, hasked, hgraph, Graph.walk_eq_ok_iff.2 ⟨_, order_sampleGraph, hrun⟩⟩
  obtain ⟨asked, p', k', hasked', hs, hrenewed, hagain⟩ := rehashAll_renewed hrehash
  obtain ⟨rfl, rfl⟩ := slots_inj hs
  exact ⟨_, asked, hrehash, hasked', hrenewed, hagain⟩

end Measure

end BootGuard
