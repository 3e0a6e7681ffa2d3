/-
  The steps of computing digests anew.

  A boot block gets the digests of what it measures, a manifest is assembled for the digests of
  its signed region, and key hashes follow the key of a boot policy manifest. A step that is
  made again with what it has left behind changes nothing (`renewBlocks_idem`, `Signs.idem`,
  `renewHash_idem`).
-/
import BootGuard.Measure.Rehash
import BootGuard.Proofs.Manifest.SignedRegion
import BootGuard.Proofs.Measure.Content

namespace BootGuard.Measure

/-! ## Boot blocks -/

/-- The algorithms for the digests of a boot block: those asked for, or else those it has; there
is at least one. -/
def wantedAlgs (algs : Option (List Int)) (e : BootBlock) : List Int :=
  let wanted := algs.getD e.digestList.algorithms
  if wanted.isEmpty then [defaultAlg] else wanted

/-- The digests of data are under the algorithms asked for. -/
theorem map_hashAlg_of_ofData {content : Bytes} {algs : List Int} {ds : List Digest}
    (h : algs.mapM (fun alg => Digest.ofData alg content) = .ok ds) :
    ds.map Digest.hashAlg = algs := by
  induction mapM_eq_ok_iff.1 h with
  | nil => rfl
  | cons hd _ ih =>
    obtain ⟨_, _, rfl⟩ := map_eq_ok_iff.1 hd
    rw [List.map_cons, ih (mapM_eq_ok_iff.2 ‹_›)]

theorem rehashBlock_eq_ok_iff {image : Bytes} {algs : Option (List Int)} {e : BootBlock}
    {l : DigestList} :
    rehashBlock image algs e = .ok l ↔ (wantedAlgs algs e).Nodup ∧
      ∃ content, e.content image = .ok content ∧
        (wantedAlgs algs e).mapM (fun alg => Digest.ofData alg content) = .ok l.digests := by
  have hunfold : rehashBlock image algs e = (do
      Algorithm.checkUnique (wantedAlgs algs e)
      let content ← e.content image
      DigestList.ofDigests
        (← (wantedAlgs algs e).mapM fun alg => Digest.ofData alg content)) := rfl
  simp only [hunfold, bind_eq_ok_iff, DigestList.ofDigests_eq_ok_iff]
  constructor
  · intro h
    obtain ⟨⟨⟩, hunique, content, hcontent, ds, hds, rfl, _⟩ := h
    exact ⟨(Algorithm.checkUnique_eq_ok_iff _).1 hunique, content, hcontent, hds⟩
  · intro h
    obtain ⟨hnodup, content, hcontent, hds⟩ := h
    refine ⟨(), (Algorithm.checkUnique_eq_ok_iff _).2 hnodup, content, hcontent, l.digests, hds,
      rfl, ?_⟩
    rw [DigestList.algorithms, map_hashAlg_of_ofData hds]
    exact hnodup

/-- The boot block with its digests computed anew. -/
def renewBlock (image : Bytes) (algs : Option (List Int)) (e : BootBlock) :
    Except Error BootBlock :=
  (rehashBlock image algs e).map fun l => { e with digestList := l }

/-- New digests are under the algorithms that a second run takes. -/
theorem wantedAlgs_of_renewBlock {image : Bytes} {algs : Option (List Int)} {e e' : BootBlock}
    (h : renewBlock image algs e = .ok e') : wantedAlgs algs e' = wantedAlgs algs e := by
  obtain ⟨l, hl, rfl⟩ := map_eq_ok_iff.1 h
  obtain ⟨_, _, _, hds⟩ := rehashBlock_eq_ok_iff.1 hl
  cases algs with
  | some algs => rfl
  | none =>
    have hwanted : l.algorithms = wantedAlgs none e := map_hashAlg_of_ofData hds
    have hne : (wantedAlgs none e).isEmpty = false := by
      unfold wantedAlgs
      dsimp only
      split
      · rfl
      · rename_i h
        exact Bool.eq_false_iff.2 h
    conv_lhs => unfold wantedAlgs
    simp only [Option.getD_none, hwanted, hne, Bool.false_eq_true, if_false]

theorem renewBlock_idem {image : Bytes} {algs : Option (List Int)} (e e' : BootBlock)
    (h : renewBlock image algs e = .ok e') : renewBlock image algs e' = .ok e' := by
  have hwanted := wantedAlgs_of_renewBlock h
  obtain ⟨l, hl, rfl⟩ := map_eq_ok_iff.1 h
  refine map_eq_ok_iff.2 ⟨l, ?_, rfl⟩
  rw [rehashBlock_eq_ok_iff, hwanted]
  exact rehashBlock_eq_ok_iff.1 hl

/-- The boot blocks with their digests computed anew where there is an image. -/
def renewBlocks (image : Option Bytes) (algs : Option (List Int)) (es : List BootBlock) :
    Except Error (List BootBlock) :=
  match image with
  | none => .ok es
  | some image => es.mapM (renewBlock image algs)

theorem renewBlocks_idem {image : Option Bytes} {algs : Option (List Int)}
    {es es' : List BootBlock} (h : renewBlocks image algs es = .ok es') :
    renewBlocks image algs es' = .ok es' := by
  cases image with
  | none => rfl
  | some image => exact mapM_idem renewBlock_idem h

/-! ## Signed regions -/

/-- Taking the digests of a signed region leaves `m'` behind and yields `ds`. -/
def Signs (algs : Option (List Int)) (m m' : Manifest) (ds : List (Int × Bytes)) : Prop :=
  ∃ region signature, m.signedRegion = .ok region ∧
    KeySignature.encode? m.keySignature = .ok signature ∧ m' = m.withOffset region.length ∧
    (signedAlgs algs m).mapM (fun alg => (Algorithm.hash alg region).map (alg, ·)) = .ok ds

theorem signedDigest_eq_ok_iff {alg : Int} {m m' : Manifest} {d : Bytes} :
    (Manifest.signedDigest alg).runOn m = (.ok d, m') ↔
      ∃ region signature, m.signedRegion = .ok region ∧
        KeySignature.encode? m.keySignature = .ok signature ∧
        m' = m.withOffset region.length ∧ Algorithm.hash alg region = .ok d := by
  simp only [Manifest.signedDigest, Update.runOn_bind_eq_ok_iff,
    Update.runOn_ofExcept_eq_ok_iff]
  constructor
  · intro h
    obtain ⟨b, t, hasm, stop, t', hstop, hd, rfl⟩ := h
    obtain ⟨region, signature, hr, hs, rfl, rfl⟩ := Manifest.assemble_eq_ok_iff.1 hasm
    rw [Manifest.runOn_signedRegionEnd hr] at hstop
    obtain ⟨hstop, rfl⟩ := Prod.mk.inj hstop
    cases hstop
    rw [List.take_left] at hd
    exact ⟨region, signature, hr, hs, rfl, hd⟩
  · intro h
    obtain ⟨region, signature, hr, hs, rfl, hd⟩ := h
    refine ⟨_, _, Manifest.assemble_eq_ok_iff.2 ⟨region, signature, hr, hs, rfl, rfl⟩, _, _,
      Manifest.runOn_signedRegionEnd hr, ?_, rfl⟩
    rw [List.take_left]
    exact hd

/-- The digests of a region under several algorithms. Where there is none of these, the manifest
is not even assembled. -/
theorem signedDigests_eq_ok_iff {algs : List Int} (hne : algs ≠ []) {m m' : Manifest}
    {ds : List (Int × Bytes)} :
    (signedDigests algs).runOn m = (.ok ds, m') ↔
      ∃ region signature, m.signedRegion = .ok region ∧
        KeySignature.encode? m.keySignature = .ok signature ∧
        m' = m.withOffset region.length ∧
        algs.mapM (fun alg => (Algorithm.hash alg region).map (alg, ·)) = .ok ds := by
  induction algs generalizing m m' ds with
  | nil => exact absurd rfl hne
  | cons alg algs ih =>
    simp only [signedDigests, Update.runOn_bind_eq_ok_iff, signedDigest_eq_ok_iff,
      Update.runOn_pure_eq_ok_iff, List.mapM_cons, bind_eq_ok_iff, map_eq_ok_iff, pure_eq_ok,
      Except.ok.injEq]
    obtain rfl | hrest := eq_or_ne algs []
    · simp only [signedDigests, Update.runOn_pure_eq_ok_iff, List.mapM_nil, pure_eq_ok,
        Except.ok.injEq]
      constructor
      · intro h
        obtain ⟨d, _, ⟨region, signature, hr, hs, rfl, hd⟩, _, _, ⟨rfl, rfl⟩, rfl, rfl⟩ := h
        exact ⟨region, signature, hr, hs, rfl, _, ⟨d, hd, rfl⟩, _, rfl, rfl⟩
      · intro h
        obtain ⟨region, signature, hr, hs, rfl, _, ⟨d, hd, rfl⟩, _, rfl, rfl⟩ := h
        exact ⟨d, _, ⟨region, signature, hr, hs, rfl, hd⟩, _, _, ⟨rfl, rfl⟩, rfl, rfl⟩
    · simp only [ih hrest]
      constructor
      · intro h
        obtain ⟨d, _, ⟨region, signature, hr, hs, rfl, hd⟩, ds', _,
          ⟨region', signature', hr', _, rfl, hds⟩, rfl, rfl⟩ := h
        rw [Manifest.signedRegion_withOffset_iff, hr] at hr'
        cases hr'
        exact ⟨region, signature, hr, hs, Manifest.withOffset_withOffset _ _ _, _, ⟨d, hd, rfl⟩,
          ds', hds, rfl⟩
      · intro h
        obtain ⟨region, signature, hr, hs, rfl, _, ⟨d, hd, rfl⟩, ds', hds, rfl⟩ := h
        refine ⟨d, _, ⟨region, signature, hr, hs, rfl, hd⟩, ds', _, ⟨region, signature, ?_, ?_,
          rfl, hds⟩, rfl, ?_⟩
        · exact Manifest.signedRegion_withOffset_iff.2 hr
        · rw [Manifest.keySignature_withOffset]
          exact hs
        · rw [Manifest.withOffset_withOffset]

theorem signedAlgs_ne_nil (algs : Option (List Int)) (m : Manifest) : signedAlgs algs m ≠ [] := by
  unfold signedAlgs
  split
  · exact List.cons_ne_nil _ _
  · split
    · split <;> exact List.cons_ne_nil _ _
    · exact List.cons_ne_nil _ _

theorem runSigned_eq_ok_iff {algs : Option (List Int)} {m m' : Manifest} {o : Outcome} :
    (runSigned algs).runOn m = (.ok o, m') ↔ ∃ ds, Signs algs m m' ds ∧ o = .signed ds := by
  rw [runSigned, Update.runOn_get_bind, Update.runOn_bind_eq_ok_iff]
  simp only [Update.runOn_pure_eq_ok_iff, signedDigests_eq_ok_iff (signedAlgs_ne_nil algs m)]
  constructor
  · intro h
    obtain ⟨ds, _, hds, rfl, rfl⟩ := h
    exact ⟨ds, hds, rfl⟩
  · intro h
    obtain ⟨ds, hds, rfl⟩ := h
    exact ⟨ds, m', hds, rfl, rfl⟩

/-- The algorithms depend on the key signature only. -/
theorem signedAlgs_withOffset (algs : Option (List Int)) (n : Nat) (m : Manifest) :
    signedAlgs algs (m.withOffset n) = signedAlgs algs m := by
  unfold signedAlgs
  rw [Manifest.keySignature_withOffset]

theorem Signs.idem {algs : Option (List Int)} {m m' : Manifest} {ds : List (Int × Bytes)}
    (h : Signs algs m m' ds) : Signs algs m' m' ds := by
  obtain ⟨region, signature, hr, hs, rfl, hds⟩ := h
  refine ⟨region, signature, Manifest.signedRegion_withOffset_iff.2 hr, ?_, ?_, ?_⟩
  · rw [Manifest.keySignature_withOffset]
    exact hs
  · rw [Manifest.withOffset_withOffset]
  · rw [signedAlgs_withOffset]
    exact hds

/-! ## Key hashes -/

/-- The key hash with the digest of the key of a boot policy manifest if it is for such keys. -/
def renewHash (policy : Manifest) (h : KeyHash) : Except Error KeyHash :=
  if h.signsBootPolicy then do
    let key ← policyKey policy
    let d ← key.dataDigest h.digest.hashAlg
    return { h with digest := ⟨h.digest.hashAlg, d⟩ }
  else .ok h

theorem renewHash_idem {policy : Manifest} (h h' : KeyHash) (hh : renewHash policy h = .ok h') :
    renewHash policy h' = .ok h' := by
  by_cases hbit : h.signsBootPolicy = true
  · rw [renewHash, if_pos hbit] at hh
    simp only [bind_eq_ok_iff, pure_eq_ok, Except.ok.injEq] at hh
    obtain ⟨key, hkey, d, hd, rfl⟩ := hh
    have hbit' : ({ h with digest := ⟨h.digest.hashAlg, d⟩ } : KeyHash).signsBootPolicy = true :=
      hbit
    rw [renewHash, if_pos hbit', hkey, ok_bind]
    dsimp only
    rw [hd]
    rfl
  · rw [renewHash, if_neg hbit] at hh
    cases hh
    rw [renewHash, if_neg hbit]

theorem followKey_eq_ok_iff {policy : Manifest} {hs hs' : List KeyHash} :
    followKey policy hs = (hs', .ok ()) ↔ hs.mapM (renewHash policy) = .ok hs' := by
  induction hs generalizing hs' with
  | nil => simp [followKey, pure_eq_ok]
  | cons h hs ih =>
    rw [List.mapM_cons, followKey, renewHash]
    have hrest : ∀ h0 : KeyHash, (h0 :: (followKey policy hs).1, (followKey policy hs).2) =
        (hs', .ok ()) ↔ (do
          let rest ← hs.mapM (renewHash policy)
          return h0 :: rest) = Except.ok hs' := by
      intro h0
      simp only [bind_eq_ok_iff, ← ih, pure_eq_ok, Except.ok.injEq, Prod.ext_iff]
      constructor
      · intro hall
        obtain ⟨rfl, hok⟩ := hall
        exact ⟨_, ⟨rfl, hok⟩, rfl⟩
      · intro hall
        obtain ⟨_, ⟨rfl, hok⟩, rfl⟩ := hall
        exact ⟨rfl, hok⟩
    by_cases hbit : h.signsBootPolicy = true
    · rw [if_pos hbit, if_pos hbit]
      cases hkey : policyKey policy with
      | error e => simp [Except.bind, error_bind]
      | ok key =>
        simp only [Except.bind, ok_bind]
        cases hd : key.dataDigest h.digest.hashAlg with
        | error e => simp [error_bind]
        | ok d =>
          simp only [ok_bind, pure_eq_ok]
          exact hrest _
    · rw [if_neg hbit, if_neg hbit]
      exact hrest _

/-- The key manifest with its hashes brought up to date where there is a boot policy manifest. -/
def renewHashes (policy : Option Manifest) (k : KeyManifest) : Except Error KeyManifest :=
  match policy with
  | none => .ok k
  | some m => (k.body.hashes.mapM (renewHash m)).map fun hs =>
      { k with body := { k.body with hashes := hs } }

theorem rehashKeys_eq_ok_iff {policy : Manifest} {k k' : KeyManifest} :
    (rehashKeys policy).runOn k = (.ok (), k') ↔ renewHashes (some policy) k = .ok k' := by
  rw [rehashKeys, Update.runOn_get_bind]
  rcases hf : followKey policy k.body.hashes with ⟨hs, outcome⟩
  simp only [Update.runOn_modify_bind, Update.runOn_ofExcept_eq_ok_iff, renewHashes,
    map_eq_ok_iff, ← followKey_eq_ok_iff, hf, Prod.mk.injEq]
  constructor
  · intro h
    obtain ⟨rfl, rfl⟩ := h
    exact ⟨hs, ⟨rfl, rfl⟩, rfl⟩
  · intro h
    obtain ⟨_, ⟨rfl, rfl⟩, rfl⟩ := h
    exact ⟨rfl, rfl⟩

end BootGuard.Measure
