/-
  What boot blocks measure, and images in which they measure the same.

  A measured segment covers an interval of the image. The bytes that a boot block measures are
  those of its intervals (`BootBlock.content_congr`), and the intervals that are not empty are
  those that stitching protects (`mem_segmentRanges`).
-/
import BootGuard.Fit.Payload
import BootGuard.Proofs.Codec.Elements
import BootGuard.Proofs.Fit.Region

namespace BootGuard

open Fit

namespace Segment

/-- The segment covers the interval `r` of an image of `n` bytes. -/
def Covers (s : Segment) (n : Nat) (r : Nat × Nat) : Prop :=
  ∃ offset, s.locate n = .ok offset ∧ r = (offset.toNat, (offset + s.size).toNat)

/-- The segment starts at an address and has a size. -/
def Located (s : Segment) : Prop := 0 ≤ s.base ∧ 0 ≤ s.size

theorem located_of_encode {s : Segment} {b : Bytes} (h : s.encode = .ok b) : s.Located := by
  simp only [encode, fields, IntField.encodeAll, bind_eq_ok_iff] at h
  obtain ⟨_, _, _, ⟨_, _, _, ⟨_, hbase, _, ⟨_, hsize, _⟩, _⟩, _⟩, _⟩ := h
  exact ⟨(packInt_eq_ok_iff.1 hbase).1.1, (packInt_eq_ok_iff.1 hsize).1.1⟩

theorem locate_eq_ok_iff {s : Segment} {n offset : Int} :
    s.locate n = .ok offset ↔ offsetOf s.base n = .ok offset ∧ offset + s.size ≤ n := by
  simp only [locate, bind_eq_ok_iff, ite_throw_eq_ok_iff, pure_eq_ok, Except.ok.injEq,
    Int.not_lt]
  constructor
  · intro hall
    obtain ⟨_, h, hle, rfl⟩ := hall
    exact ⟨h, hle⟩
  · intro hall
    obtain ⟨h, hle⟩ := hall
    exact ⟨offset, h, hle, rfl⟩

/-- A segment that is located in an image lies in it. -/
theorem Located.bounds {s : Segment} (hs : s.Located) {n : Nat} {offset : Int}
    (h : s.locate n = .ok offset) : 0 ≤ offset ∧ offset + s.size ≤ n := by
  obtain ⟨hoff, hle⟩ := locate_eq_ok_iff.1 h
  exact ⟨(offsetOf_bounds (.inl hs.1) hoff).1, hle⟩

/-- The bytes of a segment in an image that contains it. -/
theorem Located.content_eq {s : Segment} (hs : s.Located) {image : Bytes} {offset : Int}
    (h : s.locate image.length = .ok offset) :
    s.content image = .ok ((image.drop offset.toNat).take s.size.toNat) := by
  obtain ⟨hpos, hle⟩ := hs.bounds h
  have hsize := hs.2
  have hstart : Bytes.place image.length offset = offset.toNat := by
    rw [Bytes.place, if_neg (by omega)]
    omega
  have hstop : Bytes.place image.length (offset + s.size) = (offset + s.size).toNat := by
    rw [Bytes.place, if_neg (by omega)]
    omega
  rw [content, h, ok_bind, pure_eq_ok, Bytes.range, hstart, hstop,
    show (offset + s.size).toNat - offset.toNat = s.size.toNat by omega]

/-- A segment has the same bytes in images that agree where it is. -/
theorem Located.content_congr {s : Segment} (hs : s.Located) {image out : Bytes}
    (hlen : out.length = image.length)
    (hagree : ∀ r, s.Covers image.length r → Bytes.Agree out image r) :
    s.content out = s.content image := by
  cases hloc : s.locate image.length with
  | error e =>
    rw [content, content, hlen, hloc]
    rfl
  | ok offset =>
    obtain ⟨hpos, hle⟩ := hs.bounds hloc
    have hsize := hs.2
    have hstop : (offset + s.size).toNat = offset.toNat + s.size.toNat := by omega
    have hslice := hagree _ ⟨offset, hloc, rfl⟩
    rw [hstop] at hslice
    rw [hs.content_eq hloc, hs.content_eq (by rw [hlen]; exact hloc), hslice.slice_eq]

section Steps

variable {s : Segment} {ss : List Segment}

theorem contents_cons_of_unmeasured (h : s.measured = false) (image : Bytes) :
    contents image (s :: ss) = contents image ss := by
  rw [contents, if_neg (by rw [h]; decide)]

theorem contents_cons_eq_ok_iff (h : s.measured = true) {image b : Bytes} :
    contents image (s :: ss) = .ok b ↔ ∃ offset bs, s.locate image.length = .ok offset ∧
      contents image ss = .ok bs ∧ b = image.range offset (offset + s.size) ++ bs := by
  rw [contents, if_pos h]
  simp only [content, bind_eq_ok_iff, pure_eq_ok, Except.ok.injEq]
  constructor
  · intro hall
    obtain ⟨_, ⟨offset, hoff, rfl⟩, bs, hbs, rfl⟩ := hall
    exact ⟨offset, bs, hoff, hbs, rfl⟩
  · intro hall
    obtain ⟨offset, bs, hoff, hbs, rfl⟩ := hall
    exact ⟨_, ⟨offset, hoff, rfl⟩, bs, hbs, rfl⟩

theorem segmentRanges_cons_of_skipped (h : s.measured = false ∨ s.size = 0) (n : Int) :
    segmentRanges n (s :: ss) = segmentRanges n ss := by
  rw [segmentRanges, if_pos h]

theorem segmentRanges_cons_eq_ok_iff (hm : s.measured = true) (hsize : s.size ≠ 0) {n : Int}
    {ranges : List (Nat × Nat)} : segmentRanges n (s :: ss) = .ok ranges ↔
      ∃ offset rs, s.locate n = .ok offset ∧ segmentRanges n ss = .ok rs ∧
        ranges = (offset.toNat, (offset + s.size).toNat) :: rs := by
  rw [segmentRanges, if_neg (by simp [hm, hsize])]
  simp only [bind_eq_ok_iff, pure_eq_ok, Except.ok.injEq]
  constructor
  · intro hall
    obtain ⟨offset, hoff, rs, hrs, rfl⟩ := hall
    exact ⟨offset, rs, hoff, hrs, rfl⟩
  · intro hall
    obtain ⟨offset, rs, hoff, hrs, rfl⟩ := hall
    exact ⟨offset, hoff, rs, hrs, rfl⟩

end Steps

theorem contents_congr {image out : Bytes} (hlen : out.length = image.length) {ss : List Segment}
    (hss : ∀ s ∈ ss, s.Located)
    (hagree : ∀ s ∈ ss, s.measured = true → ∀ r, s.Covers image.length r →
      Bytes.Agree out image r) : contents out ss = contents image ss := by
  induction ss with
  | nil => rfl
  | cons s ss ih =>
    have hrest := ih (fun t ht => hss t (List.mem_cons_of_mem _ ht))
      (fun t ht => hagree t (List.mem_cons_of_mem _ ht))
    rw [contents, contents, hrest]
    by_cases hm : s.measured = true
    · rw [if_pos hm, if_pos hm, (hss s List.mem_cons_self).content_congr hlen
        (hagree s List.mem_cons_self hm)]
    · rw [if_neg hm, if_neg hm]

/-- Every measured segment that is not empty is protected. -/
theorem mem_segmentRanges {n : Nat} {ss : List Segment} {ranges : List (Nat × Nat)}
    (h : segmentRanges n ss = .ok ranges) {s : Segment} (hs : s ∈ ss) (hm : s.measured = true)
    (hsize : s.size ≠ 0) {r : Nat × Nat} (hr : s.Covers n r) : r ∈ ranges := by
  induction ss generalizing ranges with
  | nil => cases hs
  | cons t ss ih =>
    by_cases hskip : t.measured = false ∨ t.size = 0
    · rw [segmentRanges_cons_of_skipped hskip] at h
      obtain rfl | hs := List.mem_cons.1 hs
      · simp [hm, hsize] at hskip
      · exact ih h hs
    · obtain ⟨htm, htsize⟩ := not_or.1 hskip
      obtain ⟨start, rest, hstart, hrest, rfl⟩ :=
        (segmentRanges_cons_eq_ok_iff (Bool.not_eq_false _ ▸ htm) htsize).1 h
      obtain rfl | hs := List.mem_cons.1 hs
      · obtain ⟨offset, hoff, rfl⟩ := hr
        rw [hstart] at hoff
        cases hoff
        exact List.mem_cons_self
      · exact List.mem_cons_of_mem _ (ih hrest hs)

end Segment

namespace BootBlock

/-- The boot block measures the interval `r` of an image of `n` bytes. -/
def Measures (e : BootBlock) (n : Nat) (r : Nat × Nat) : Prop :=
  ∃ s ∈ e.segments, s.measured = true ∧ s.Covers n r

/-- Every digest of the boot block is that of the bytes it measures in an image. -/
def MeasuredIn (e : BootBlock) (image : Bytes) : Prop :=
  ∃ content, e.content image = .ok content ∧
    ∀ d ∈ e.digestList.digests, Algorithm.hash d.hashAlg content = .ok d.buffer

theorem located_of_encode {e : BootBlock} {b : Bytes} (h : e.encode = .ok b) :
    ∀ s ∈ e.segments, s.Located := by
  obtain ⟨body, hbody, _⟩ := encode_eq_ok_iff.1 h
  obtain ⟨_, _, _, _, _, _, _, segments, _, _, _, _, _, _, hsegments, _⟩ :=
    encodeBody_eq_ok_iff.1 hbody
  intro s hs
  obtain ⟨x, hx⟩ := exists_encode_of_mem hsegments hs
  exact Segment.located_of_encode hx

/-- A boot block measures the same bytes in images that agree on its intervals. -/
theorem content_congr {e : BootBlock} {image out : Bytes} (hlen : out.length = image.length)
    (he : ∀ s ∈ e.segments, s.Located)
    (hagree : ∀ r, e.Measures image.length r → Bytes.Agree out image r) :
    e.content out = e.content image :=
  Segment.contents_congr hlen he fun s hs hm r hr => hagree r ⟨s, hs, hm, hr⟩

/-- It is enough that they agree on the ranges of a list of boot blocks that has this one; these
leave out the empty intervals only. -/
theorem content_congr_of_ranges {es : List BootBlock} {e : BootBlock} {image out : Bytes}
    {ranges : List (Nat × Nat)}
    (hranges : segmentRanges image.length (es.flatMap (·.segments)) = .ok ranges) (he : e ∈ es)
    (hlen : out.length = image.length) (hlocated : ∀ s ∈ e.segments, s.Located)
    (hagree : ∀ r ∈ ranges, e.Measures image.length r → Bytes.Agree out image r) :
    e.content out = e.content image := by
  refine content_congr hlen hlocated fun r hr => ?_
  obtain ⟨s, hs, hm, hcovers⟩ := hr
  by_cases hsize : s.size = 0
  · obtain ⟨start, _, rfl⟩ := hcovers
    intro i hi
    have h1 := hi.1
    have h2 := hi.2
    rw [hsize, Int.add_zero] at h2
    exact absurd h2 (Nat.not_lt_of_le h1)
  · have hmem : s ∈ es.flatMap (·.segments) := List.mem_flatMap.2 ⟨e, he, hs⟩
    exact hagree r (Segment.mem_segmentRanges hranges hmem hm hsize hcovers) ⟨s, hs, hm, hcovers⟩

/-- Digests remain true where the bytes that are measured do not change. -/
theorem MeasuredIn.congr {e : BootBlock} {image out : Bytes} (h : e.MeasuredIn image)
    (hcontent : e.content out = e.content image) : e.MeasuredIn out := by
  obtain ⟨content, himage, hdigests⟩ := h
  exact ⟨content, hcontent.trans himage, hdigests⟩

end BootBlock

end BootGuard
