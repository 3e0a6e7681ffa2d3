/-
  The frame around an element is read exactly as it is written.

  An element whose head states the size of the whole is the interesting case: the body is read
  from as many bytes as the size leaves for it, and must use them up (`reads_sized`). So the
  stated size is the one that would have been derived, whatever the input (`reads_framed`).
-/
import BootGuard.Proofs.Codec.Reads
import BootGuard.Element.Frame

namespace BootGuard.Frame

open Reader

variable {α : Type} {kind : ElementKind}

theorem encode_eq_ok_iff {structVer var0 size : Int} {body b : Bytes} :
    encode kind structVer var0 size body = .ok b ↔ ∃ x y z, packInt 1 structVer = .ok x ∧
      packInt 1 var0 = .ok y ∧ packInt 2 size = .ok z ∧
      b = kind.id ++ x ++ y ++ z ++ body := by
  simp only [encode, bind_eq_ok_iff, ite_throw_eq_ok_iff, pure_eq_ok, Except.ok.injEq]
  constructor
  · intro h
    obtain ⟨_, x, hx, y, hy, z, hz, rfl⟩ := h
    exact ⟨x, y, z, hx, hy, hz, rfl⟩
  · intro h
    obtain ⟨x, y, z, hx, hy, hz, rfl⟩ := h
    have hlt : size < 0x10000 := (packInt_eq_ok_iff.1 hz).1.2
    refine ⟨?_, x, hx, y, hy, z, hz, rfl⟩
    rw [maxSize]
    omega

/-- The head of an element does not depend on its body. -/
theorem encode_eq_ok_iff_head {structVer var0 size : Int} {body b : Bytes} :
    encode kind structVer var0 size body = .ok b ↔
      ∃ head, encode kind structVer var0 size [] = .ok head ∧ b = head ++ body := by
  simp only [encode_eq_ok_iff, List.append_nil]
  constructor
  · intro h
    obtain ⟨x, y, z, hx, hy, hz, rfl⟩ := h
    exact ⟨_, ⟨x, y, z, hx, hy, hz, rfl⟩, rfl⟩
  · intro h
    obtain ⟨_, ⟨x, y, z, hx, hy, hz, rfl⟩, rfl⟩ := h
    exact ⟨x, y, z, hx, hy, hz, rfl⟩

theorem length_of_encode {structVer var0 size : Int} {body b : Bytes}
    (h : encode kind structVer var0 size body = .ok b) :
    b.length = headSize + body.length := by
  obtain ⟨x, y, z, hx, hy, hz, rfl⟩ := encode_eq_ok_iff.1 h
  simp only [List.length_append, kind.length_id, length_of_packInt hx, length_of_packInt hy,
    length_of_packInt hz, headSize]

/-- An element starts with the structure ID of its kind. -/
theorem take_of_encode {structVer var0 size : Int} {body b : Bytes}
    (h : encode kind structVer var0 size body = .ok b) : b.take 8 = kind.id := by
  obtain ⟨x, y, z, hx, hy, hz, rfl⟩ := encode_eq_ok_iff.1 h
  simp only [List.append_assoc]
  rw [← kind.length_id, List.take_left]

theorem size_nonneg_of_encode {structVer var0 size : Int} {body b : Bytes}
    (h : encode kind structVer var0 size body = .ok b) : 0 ≤ size := by
  obtain ⟨x, y, z, hx, hy, hz, rfl⟩ := encode_eq_ok_iff.1 h
  exact (packInt_eq_ok_iff.1 hz).1.1

theorem reads_readHead (kind : ElementKind) :
    (readHead kind).Reads fun h b => encode kind h.structVer h.var0 h.size [] = .ok b := by
  refine (reads_position fun start => reads_bind (reads_take headSize _) fun b =>
    reads_unless (p := b.take 8 ≠ kind.id) _ (reads_pure (⟨Bytes.toNatLe ((b.drop 8).take 1),
      Bytes.toNatLe ((b.drop 9).take 1), Bytes.toNatLe (b.drop 10)⟩ : Head))).congr fun h b => ?_
  simp only [encode_eq_ok_iff, List.append_nil, packInt_eq_ok_iff_toNatLe]
  constructor
  · intro hall
    obtain ⟨a, b1, b2, ⟨rfl, hlen⟩, ⟨hid, rfl, rfl⟩, rfl⟩ := hall
    rw [headSize] at hlen
    refine ⟨(b1.drop 8).take 1, (b1.drop 9).take 1, b1.drop 10, ⟨?_, rfl⟩, ⟨?_, rfl⟩, ⟨?_, rfl⟩,
      ?_⟩
    · rw [List.length_take, List.length_drop, hlen]
      rfl
    · rw [List.length_take, List.length_drop, hlen]
      rfl
    · rw [List.length_drop, hlen]
    · have h8 : b1.drop 8 = (b1.drop 8).take 1 ++ b1.drop 9 := by
        rw [← List.drop_drop (i := 1) (j := 8)]
        exact (List.take_append_drop 1 _).symm
      have h9 : b1.drop 9 = (b1.drop 9).take 1 ++ b1.drop 10 := by
        rw [← List.drop_drop (i := 1) (j := 9)]
        exact (List.take_append_drop 1 _).symm
      rw [← Decidable.of_not_not hid, List.append_nil]
      simp only [List.append_assoc]
      rw [← h9, ← h8, List.take_append_drop]
  · intro hall
    obtain ⟨x, y, z, ⟨hlx, hx⟩, ⟨hly, hy⟩, ⟨hlz, hz⟩, rfl⟩ := hall
    have hid := kind.length_id
    have htake : (kind.id ++ x ++ y ++ z).take 8 = kind.id := by
      rw [← hid, List.append_assoc, List.append_assoc, List.take_left]
    have hdrop8 : (kind.id ++ x ++ y ++ z).drop 8 = x ++ (y ++ z) := by
      rw [← hid, List.append_assoc, List.append_assoc, List.drop_left]
    have hdrop9 : (kind.id ++ x ++ y ++ z).drop 9 = y ++ z := by
      rw [← List.drop_drop (i := 1) (j := 8), hdrop8, ← hlx, List.drop_left]
    have hdrop10 : (kind.id ++ x ++ y ++ z).drop 10 = z := by
      rw [← List.drop_drop (i := 1) (j := 9), hdrop9, ← hly, List.drop_left]
    refine ⟨_, _, [], ⟨rfl, ?_⟩, ⟨not_not_intro htake, ?_, rfl⟩, (List.append_nil _).symm⟩
    · simp only [List.length_append, hid, hlx, hly, hlz, headSize]
    · have h1 : (x ++ (y ++ z)).take 1 = x := by rw [← hlx, List.take_left]
      have h2 : (y ++ z).take 1 = y := by rw [← hly, List.take_left]
      rw [hdrop8, hdrop9, hdrop10, h1, h2, ← hx, ← hy, ← Int.natCast_inj.1 hz]

/-- A body that must fill the stated size does so. -/
theorem reads_sized {body : Reader α} {W : α → Bytes → Prop} (hbody : body.Reads W)
    (kind : ElementKind) (size : Nat) :
    (sized kind size body).Reads fun a b => W a b ∧ size = headSize + b.length := by
  intro c a c' hc
  unfold sized
  constructor
  · intro h
    split at h
    · cases h
    · rename_i hsize
      split at h
      · cases h
      · rename_i hshort
        cases hr : body ⟨c.pos, c.rest.take (size - headSize)⟩ with
        | error e =>
          rw [hr] at h
          cases e <;> cases h
        | ok p =>
          obtain ⟨a', m⟩ := p
          rw [hr] at h
          simp only at h
          split at h
          · rename_i hempty
            cases h
            obtain ⟨b, hW, hp⟩ := (hbody ⟨c.pos, c.rest.take _⟩ a m hc).1 hr
            have hrest : c.rest.take (size - headSize) = b := by
              rw [← List.append_nil b, ← List.isEmpty_iff.1 hempty]
              exact hp.rest
            have hle : size - headSize ≤ c.rest.length := Nat.le_of_not_lt fun hlt =>
              hshort ((Bytes.shorterThan_iff _ _).2 hlt)
            have hlen : b.length = size - headSize := by
              rw [← hrest, List.length_take, Nat.min_eq_left hle]
            refine ⟨b, ⟨hW, by omega⟩, ?_, hp.pos⟩
            rw [← hrest, List.take_append_drop]
          · cases h
  · intro hall
    obtain ⟨b, ⟨hW, rfl⟩, hp⟩ := hall
    have hshort : ¬ c.rest.shorterThan b.length = true := by
      rw [Bytes.shorterThan_iff, hp.length_rest]
      omega
    have hr : body ⟨c.pos, b⟩ = .ok (a, ⟨c'.pos, []⟩) :=
      (hbody ⟨c.pos, b⟩ _ _ hc).2 ⟨b, hW, (List.append_nil b).symm, hp.pos⟩
    have htake : c.rest.take b.length = b := by rw [hp.rest, List.take_left]
    have hdrop : c.rest.drop b.length = c'.rest := by rw [hp.rest, List.drop_left]
    rw [if_neg (by omega), Nat.add_sub_cancel_left, if_neg hshort, htake, hr, hdrop]
    rfl

/-- An element whose head states its size, where the body reader has the head to start from. -/
theorem reads_framed {body : Head → Reader α} {structVer var0 : α → Int}
    {V : α → Bytes → Prop} (kind : ElementKind)
    (hbody : ∀ head, (body head).Reads fun a b =>
      (structVer a = head.structVer ∧ var0 a = head.var0) ∧ V a b) :
    (readHead kind >>= fun head => sized kind head.size (body head)).Reads fun a b =>
      ∃ x, V a x ∧ encodeSized kind (structVer a) (var0 a) x = .ok b := by
  refine (reads_bind (reads_readHead kind) fun head =>
    reads_sized (hbody head) kind head.size).congr fun a b => ?_
  simp only [encodeSized]
  constructor
  · intro h
    obtain ⟨head, b1, x, hhead, ⟨⟨⟨hsv, hv0⟩, hV⟩, hsize⟩, rfl⟩ := h
    refine ⟨x, hV, encode_eq_ok_iff_head.2 ⟨b1, ?_, rfl⟩⟩
    rw [hsv, hv0]
    have : (headSize + x.length : Int) = head.size := by
      rw [hsize]
      push_cast
      rfl
    rw [this]
    exact hhead
  · intro h
    obtain ⟨x, hV, henc⟩ := h
    obtain ⟨b1, hhead, rfl⟩ := encode_eq_ok_iff_head.1 henc
    exact ⟨⟨structVer a, var0 a, headSize + x.length⟩, b1, x, by exact_mod_cast hhead,
      ⟨⟨⟨rfl, rfl⟩, hV⟩, rfl⟩, rfl⟩

end BootGuard.Frame
