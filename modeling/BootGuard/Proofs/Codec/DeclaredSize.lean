/-
  No size is accepted but the true one.

  An element whose head states its size is read from a window of as many bytes. In a window that
  is too narrow the body is cut off somewhere, and since its reader knows where what it reads
  ends (`SelfDelimiting`), the cut shows, in whichever field it is. In one that is too wide the
  body is read as before, because of the same, and something is left. `SizeRefused` collects the
  refusals; they come from `Frame.sized` (`sizeRefused_sized`) and pass through whatever is
  built around it.
-/
import BootGuard.Proofs.Codec.Cuts
import BootGuard.Proofs.Codec.Locality

namespace BootGuard

open Reader

/-! ## Readers of bodies -/

theorem PolicyHeader.selfDelimiting_readBody (h : PolicyHeader) : (readBody h).SelfDelimiting :=
  selfDelimiting_bind (selfDelimiting_take 8 _) fun b =>
    selfDelimiting_pure (IntField.decodeAll bodyFields (b.drop 2) h,
      UInt16.ofNat (Bytes.toNatLe (b.take 2)))

theorem BootBlock.selfDelimiting_readBody (e : BootBlock) : (readBody e).SelfDelimiting :=
  selfDelimiting_bind (selfDelimiting_fields bodyFields _ e) fun e1 =>
    selfDelimiting_bind Digest.selfDelimiting_read fun post =>
    selfDelimiting_bind (selfDelimiting_fields entryFields _ e1) fun e2 =>
    selfDelimiting_bind DigestList.selfDelimiting_read fun list =>
    selfDelimiting_bind Digest.selfDelimiting_read fun obb =>
    selfDelimiting_bind (selfDelimiting_take 3 _) fun rsvd2 =>
    selfDelimiting_bind (selfDelimiting_number 1 _) fun count =>
    selfDelimiting_unless _ (selfDelimiting_bind
      (selfDelimiting_many Segment.selfDelimiting_read count) fun segments =>
        selfDelimiting_pure { e2 with
          postIbbHash := post
          digestList := list
          obbHash := obb
          rsvd2 := rsvd2
          segments := segments })

theorem TrustedBoot.selfDelimiting_readBody (e : TrustedBoot) : (readBody e).SelfDelimiting :=
  selfDelimiting_bind (selfDelimiting_fields bodyFields _ e) fun e1 =>
    selfDelimiting_bind DigestList.selfDelimiting_read fun list =>
    selfDelimiting_bind (selfDelimiting_take 3 _) fun rsvd3 =>
    selfDelimiting_bind (selfDelimiting_number 1 _) fun count =>
    selfDelimiting_bind (selfDelimiting_many Segment.selfDelimiting_read count) fun segments =>
      selfDelimiting_pure { e1 with digestList := list, rsvd3 := rsvd3, segments := segments }

/-! ## Frames with another size -/

/-- The refusals of an element of `len` bytes under the size `d`, where `left` bytes are left from
its start on: what `o` is for each `d` but the true one. -/
structure SizeRefused {α : Type} (kind : ElementKind) (start : Int) (len left d : Nat)
    (o : Except Error α) : Prop where
  impossible : d < Frame.headSize → o = .error (.invalidManifest (.impossibleSize kind d))
  overrun : Frame.headSize ≤ d → d < len →
    ∃ cause, o = .error (.invalidManifest (.overrun kind cause))
  mismatch : len < d → d ≤ left → o = .error (.invalidManifest (.sizeMismatch kind))
  beyond : left < d → o = .error (.truncated (.declared kind d start left))

/-- A computation that fails whenever another does, in the same way, keeps its refusals. -/
theorem SizeRefused.of_error {α β : Type} {kind : ElementKind} {start : Int} {len left d : Nat}
    {o : Except Error α} {o' : Except Error β} (h : SizeRefused kind start len left d o)
    (himp : ∀ e, o = .error e → o' = .error e) : SizeRefused kind start len left d o' where
  impossible hd := himp _ (h.impossible hd)
  overrun hd hlt := (h.overrun hd hlt).imp fun _ => himp _
  mismatch hlt hle := himp _ (h.mismatch hlt hle)
  beyond hlt := himp _ (h.beyond hlt)

namespace Frame

variable {α : Type} {kind : ElementKind}

theorem sizeRefused_sized {body : Reader α} {W : α → Bytes → Prop} (hreads : body.Reads W)
    (hself : body.SelfDelimiting) {a : α} {y : Bytes} (hw : W a y) (hlimit : y.length < sizeLimit)
    {pos : Int} (hpos : 0 ≤ pos) (kind : ElementKind) (d : Nat) (x : Bytes) :
    SizeRefused kind (pos - headSize) (headSize + y.length) (headSize + y.length + x.length) d
      (sized kind d body ⟨pos, y ++ x⟩) := by
  have hwindow : headSize ≤ d → d ≤ headSize + y.length + x.length →
      ¬ Bytes.shorterThan (y ++ x) (d - headSize) = true := by
    intro hd hle
    rw [Bytes.shorterThan_iff, List.length_append]
    omega
  unfold sized
  refine ⟨fun hd => ?_, fun hd hlt => ?_, fun hlt hle => ?_, fun hlt => ?_⟩
  · rw [if_pos hd]
  · -- The cut is inside the body.
    have hk : d - headSize < y.length := by omega
    obtain ⟨cause, hcause⟩ := hself.tooShort hreads hpos hw hk (Nat.lt_trans hk hlimit)
    rw [if_neg (Nat.not_lt.2 hd), if_neg (hwindow hd (by omega))]
    dsimp only
    rw [List.take_append_of_le_length (Nat.le_of_lt hk), hcause]
    exact ⟨cause, rfl⟩
  · -- The body ends before the window does.
    have hd : headSize ≤ d := by omega
    have hread := (hreads ⟨pos, y ++ x.take (d - headSize - y.length)⟩ a _ hpos).2
      ⟨y, hw, Cursor.passes_mk _ _ _⟩
    have htake : (y ++ x).take (d - headSize) = y ++ x.take (d - headSize - y.length) := by
      rw [List.take_append, List.take_of_length_le (by omega)]
    have hrest : ¬ (x.take (d - headSize - y.length)).isEmpty = true := by
      rw [List.isEmpty_iff, ← List.length_eq_zero_iff, List.length_take]
      omega
    rw [if_neg (Nat.not_lt.2 hd), if_neg (hwindow hd hle)]
    dsimp only
    rw [htake, hread]
    exact if_neg hrest
  · have hshort : Bytes.shorterThan (y ++ x) (d - headSize) = true := by
      rw [Bytes.shorterThan_iff, List.length_append]
      omega
    rw [if_neg (by omega), if_pos hshort]
    dsimp only
    rw [List.length_append, Nat.add_comm _ headSize, ← Nat.add_assoc]

/-- The bytes of an element with the size `d` stated in its head. -/
def restate (b : Bytes) (d : Nat) : Bytes := b.overwrite 10 (Bytes.ofNatLe 2 d)

/-- Only the head differs when another size is stated. -/
theorem restate_of_encode {structVer var0 size : Int} {y b : Bytes}
    (h : encode kind structVer var0 size y = .ok b) (x : Bytes) {d : Nat} (hd : d ≤ maxSize) :
    ∃ head, encode kind structVer var0 d [] = .ok head ∧ restate (b ++ x) d = head ++ (y ++ x) := by
  obtain ⟨sv, v0, z, hsv, hv0, hz, rfl⟩ := encode_eq_ok_iff.1 h
  have hsize : packInt 2 d = .ok (Bytes.ofNatLe 2 d) := by
    refine packInt_eq_ok_iff.2 ⟨⟨Int.natCast_nonneg d, ?_⟩, rfl⟩
    rw [maxSize] at hd
    exact_mod_cast Nat.lt_succ_of_le hd
  refine ⟨kind.id ++ sv ++ v0 ++ Bytes.ofNatLe 2 d,
    encode_eq_ok_iff.2 ⟨sv, v0, _, hsv, hv0, hsize, (List.append_nil _).symm⟩, ?_⟩
  have hfront : (kind.id ++ sv ++ v0).length = 10 := by
    simp only [List.length_append, kind.length_id, length_of_packInt hsv, length_of_packInt hv0]
  have htake : (kind.id ++ sv ++ v0 ++ z ++ y ++ x).take 10 = kind.id ++ sv ++ v0 := by
    rw [List.append_assoc _ y, List.append_assoc _ z, List.take_left' hfront]
  have hdrop : (kind.id ++ sv ++ v0 ++ z ++ y ++ x).drop (10 + 2) = y ++ x := by
    rw [List.append_assoc _ y]
    refine List.drop_left' ?_
    rw [List.length_append, hfront, length_of_packInt hz]
  rw [restate, Bytes.overwrite, Bytes.length_ofNatLe, htake, hdrop, List.append_assoc _ _ (y ++ x)]

/-- Stating the size that is stated changes nothing. -/
theorem restate_self {structVer var0 : Int} {y b : Bytes}
    (h : encodeSized kind structVer var0 y = .ok b) (x : Bytes) :
    restate (b ++ x) b.length = b ++ x := by
  have hlen := length_of_encode h
  obtain ⟨head, hhead, rfl⟩ := encode_eq_ok_iff_head.1 h
  obtain ⟨_, _, z, _, _, hz, _⟩ := encode_eq_ok_iff.1 h
  have hsize : (headSize + y.length : Nat) < 0x10000 := by
    have hlt := (packInt_eq_ok_iff.1 hz).1.2
    exact_mod_cast hlt
  obtain ⟨head', hhead', heq⟩ := restate_of_encode h x (d := (head ++ y).length) (by
    rw [hlen, maxSize]
    omega)
  have hsame : (((head ++ y).length : Nat) : Int) = headSize + y.length := by
    rw [hlen]
    push_cast
    rfl
  rw [hsame, hhead] at hhead'
  cases hhead'
  rw [heq, List.append_assoc]

/-- An element whose head states another size than its own is refused. -/
theorem sizeRefused_framed {body : Head → Reader α} {structVer var0 : α → Int}
    {V : α → Bytes → Prop} (hbody : ∀ head, (body head).Reads fun a b =>
      (structVer a = head.structVer ∧ var0 a = head.var0) ∧ V a b)
    (hself : ∀ head, (body head).SelfDelimiting) {a : α} {y b : Bytes} (hV : V a y)
    (henc : encodeSized kind (structVer a) (var0 a) y = .ok b) {pos : Int} (hpos : 0 ≤ pos)
    (x : Bytes) {d : Nat} (hd : d ≤ maxSize) :
    SizeRefused kind pos b.length (b.length + x.length) d
      ((readHead kind >>= fun head => sized kind head.size (body head))
        ⟨pos, restate (b ++ x) d⟩) := by
  obtain ⟨head, hhead, heq⟩ := restate_of_encode henc x hd
  have hlen : head.length = headSize := length_of_encode hhead
  have hread : readHead kind ⟨pos, head ++ (y ++ x)⟩ =
      .ok (⟨structVer a, var0 a, d⟩, ⟨pos + head.length, y ++ x⟩) :=
    (reads_readHead kind _ _ _ hpos).2 ⟨head, hhead, Cursor.passes_mk _ _ _⟩
  have hlimit : y.length < sizeLimit := by
    obtain ⟨_, _, z, _, _, hz, _⟩ := encode_eq_ok_iff.1 henc
    have hlt := (packInt_eq_ok_iff.1 hz).1.2
    rw [sizeLimit]
    have : (headSize + y.length : Nat) < 0x10000 := by exact_mod_cast hlt
    omega
  have hpos' : 0 ≤ pos + (head.length : Int) := by omega
  have hsized := sizeRefused_sized (hbody ⟨structVer a, var0 a, d⟩)
    (hself ⟨structVer a, var0 a, d⟩) (a := a) ⟨⟨rfl, rfl⟩, hV⟩ hlimit hpos' kind d x
  rw [heq, Reader.bind_of_eq_ok hread, length_of_encode henc]
  rw [hlen, Int.add_sub_cancel] at hsized
  rw [hlen]
  exact hsized

end Frame

/-! ## Elements with another size -/

/-- The kinds whose head states the size of the whole element. -/
def ElementKind.StatesSize : ElementKind → Prop
  | policyHeader | bootBlock | trustedBoot => True
  | signature | keyManifest => False

namespace Element

theorem sizeRefused_readKind {e : Element} {b : Bytes} (hw : e.Written b)
    (hk : e.kind.StatesSize) {pos : Int} (hpos : 0 ≤ pos) (x : Bytes) {d : Nat}
    (hd : d ≤ Frame.maxSize) :
    SizeRefused e.kind pos b.length (b.length + x.length) d
      (readKind e.kind ⟨pos, Frame.restate (b ++ x) d⟩) := by
  have hmap {α : Type} {r : Reader α} {f : α → Element} {c : Cursor} (err : Error)
      (h : r c = .error err) : (f <$> r) c = .error err := by
    show (r c >>= fun p => pure (f p.1, p.2)) = _
    rw [h, error_bind]
  cases e with
  | policyHeader h offset =>
    obtain ⟨body, hbody, henc⟩ := PolicyHeader.encode_eq_ok_iff.1 hw
    exact (Frame.sizeRefused_framed (a := (h, offset)) (fun _ => PolicyHeader.reads_readBody _)
      (fun _ => PolicyHeader.selfDelimiting_readBody _) ⟨body, hbody, rfl⟩ henc hpos x hd).of_error
      hmap
  | bootBlock e =>
    obtain ⟨hfit, hw⟩ := hw
    obtain ⟨body, hbody, henc⟩ := BootBlock.encode_eq_ok_iff.1 hw
    exact (Frame.sizeRefused_framed (a := e) (fun _ => BootBlock.reads_readBody _)
      (fun _ => BootBlock.selfDelimiting_readBody _) ⟨hfit, hbody⟩ henc hpos x hd).of_error hmap
  | trustedBoot e =>
    obtain ⟨hfit, hw⟩ := hw
    obtain ⟨body, hbody, henc⟩ := TrustedBoot.encode_eq_ok_iff.1 hw
    exact (Frame.sizeRefused_framed (a := e) (fun _ => TrustedBoot.reads_readBody _)
      (fun _ => TrustedBoot.selfDelimiting_readBody _) ⟨hfit, hbody⟩ henc hpos x hd).of_error hmap
  | signature e => exact hk.elim
  | keyManifest k offset => exact hk.elim

theorem Written.exists_encodeSized {e : Element} {b : Bytes} (hw : e.Written b)
    (hk : e.kind.StatesSize) :
    ∃ structVer var0 body, Frame.encodeSized e.kind structVer var0 body = .ok b := by
  cases e with
  | policyHeader h offset =>
    obtain ⟨body, _, henc⟩ := PolicyHeader.encode_eq_ok_iff.1 hw
    exact ⟨_, _, _, henc⟩
  | bootBlock e =>
    obtain ⟨body, _, henc⟩ := BootBlock.encode_eq_ok_iff.1 hw.2
    exact ⟨_, _, _, henc⟩
  | trustedBoot e =>
    obtain ⟨body, _, henc⟩ := TrustedBoot.encode_eq_ok_iff.1 hw.2
    exact ⟨_, _, _, henc⟩
  | signature e => exact hk.elim
  | keyManifest k offset => exact hk.elim

/-- Of all sizes that the head of an encoded policy header, boot block or trusted execution
element can state, only the true one is accepted, whatever follows the element. A size beyond the
end of the input is refused as an input too short, every other one as an invalid manifest: it has
no room for the head, the content overruns it, or the content does not fill it. -/
theorem run_read_restate {e : Element} {b : Bytes} (hw : e.Written b) (hk : e.kind.StatesSize)
    (p x : Bytes) {d : Nat} (hd : d ≤ Frame.maxSize) :
    SizeRefused e.kind p.length b.length (b.length + x.length) d
        (read.run (p ++ Frame.restate (b ++ x) d) p.length) ∧
      (d = b.length → read.run (p ++ Frame.restate (b ++ x) d) p.length = .ok (e, d)) := by
  have hpos : 0 ≤ (p.length : Int) := Int.natCast_nonneg _
  obtain ⟨structVer, var0, body, henc⟩ := hw.exists_encodeSized hk
  constructor
  · have hid : (Frame.restate (b ++ x) d).take 8 = e.kind.id := by
      obtain ⟨head, hhead, heq⟩ := Frame.restate_of_encode henc x hd
      have hlen : head.length = Frame.headSize := Frame.length_of_encode hhead
      rw [heq, List.take_append_of_le_length (by rw [hlen, Frame.headSize]; omega)]
      exact Frame.take_of_encode hhead
    refine (sizeRefused_readKind hw hk hpos x hd).of_error fun err herr => ?_
    have hstart : start (p ++ Frame.restate (b ++ x) d) p.length =
        ⟨p.length, Frame.restate (b ++ x) d⟩ := by
      rw [start, Int.toNat_natCast, List.drop_left]
    rw [run, hstart, read_of_take_eq_id hpos hid, herr]
  · rintro rfl
    rw [Frame.restate_self henc, run_read_eq_ok_iff, Int.toNat_natCast, List.drop_left]
    refine ⟨hpos, b, x, hw, rfl, rfl, ?_⟩
    cases e with
    | signature e => exact hk.elim
    | _ => exact False.elim

/-- A boot block of 92 bytes with five bytes behind it. -/
theorem run_read_restate_sample : ∃ b : Bytes, b.length = 92 ∧
    (∀ d < 12, read.run (Frame.restate (b ++ Bytes.zeros 5) d) 0 =
      .error (.invalidManifest (.impossibleSize .bootBlock d))) ∧
    (∃ cause, read.run (Frame.restate (b ++ Bytes.zeros 5) 91) 0 =
      .error (.invalidManifest (.overrun .bootBlock cause))) ∧
    read.run (Frame.restate (b ++ Bytes.zeros 5) 92) 0 =
      .ok (.bootBlock { segments := [{}] }, 92) ∧
    read.run (Frame.restate (b ++ Bytes.zeros 5) 97) 0 =
      .error (.invalidManifest (.sizeMismatch .bootBlock)) ∧
    read.run (Frame.restate (b ++ Bytes.zeros 5) 98) 0 =
      .error (.truncated (.declared .bootBlock 98 0 97)) := by
  obtain ⟨b, henc, hlen⟩ : ∃ b, (BootBlock.encode { segments := [{}] }) = .ok b ∧
      b.length = 92 :=
    ⟨_, eq_ok_of_isOk [] (by decide +kernel), by decide +kernel⟩
  have hrun {d : Nat} (hd : d ≤ Frame.maxSize) :=
    run_read_restate (e := .bootBlock { segments := [{}] }) ⟨rfl, henc⟩ trivial [] (Bytes.zeros 5)
      hd
  have hzeros : (Bytes.zeros 5).length = 5 := rfl
  rw [hlen, hzeros] at hrun
  refine ⟨b, hlen, fun d hd => ?_, (hrun (by decide)).1.overrun (by decide) (by decide),
    (hrun (by decide)).2 rfl, (hrun (by decide)).1.mismatch (by decide) (by decide),
    (hrun (by decide)).1.beyond (by decide)⟩
  exact (hrun (Nat.le_of_lt (Nat.lt_of_lt_of_le hd (by decide)))).1.impossible hd

end Element

end BootGuard
