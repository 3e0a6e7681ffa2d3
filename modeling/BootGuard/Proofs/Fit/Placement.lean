/-
  What placing one payload does.

  `Placed` lists it once: where the payload lands, that it stands there and that its entry
  refers to it; that entries of other types are the same; and that no byte changes but where the
  payload lands and in the region that was given up, which is erased. `place_spec` says that
  every placement that succeeds is of this kind. It is about payloads that an image can take;
  what holds of all of them is in `Confined`.
-/
import BootGuard.Proofs.Fit.FreeSpace
import BootGuard.Proofs.Fit.Region

namespace BootGuard.Fit

/-- A payload that an image can take: there is one, its length fits an entry, and a module
states its own length. -/
structure Placeable (kind : PayloadKind) (payload : Bytes) : Prop where
  ne_nil : payload ≠ []
  length_lt : payload.length < 0x1000000
  acm : kind = .acm → acmSize payload = .ok payload.length

namespace Workspace

/-- Every entry fits its fields and names a place in the image. -/
def Valid (w : Workspace) : Prop :=
  ∀ e ∈ w.entries, e.Fits ∧ e.Addresses w.image.length

/-- The region of the first entry for payloads of a kind. -/
def region? (w : Workspace) (kind : PayloadKind) : Option (Nat × Nat) :=
  regionOf w.image w.entries kind

/-- What the first entry for payloads of a kind refers to. -/
def referred (w : Workspace) (kind : PayloadKind) : Except Error Bytes :=
  Fit.referred w.image w.entries kind.entryType

theorem region?_eq_some_iff {w : Workspace} {kind : PayloadKind} {r : Nat × Nat} :
    w.region? kind = some r ↔
      ∃ e, first? kind.entryType w.entries = some e ∧ e.region w.image = .ok r :=
  regionOf_eq_some_iff

theorem referred_eq_ok_iff {w : Workspace} {kind : PayloadKind} {b : Bytes} (hw : w.Valid) :
    w.referred kind = .ok b ↔ ∃ r, w.region? kind = some r ∧ r.1 < r.2 ∧
      r.2 ≤ w.image.length ∧ b = (w.image.drop r.1).take (r.2 - r.1) := by
  rw [referred, Fit.referred_eq_ok_iff fun e he => (hw e he).2]
  simp only [region?_eq_some_iff]
  constructor
  · intro h
    obtain ⟨e, r, h1, h2, h3⟩ := h
    exact ⟨r, ⟨e, h1, h2⟩, h3⟩
  · intro h
    obtain ⟨r, ⟨e, h1, h2⟩, h3⟩ := h
    exact ⟨e, r, h1, h2, h3⟩

/-- What placing a payload does that lands in the interval `landing`. -/
structure Placed (w w' : Workspace) (kind : PayloadKind) (payload : Bytes)
    (landing : Nat × Nat) : Prop where
  /-- The image keeps its size, and the landing place is in it. -/
  length_eq : w'.image.length = w.image.length
  landing_eq : landing.2 = landing.1 + payload.length
  landing_le : landing.2 ≤ w.image.length
  /-- The payload stands where it landed, and its entry refers to it. -/
  slice_eq : (w'.image.drop landing.1).take payload.length = payload
  region_eq : w'.region? kind = some landing
  /-- No byte changes elsewhere, but for what the payload took the place of. -/
  frame : ∀ i, ¬ Within i landing → (∀ r, w.region? kind = some r → ¬ Within i r) →
    w'.image[i]? = w.image[i]?
  /-- What it took the place of is erased, but for where it landed. -/
  erased : ∀ i, ¬ Within i landing → ∀ r, w.region? kind = some r → Within i r →
    w'.image[i]? = some 0xFF
  /-- A payload lands in the place of the old one, or else where nothing is reserved. -/
  in_place_or_moved :
    (w'.reserved = w.reserved ∧
      ∃ r, w.region? kind = some r ∧ ∀ i, Within i landing → Within i r) ∨
    (w'.reserved = w.reserved ++ [landing] ∧ ∀ r ∈ w.reserved, Apart landing r)
  /-- Other entries stay what they are. -/
  first_of_ne : ∀ t, t ≠ kind.entryType → t ≠ typeUnused →
    first? t w'.entries = first? t w.entries
  valid : w'.Valid

end Workspace

/-- The entry that refers to a payload of a kind that landed at `offset`. -/
def landed (kind : PayloadKind) (offset n length : Nat) (e : Entry) : Entry :=
  { e with address := addressOf offset n, size := (kind.statedSize length : Int) }

theorem addresses_addressOf {e : Entry} {offset n : Nat} (h : e.address = addressOf offset n) :
    e.Addresses n := by
  right
  rw [h, addressOf]
  omega

/-- The region of an entry for a payload that stands at the place the entry names. -/
theorem region_of_slice {kind : PayloadKind} {payload image : Bytes} {offset : Nat} {e : Entry}
    (hp : Placeable kind payload) (htype : e.type = kind.entryType)
    (hoff : offsetOf e.address image.length = .ok offset)
    (hsize : kind ≠ .acm → e.size = payload.length)
    (hslice : (image.drop offset).take payload.length = payload) :
    e.region image = .ok (offset, offset + payload.length) := by
  refine Entry.region_eq_ok_iff.2 ⟨offset, payload.length, hoff, ?_, rfl⟩
  rw [Int.toNat_natCast]
  unfold regionSize
  by_cases hk : kind = .acm
  · have hacm := hp.acm hk
    subst hk
    have hlen := (acmSize_of_take hacm rfl).1
    have htake : (image.drop offset).take acmHeaderSize = payload.take acmHeaderSize := by
      rw [← hslice, List.take_take, Nat.min_eq_left hlen]
    have hmodule : e.type = typeStartupAcm := htype
    rw [if_pos hmodule]
    exact (acmSize_of_take hacm htake).2
  · have hne : e.type ≠ typeStartupAcm := by
      rw [htype]
      intro h
      exact hk (entryType_injective (k := .acm) h)
    rw [if_neg hne, hsize hk]
    rfl

/-! ## Moving -/

/-- The entries behind a move: one for the payload, and the others as they were. -/
theorem moved_entries {es es' : List Entry} {kind : PayloadKind} {offset n length : Nat}
    (hes : es' = if es.any fun e => e.type = kind.entryType
      then updateFirst kind.entryType (landed kind offset n length) es
      else addEntry (landed kind offset n length { type := kind.entryType }) es) :
    (∃ e, first? kind.entryType es' = some e ∧ e.address = addressOf offset n ∧
      e.size = kind.statedSize length) ∧
    (∀ t, t ≠ kind.entryType → t ≠ typeUnused → first? t es' = first? t es) ∧
    (∀ e ∈ es', e ∈ es ∨ ∃ x : Entry, (x ∈ es ∨ x.type = kind.entryType) ∧
      e = landed kind offset n length x) ∧
    ∀ ks, kind ∉ ks → es'.length + growth es' ks = es.length + growth es (kind :: ks) := by
  have hkeep : ∀ e, (landed kind offset n length e).type = e.type := fun e => rfl
  rw [any_type_eq] at hes
  cases hfirst : first? kind.entryType es with
  | none =>
    rw [hfirst, Option.isSome_none, if_neg (by simp)] at hes
    subst hes
    have hself := first?_addEntry_self
      (hkeep { type := kind.entryType }) (entryType_ne_unused kind) hfirst
    refine ⟨⟨_, hself, rfl, rfl⟩, ?_, ?_, ?_⟩
    · intro t ht hu
      exact first?_addEntry_of_ne ht hu es
    · intro e he
      obtain rfl | he := mem_addEntry he
      · exact .inr ⟨_, .inr rfl, rfl⟩
      · exact .inl he
    · intro ks hk
      exact growth_addEntry rfl hfirst hk
  | some x =>
    rw [hfirst, Option.isSome_some, if_pos rfl] at hes
    subst hes
    have hself := first?_updateFirst_self kind.entryType hkeep es
    rw [hfirst] at hself
    refine ⟨⟨_, hself, rfl, rfl⟩, ?_, ?_, ?_⟩
    · intro t ht _
      exact first?_updateFirst_of_ne kind.entryType hkeep ht es
    · intro e he
      obtain he | ⟨y, hy, _, rfl⟩ := mem_updateFirst he
      · exact .inl he
      · exact .inr ⟨y, .inl hy, rfl⟩
    · intro ks _
      exact growth_updateFirst hkeep hfirst ks

namespace Workspace

/-- A move lands in free space. -/
theorem move_spec {w w' : Workspace} {kind : PayloadKind} {payload : Bytes}
    (h : w.move kind payload = .ok w') : ∃ offset : Nat,
      offset + payload.length ≤ w.image.length ∧
      (∀ r ∈ w.reserved, Apart (offset, offset + payload.length) r) ∧
      (∀ i, Within i (offset, offset + payload.length) → w.image[i]? = some 0xFF) ∧
      w'.image = w.image.overwrite offset payload ∧
      w'.reserved = w.reserved ++ [(offset, offset + payload.length)] ∧
      w'.entries = if w.entries.any fun e => e.type = kind.entryType
        then updateFirst kind.entryType (landed kind offset w.image.length payload.length)
          w.entries
        else addEntry (landed kind offset w.image.length payload.length
          { type := kind.entryType }) w.entries := by
  unfold move at h
  dsimp only at h
  cases hfree : findFree? w.image payload.length kind.alignment_pos w.reserved with
  | none =>
    rw [hfree] at h
    cases h
  | some offset =>
    rw [hfree] at h
    cases h
    obtain ⟨hle, hapart, herased⟩ := findFree?_sound hfree
    exact ⟨offset, hle, hapart, herased, rfl, rfl, rfl⟩

/-- A payload that moves, where `image` is the image before anything was erased. -/
theorem placed_of_move {w w' : Workspace} {kind : PayloadKind} {payload : Bytes} (image : Bytes)
    (hp : Placeable kind payload) (hw : w.Valid)
    (hframe : ∀ i, (∀ r, region? { w with image := image } kind = some r → ¬ Within i r) →
      w.image[i]? = image[i]?)
    (herased : ∀ i r, region? { w with image := image } kind = some r → Within i r →
      w.image[i]? = some 0xFF) (hlen : w.image.length = image.length)
    (h : w.move kind payload = .ok w') :
    ∃ landing, Placed { w with image := image } w' kind payload landing := by
  obtain ⟨offset, hle, hapart, _, himage, hreserved, hentries⟩ := move_spec h
  obtain ⟨⟨e, hfirst, haddr, hsize⟩, hother, hmem, _⟩ := moved_entries hentries
  have hpos : 0 < payload.length := List.length_pos_iff.2 hp.ne_nil
  have hlen' : w'.image.length = w.image.length := by
    rw [himage, Bytes.length_overwrite _ _ _ hle]
  have hslice : (w'.image.drop offset).take payload.length = payload := by
    rw [himage, Bytes.slice_overwrite hle]
  have hoff : offsetOf e.address w'.image.length = .ok offset := by
    rw [haddr, hlen']
    exact offsetOf_addressOf (Int.natCast_nonneg _) (by omega)
  have hstated : kind ≠ .acm → e.size = payload.length := by
    intro hk
    rw [hsize, statedSize_of_ne hk]
  refine ⟨(offset, offset + payload.length), {
    length_eq := hlen'.trans hlen
    landing_eq := rfl
    landing_le := hlen ▸ hle
    slice_eq := hslice
    region_eq := region?_eq_some_iff.2
      ⟨e, hfirst, region_of_slice hp (type_of_first? hfirst) hoff hstated hslice⟩
    frame := ?frame
    erased := ?erased
    in_place_or_moved := .inr ⟨hreserved, hapart⟩
    first_of_ne := hother
    valid := ?valid }⟩
  case frame =>
    intro i hi hold
    rw [himage, Bytes.getElem?_overwrite_of_not_within hle hi]
    exact hframe i hold
  case erased =>
    intro i hi r hr hir
    rw [himage, Bytes.getElem?_overwrite_of_not_within hle hi]
    exact herased i r hr hir
  case valid =>
    intro x hx
    rw [hlen']
    obtain hx | ⟨y, hy, rfl⟩ := hmem x hx
    · exact hw x hx
    · have hstated : kind.statedSize payload.length < 0x1000000 := statedSize_lt hp.length_lt
      refine ⟨⟨⟨Int.natCast_nonneg _, Int.ofNat_lt.2 hstated⟩, ?_⟩, addresses_addressOf rfl⟩
      obtain hy | hy := hy
      · exact (hw y hy).1.2
      · dsimp only [landed]
        rw [hy]
        exact entryType_lt kind

/-! ## Placing -/

/-- The workspace behind the move of a payload to `offset`, with a new entry for it. -/
def moved (w : Workspace) (kind : PayloadKind) (payload : Bytes) (offset : Nat) : Workspace where
  image := w.image.overwrite offset payload
  entries := addEntry (landed kind offset w.image.length payload.length
    { type := kind.entryType }) w.entries
  reserved := w.reserved ++ [(offset, offset + payload.length)]

theorem place_of_none {w : Workspace} {kind : PayloadKind}
    (hnone : first? kind.entryType w.entries = none) (payload : Bytes) :
    w.place kind payload = w.move kind payload := by
  have hfind : (w.entries.find? fun e => e.type = kind.entryType) = none := hnone
  unfold place
  rw [hfind]

/-- A placement where an entry names what is replaced. -/
theorem place_of_region {w : Workspace} {kind : PayloadKind} {e : Entry} {offset : Int}
    {oldSize : Nat} (hfirst : first? kind.entryType w.entries = some e)
    (hoff : offsetOf e.address w.image.length = .ok offset)
    (hsize : regionSize w.image e offset.toNat = .ok oldSize) (payload : Bytes) :
    w.place kind payload =
      if (w.image.length : Int) < offset + oldSize then
        .error (.offsetOutOfRange (.region kind.entryType offset oldSize))
      else if payload.length ≤ oldSize then
        .ok { w with
          image := w.image.overwrite offset.toNat
            (payload ++ Bytes.erased (oldSize - payload.length))
          entries := updateFirst kind.entryType (fun e =>
            if kind = .acm then e else { e with size := payload.length }) w.entries }
      else
        move { w with image := w.image.overwrite offset.toNat (Bytes.erased oldSize) }
          kind payload := by
  have hfind : (w.entries.find? fun e => e.type = kind.entryType) = some e := hfirst
  unfold place
  rw [hfind]
  dsimp only
  rw [hoff, ok_bind, hsize, ok_bind]
  rfl

/-- A payload that there is no entry for moves to the free space that is found. -/
theorem place_of_absent {w : Workspace} {kind : PayloadKind} {payload : Bytes} (offset : Nat)
    (hnone : first? kind.entryType w.entries = none)
    (hfree : findFree? w.image payload.length kind.alignment_pos w.reserved = some offset) :
    w.place kind payload = .ok (w.moved kind payload offset) := by
  have hany : ¬ (w.entries.any fun e => e.type = kind.entryType) = true := by
    rw [any_type_eq, hnone]
    decide
  rw [place_of_none hnone]
  unfold move
  dsimp only
  rw [hfree]
  dsimp only
  rw [if_neg hany]
  rfl

/-- A payload that fits where its entry refers to is placed there. -/
theorem place_of_fit {w : Workspace} {kind : PayloadKind} {payload : Bytes} {e : Entry}
    {offset : Int} {oldSize : Nat}
    (hfirst : first? kind.entryType w.entries = some e)
    (hoff : offsetOf e.address w.image.length = .ok offset)
    (hsize : regionSize w.image e offset.toNat = .ok oldSize)
    (hle : ¬ (w.image.length : Int) < offset + oldSize) (hfit : payload.length ≤ oldSize) :
    w.place kind payload = .ok { w with
      image := w.image.overwrite offset.toNat
        (payload ++ Bytes.erased (oldSize - payload.length))
      entries := updateFirst kind.entryType (fun e =>
        if kind = .acm then e else { e with size := payload.length }) w.entries } := by
  rw [place_of_region hfirst hoff hsize, if_neg hle, if_pos hfit]

/-- The steps of a placement where there is an entry. -/
theorem place_of_first {w w' : Workspace} {kind : PayloadKind} {payload : Bytes} {e : Entry}
    (hfirst : first? kind.entryType w.entries = some e) (h : w.place kind payload = .ok w') :
    ∃ offset oldSize, offsetOf e.address w.image.length = .ok offset ∧
      regionSize w.image e offset.toNat = .ok oldSize ∧
      ¬ (w.image.length : Int) < offset + oldSize ∧
      ((payload.length ≤ oldSize ∧ w' = { w with
          image := w.image.overwrite offset.toNat
            (payload ++ Bytes.erased (oldSize - payload.length))
          entries := updateFirst kind.entryType (fun e =>
            if kind = .acm then e else { e with size := payload.length }) w.entries }) ∨
        move { w with image := w.image.overwrite offset.toNat (Bytes.erased oldSize) }
          kind payload = .ok w') := by
  have hfind : (w.entries.find? fun e => e.type = kind.entryType) = some e := hfirst
  unfold place at h
  rw [hfind] at h
  simp only [bind_eq_ok_iff, ite_throw_eq_ok_iff] at h
  obtain ⟨offset, hoff, oldSize, hsize, hle, h⟩ := h
  refine ⟨offset, oldSize, hoff, hsize, hle, ?_⟩
  by_cases hfit : payload.length ≤ oldSize
  · rw [if_pos hfit] at h
    cases h
    exact .inl ⟨hfit, rfl⟩
  · rw [if_neg hfit] at h
    exact .inr h

/-- What is written in the place of an old payload takes all of it. -/
theorem length_filled {payload : Bytes} {size : Nat} (h : payload.length ≤ size) :
    (payload ++ Bytes.erased (size - payload.length)).length = size := by
  rw [List.length_append, Bytes.length_erased]
  omega

/-- Behind the new payload the place of the old one is erased. -/
theorem getElem?_filled {image payload : Bytes} {offset oldSize i : Nat}
    (hfit : payload.length ≤ oldSize) (hle : offset + oldSize ≤ image.length)
    (hi : Within i (offset, offset + oldSize))
    (hout : ¬ Within i (offset, offset + payload.length)) :
    (image.overwrite offset (payload ++ Bytes.erased (oldSize - payload.length)))[i]? =
      some 0xFF := by
  have hfilled := length_filled hfit
  have hpast : offset + payload.length ≤ i := Nat.le_of_not_lt fun h => hout ⟨hi.1, h⟩
  have hsize : i < offset + oldSize := hi.2
  rw [Bytes.getElem?_overwrite (by rw [hfilled]; exact hle), hfilled, if_pos hi,
    List.getElem?_append_right (by omega)]
  exact Bytes.getElem?_erased (by omega)

/-- The entry of a payload that takes the place of the old one keeps its type. -/
theorem type_resize (kind : PayloadKind) (size : Int) (e : Entry) :
    (if kind = .acm then e else { e with size := size }).type = e.type := by
  split <;> rfl

/-- A payload that takes the place of the old one. -/
theorem placed_in_place {w : Workspace} {kind : PayloadKind} {payload : Bytes} {e : Entry}
    {offset oldSize : Nat} (hp : Placeable kind payload) (hw : w.Valid)
    (hfirst : first? kind.entryType w.entries = some e)
    (hoff : offsetOf e.address w.image.length = .ok offset)
    (hregion : e.region w.image = .ok (offset, offset + oldSize))
    (hle : offset + oldSize ≤ w.image.length) (hfit : payload.length ≤ oldSize) :
    Placed w { w with
        image := w.image.overwrite offset (payload ++ Bytes.erased (oldSize - payload.length))
        entries := updateFirst kind.entryType (fun e =>
          if kind = .acm then e else { e with size := payload.length }) w.entries }
      kind payload (offset, offset + payload.length) := by
  have hfilled := length_filled hfit
  have hle' : offset + (payload ++ Bytes.erased (oldSize - payload.length)).length ≤
      w.image.length := by
    rw [hfilled]
    exact hle
  have hlen := Bytes.length_overwrite _ _ _ hle'
  have hslice := Bytes.slice_overwrite_front hle'
  have hkeep := type_resize kind payload.length
  have hself := first?_updateFirst_self kind.entryType hkeep w.entries
  rw [hfirst, Option.map_some] at hself
  have hwithin : ∀ i, Within i (offset, offset + payload.length) →
      Within i (offset, offset + oldSize) := by
    intro i hi
    exact ⟨hi.1, Nat.lt_of_lt_of_le hi.2 (Nat.add_le_add_left hfit _)⟩
  have hold : w.region? kind = some (offset, offset + oldSize) :=
    region?_eq_some_iff.2 ⟨e, hfirst, hregion⟩
  refine {
    length_eq := hlen
    landing_eq := rfl
    landing_le := Nat.le_trans (Nat.add_le_add_left hfit _) hle
    slice_eq := hslice
    region_eq := ?region
    frame := ?frame
    erased := ?erased
    in_place_or_moved := .inl ⟨rfl, _, hold, hwithin⟩
    first_of_ne := ?first
    valid := ?valid }
  case region =>
    refine region?_eq_some_iff.2 ⟨_, hself, region_of_slice hp ?_ ?_ ?_ hslice⟩
    · rw [hkeep]
      exact type_of_first? hfirst
    · dsimp only
      rw [hlen]
      split
      · exact hoff
      · exact hoff
    · intro hk
      rw [if_neg hk]
  case frame =>
    intro i _ hi
    refine Bytes.getElem?_overwrite_of_not_within hle' ?_
    rw [hfilled]
    exact hi _ hold
  case erased =>
    intro i hi r hr hir
    rw [hold] at hr
    cases hr
    exact getElem?_filled hfit hle hir hi
  case first =>
    intro t ht _
    exact first?_updateFirst_of_ne kind.entryType hkeep ht w.entries
  case valid =>
    intro x hx
    dsimp only at hx ⊢
    rw [hlen]
    obtain hx | ⟨y, hy, _, rfl⟩ := mem_updateFirst hx
    · exact hw x hx
    · by_cases hk : kind = .acm
      · rw [if_pos hk]
        exact hw y hy
      · rw [if_neg hk]
        have hlt := hp.length_lt
        exact ⟨⟨⟨Int.natCast_nonneg _, by dsimp only; omega⟩, (hw y hy).1.2⟩, (hw y hy).2⟩

/-- Every placement that succeeds does what `Placed` says. -/
theorem place_spec {w w' : Workspace} {kind : PayloadKind} {payload : Bytes}
    (hp : Placeable kind payload) (hw : w.Valid) (h : w.place kind payload = .ok w') :
    ∃ landing, Placed w w' kind payload landing := by
  cases hfirst : first? kind.entryType w.entries with
  | none =>
    rw [place_of_none hfirst] at h
    refine placed_of_move w.image hp hw (fun _ _ => rfl) (fun _ _ hr _ => ?_) rfl h
    obtain ⟨e, he, _⟩ := region?_eq_some_iff.1 hr
    rw [hfirst] at he
    cases he
  | some e =>
    obtain ⟨offset, oldSize, hoff, hsize, hle, h⟩ := place_of_first hfirst h
    obtain ⟨hpos, hlt⟩ := offsetOf_bounds (hw e (mem_of_first? hfirst)).2 hoff
    have hregion : e.region w.image = .ok (offset.toNat, offset.toNat + oldSize) :=
      Entry.region_eq_ok_iff.2 ⟨offset, oldSize, hoff, hsize, rfl⟩
    have hold : w.region? kind = some (offset.toNat, offset.toNat + oldSize) :=
      region?_eq_some_iff.2 ⟨e, hfirst, hregion⟩
    have hle' : offset.toNat + oldSize ≤ w.image.length := by omega
    obtain ⟨hfit, rfl⟩ | hmove := h
    · have hoff' : offsetOf e.address w.image.length = .ok (offset.toNat : Int) := by
        rw [Int.toNat_of_nonneg hpos]
        exact hoff
      exact ⟨_, placed_in_place hp hw hfirst hoff' hregion hle' hfit⟩
    · have herased : offset.toNat + (Bytes.erased oldSize).length ≤ w.image.length := by
        rw [Bytes.length_erased]
        exact hle'
      have hlen := Bytes.length_overwrite _ _ _ herased
      have hvalid : Valid { w with
          image := w.image.overwrite offset.toNat (Bytes.erased oldSize) } := by
        intro x hx
        dsimp only
        rw [hlen]
        exact hw x hx
      refine placed_of_move
        (w := { w with image := w.image.overwrite offset.toNat (Bytes.erased oldSize) })
        w.image hp hvalid ?_ ?_ hlen hmove
      · intro i hi
        refine Bytes.getElem?_overwrite_of_not_within herased ?_
        rw [Bytes.length_erased]
        exact hi _ hold
      · intro i r hr hir
        have hsame : some r = some (offset.toNat, offset.toNat + oldSize) := hr.symm.trans hold
        cases hsame
        rw [Bytes.getElem?_overwrite herased, Bytes.length_erased, if_pos hir]
        exact Bytes.getElem?_erased (Nat.sub_lt_left_of_lt_add hir.1 hir.2)

end Workspace

end BootGuard.Fit
