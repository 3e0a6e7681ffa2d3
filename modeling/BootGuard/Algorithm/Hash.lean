/-
  Hashing under an algorithm identifier, and lists of identifiers without repetition.
-/
import BootGuard.Error

namespace BootGuard.Algorithm

/-- The first algorithm that stood earlier in the list already, behind those in `seen`. -/
def firstRepeated {α : Type} [DecidableEq α] (seen : List α) : List α → Option α
  | [] => none
  | a :: as => if a ∈ seen then some a else firstRepeated (a :: seen) as

/-- Refuses a list of algorithms in which one stands twice. -/
def checkUnique (algs : List Int) : Except Error Unit :=
  match firstRepeated [] algs with
  | some alg => .error (.duplicateAlgorithm (.requested alg))
  | none => .ok ()

/-- The hash function of an algorithm that must be one. -/
def hashFunction (alg : Int) : Except Error HashFunction :=
  match hashFunction? alg with
  | some f => .ok f
  | none => .error (.unsupportedAlgorithm (.hash alg))

/-- The length of the digests of an algorithm; the null algorithm has empty ones. -/
def digestSize (alg : Int) : Except Error Nat :=
  if alg = null then .ok 0 else (hashFunction alg).map HashFunction.digestSize

/-- The digest of data under an algorithm; empty under the null algorithm. All five hash functions
are at hand: that a system lacks SM3 is not a case here. -/
def hash (alg : Int) (data : Bytes) : Except Error Bytes :=
  if alg = null then .ok [] else (hashFunction alg).map fun f => f.hash data

/-- The digest of data under an algorithm, as a relation. -/
inductive IsDigest (data : Bytes) : Int → Bytes → Prop
  | empty : IsDigest data null []
  | hashed {alg : Int} {f : HashFunction} (h : hashFunction? alg = some f) :
      IsDigest data alg (f.hash data)

theorem hash_eq_ok_iff {alg : Int} {data d : Bytes} :
    hash alg data = .ok d ↔ IsDigest data alg d := by
  unfold hash
  constructor
  · intro h
    split at h
    · rename_i hnull
      cases h
      rw [hnull]
      exact .empty
    · unfold hashFunction at h
      split at h
      · rename_i hf
        cases h
        exact .hashed hf
      · cases h
  · intro h
    cases h with
    | empty => exact if_pos rfl
    | @hashed _ f h =>
      have hne : alg ≠ null := by
        rintro rfl
        cases h
      rw [if_neg hne, hashFunction, h]
      rfl

theorem firstRepeated_eq_none_iff {α : Type} [DecidableEq α] (seen as : List α) :
    firstRepeated seen as = none ↔ as.Nodup ∧ ∀ a ∈ as, a ∉ seen := by
  induction as generalizing seen with
  | nil => simp [firstRepeated]
  | cons a as ih =>
    by_cases h : a ∈ seen
    · simp [firstRepeated, h]
    · simp only [firstRepeated, h, if_false, ih, List.nodup_cons, List.mem_cons]
      constructor
      · rintro ⟨h1, h2⟩
        refine ⟨⟨fun ha => (h2 a ha) (Or.inl rfl), h1⟩, ?_⟩
        rintro b (rfl | hb)
        · exact h
        · exact fun hs => h2 b hb (Or.inr hs)
      · rintro ⟨⟨h1, h2⟩, h3⟩
        refine ⟨h2, fun b hb hc => ?_⟩
        rcases hc with rfl | hc
        · exact h1 hb
        · exact h3 b (Or.inr hb) hc

theorem checkUnique_eq_ok_iff (algs : List Int) : checkUnique algs = .ok () ↔ algs.Nodup := by
  have h := firstRepeated_eq_none_iff ([] : List Int) algs
  simp only [List.not_mem_nil, not_false_eq_true, implies_true, and_true] at h
  rw [← h, checkUnique]
  split <;> simp_all

end BootGuard.Algorithm
