/-
  Algorithms as they are asked for: by number or by name.

  A name is resolved only when the algorithm is needed, so a request that names no algorithm
  is refused then and not earlier.
-/
import BootGuard.Algorithm.Hash
import BootGuard.Json

namespace BootGuard.Algorithm

/-- A request for an algorithm. -/
inductive Spec
  | id (alg : Int)
  | text (name : String)
  | other
deriving DecidableEq, Repr

namespace Spec

/-- The request that a document makes. -/
def ofJson : Json → Spec
  | .int i => id i
  | .bool b => id (if b then 1 else 0)
  | .str s => text s
  | _ => other

/-- The identifier asked for. -/
def resolve : Spec → Except Error Int
  | id alg => .ok alg
  | text name =>
    match ofText? name with
    | some alg => .ok alg
    | none => .error (.badValue .numeral)
  | other => .error .missingPart

/-- The identifiers asked for, none of them twice. -/
def resolveAll (specs : List Spec) : Except Error (List Int) := do
  let algs ← specs.mapM resolve
  checkUnique algs
  return algs

/-- Refuses requests of which two are the same as they stand. -/
def checkDistinct (specs : List Spec) : Except Error Unit :=
  match firstRepeated [] specs with
  | none => .ok ()
  | some (id alg) => .error (.duplicateAlgorithm (.requested alg))
  | some _ => .error (.wrongKind .value)

/-- The requests of a document that holds one of them or a list. -/
def listOfJson : Json → Except Error (List Spec)
  | .int i => .ok [id i]
  | .bool b => .ok [id (if b then 1 else 0)]
  | .str s => .ok [text s]
  | j => do
    let items ← j.items
    return items.map ofJson

end Spec

end BootGuard.Algorithm
