/-
  Named computations that depend on one another.

  `order` puts every node behind its dependencies: it goes through the nodes as they were
  added and enters the dependencies of a node before the node itself. The nodes that wait for
  their dependencies are calls inside one another, of which there may only be so many; a longer
  chain of them is refused.
-/
import BootGuard.Update

namespace BootGuard.Measure

/-- A node: its name, what it stands for, and the names of the nodes it depends on. -/
structure Node (α : Type) where
  name : String
  task : α
  deps : List String

/-- Nodes in the order in which they were added. -/
structure Graph (α : Type) where
  nodes : List (Node α) := []

namespace Graph

variable {α β : Type}

/-- The node of a given name. -/
def find? (g : Graph α) (name : String) : Option (Node α) :=
  g.nodes.find? fun n => n.name = name

def contains (g : Graph α) (name : String) : Bool := (g.find? name).isSome

/-- Adds a node under a new name. -/
def add (g : Graph α) (name : String) (task : α) (deps : List String) :
    Except Error (Graph α) :=
  if g.contains name then .error (.badValue (.duplicateNode name))
  else .ok { g with nodes := g.nodes ++ [⟨name, task, deps⟩] }

/-- The calls of a search that may stand inside one another. There is room for 1000 calls in all,
and those that wait for the search take some of it: the definitions below are for any depth, and
this one is what a few callers leave. -/
def recursionLimit : Nat := 990

/-- Puts nodes behind those in `done`, each behind its dependencies, where the nodes in
`entered` wait for theirs. A name is looked at one call deeper than the one that waits for it. -/
def visit (g : Graph α) : (depth : Nat) → (entered done names : List String) →
    Except Error (List String)
  | _, _, done, [] => .ok done
  | 0, _, _, _ :: _ => .error .tooDeep
  | depth + 1, entered, done, name :: rest =>
    if name ∈ done then visit g (depth + 1) entered done rest
    else if name ∈ entered then .error (.badValue (.dependencyCycle name))
    else
      match g.find? name with
      | none => .error (.badValue (.unknownDependency name))
      | some n =>
        match visit g depth (name :: entered) done n.deps with
        | .error e => .error e
        | .ok done' => visit g (depth + 1) entered (done' ++ [name]) rest
termination_by depth _ _ names => (depth, names.length)

/-- The names of the nodes, every one behind its dependencies, by a search that may go `depth`
calls deep. -/
def order (g : Graph α) (depth : Nat) : Except Error (List String) :=
  visit g depth [] [] (g.nodes.map (·.name))

/-- Runs the nodes of given names one after the other. -/
def runAll {σ : Type} (g : Graph α) (run : α → Update σ β) :
    List String → Update σ (List (String × β))
  | [] => pure []
  | name :: rest => do
    match g.find? name with
    | none => throw (.badValue (.unknownDependency name))
    | some n =>
      let result ← run n.task
      let results ← runAll g run rest
      return (name, result) :: results

/-- Runs all nodes in order, and gives their results in that order. -/
def walk {σ : Type} (g : Graph α) (depth : Nat) (run : α → Update σ β) :
    Update σ (List (String × β)) := do
  let names ← Update.ofExcept (g.order depth)
  runAll g run names

end Graph

end BootGuard.Measure
