/- Classes below their bases. Class tables know the classes by their keys. -/

import TypeInference.Fault
import TypeInference.Table

namespace TypeInference

/-- A class by its name. One with type parameters has an accessor for each of them, perhaps none. -/
inductive ClassKey where
  | plain (name : String)
  | generic (name : String) (accessors : List String)
deriving DecidableEq, Repr, Inhabited

namespace ClassKey

def name : ClassKey → String
  | plain name => name
  | generic name _ => name

def accessors : ClassKey → List String
  | plain _ => []
  | generic _ accessors => accessors

/-- A class with at least one accessor is generic. -/
def ofAccessors (name : String) : List String → ClassKey
  | [] => plain name
  | accessors => generic name accessors

end ClassKey

abbrev ClassTable := Table ClassKey (List String)

/-- A class in a graph, with the positions of its bases and of the classes that name it as one. -/
structure ClassNode where
  key : ClassKey
  parents : List Nat := []
  children : List Nat := []
deriving DecidableEq, Repr, Inhabited

/-- Classes in the order in which they were added, each after its bases. The first is the root. -/
structure ClassGraph where
  nodes : List ClassNode := [{ key := .plain "object" }]
deriving Repr

namespace ClassGraph

variable (graph : ClassGraph)

def size : Nat := graph.nodes.length

def node? (index : Nat) : Option ClassNode := graph.nodes[index]?

def key (graph : ClassGraph) (index : Nat) : ClassKey :=
  ((graph.node? index).map (·.key)).getD default

def parents (graph : ClassGraph) (index : Nat) : List Nat :=
  ((graph.node? index).map (·.parents)).getD []

def children (graph : ClassGraph) (index : Nat) : List Nat :=
  ((graph.node? index).map (·.children)).getD []

/-- Searches a class and then, one after the other, what is below its children. -/
def findFrom (graph : ClassGraph) (key : ClassKey) : Nat → Nat → Option Nat
  | 0, _ => none
  | depth + 1, index =>
    if graph.key index == key then some index
    else (graph.children index).findSome? (findFrom graph key depth)

/-- Searches from the root. Children stand behind their parents, so no way down is longer than the
graph. A class that was added without bases hangs in the air and is not found. -/
def find? (key : ClassKey) : Option Nat := graph.findFrom key graph.size 0

def contains (key : ClassKey) : Bool :=
  graph.nodes.any fun node => node.key == key

/-- Bases are named without accessors, so a class with type parameters is never found. -/
def hasBases (bases : List String) : Bool :=
  bases.all fun base => graph.contains (.plain base)

def attach (child : Nat) (nodes : List ClassNode) (parent : Nat) : List ClassNode :=
  nodes.modify parent fun node => { node with children := node.children ++ [child] }

def place (key : ClassKey) (parents : List Nat) : ClassGraph :=
  ⟨parents.foldl (attach graph.size) graph.nodes ++ [{ key := key, parents := parents }]⟩

def add (key : ClassKey) (bases : List String) : Except Fault ClassGraph := do
  let parents ← bases.mapM fun base =>
    match graph.find? (.plain base) with
    | some index => .ok index
    | none => .error .missingPart
  pure (graph.place key parents)

/-- Adds the classes whose bases are there, and returns the others. -/
def addReady : ClassGraph → List (ClassKey × List String) →
    Except Fault (ClassGraph × List (ClassKey × List String))
  | graph, [] => .ok (graph, [])
  | graph, (key, bases) :: rest =>
    if graph.hasBases bases then do addReady (← graph.add key bases) rest
    else do
      let (graph, waiting) ← addReady graph rest
      pure (graph, (key, bases) :: waiting)

/-- Goes through the waiting classes until none is left, or until a round adds no class. -/
def addRounds : Nat → ClassGraph → List (ClassKey × List String) → Except Fault ClassGraph
  | _, graph, [] => .ok graph
  | 0, _, _ :: _ => .error .endless
  | rounds + 1, graph, waiting => do
    let (graph, waiting) ← addReady graph waiting
    addRounds rounds graph waiting

/-- Every round but the last adds a class. -/
def ofTable (table : ClassTable) : Except Fault ClassGraph :=
  addRounds table.size {} table.entries

/-- A position and what is reached from it, once for each way that leads there. -/
def walk (next : Nat → List Nat) : Nat → Nat → List Nat
  | 0, _ => []
  | depth + 1, index => index :: (next index).flatMap (walk next depth)

/-- The class and all classes above it. -/
def above (index : Nat) : List Nat :=
  (walk graph.parents graph.size index).eraseDups

/-- The class and all classes below it. -/
def below (index : Nat) : List Nat :=
  (walk graph.children graph.size index).eraseDups

/-- All classes connected to the root. -/
def reachable : List Nat := graph.below 0

end ClassGraph

end TypeInference
