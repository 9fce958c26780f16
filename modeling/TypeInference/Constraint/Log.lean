/- A log collects the constraints of a program and supplies fresh names. -/

import TypeInference.Theory.LimitAxioms
import TypeInference.Theory.SubstAxioms
import TypeInference.Theory.SubtypeAxioms

namespace TypeInference

/-- Formulas that have to hold, with a message if they cannot. -/
structure Assertion where
  message : String
  parts : List Formula
deriving Inhabited

/-- A formula that should hold, with a weight. -/
structure Preference where
  weight : Nat
  formula : Formula
deriving Inhabited

/-- The constraints so far. Assertions and fresh names are numbered. -/
structure Log where
  count : Nat := 0
  hard : Array Assertion := #[]
  soft : Array Preference := #[]
deriving Inhabited

namespace Log

def assert (log : Log) (message : String) (parts : List Formula) : Log :=
  { log with count := log.count + 1, hard := log.hard.push ⟨message, parts⟩ }

def prefer (log : Log) (weight : Nat) (formula : Formula) : Log :=
  { log with soft := log.soft.push ⟨weight, formula⟩ }

/-- The name that the next constant gets, with its number. -/
def nextName (log : Log) (stem : String) : String := stem ++ "_" ++ toString (log.count + 1)

/-- What the names of new constants may begin with, unlike attributes of classes. -/
def isStem (stem : String) : Bool := !"class_".toList.isPrefixOf stem.toList

def fresh (log : Log) (stem : String) (_ : isStem stem = true := by decide) : Term × Log :=
  (.const (log.nextName stem), { log with count := log.count + 1 })

end Log

structure Axioms where
  subtype : List Formula
  subst : List Formula
  limit : List Formula

namespace Axioms

/-- The fresh names that stand in the axioms. -/
def nameCount : Nat := 25

def ofTheory (theory : Theory) : Except Fault Axioms := do
  let subtype ← theory.subtypeAxioms
  let subst ← theory.substAxioms
  pure ⟨subtype, subst, Theory.limitAxioms⟩

/-- The log that starts with the axioms. -/
def log (axioms : Axioms) : Log :=
  let start := axioms.subtype.foldl (fun log formula => log.assert "Subtyping error" [formula])
    { count := nameCount : Log }
  (start.assert "Subst definition" axioms.subst).assert "Int limits" axioms.limit

end Axioms

end TypeInference
