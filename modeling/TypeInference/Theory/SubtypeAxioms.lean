/- The axioms of the subtype relation. -/

import TypeInference.Theory.Basic

namespace TypeInference

namespace Theory

namespace SubtypeAxioms

def x : Variable := ⟨"x_1", .type⟩

def m : Variable := ⟨"m_2", .method⟩

/-- Tuples vary with their components, functions with their results and against their arguments. -/
def variance (key : ClassKey) (below : Term → Term → Formula) (own others : List Term) :
    List Formula :=
  if key.isTuple then
    List.zipWith below own others
  else
    let args := List.zipWith (fun own other => below other own) own.tail.dropLast
      others.tail.dropLast
    let results := List.zipWith below (own.drop (own.length - 1)) (others.drop (others.length - 1))
    args ++ results

variable (theory : Theory) (index : Nat)

/-- A type of the same class, with components that relate. -/
def sameClass (key : ClassKey) (upwards : Bool) : Except Fault (List Formula) := do
  if key.isTuple || key.isFunction then
    let others ← key.argumentsOf theory.sort x.term
    let whole ← key.applied theory.sort others
    let below (first second : Term) : Formula :=
      if upwards then .subtype Term.noMethod first second
      else .subtype Term.noMethod second first
    pure [.and (.eq x.term whole :: variance key below (key.vars.map (·.term)) others)]
  else pure []

def inScope (typeVar : String) : List Formula :=
  ((theory.methodsOf.get? typeVar).getD []).map fun name => .eq m.term (.method name)

/-- A class is below itself and the classes above it. -/
def upward : Except Fault Formula := do
  let key := theory.graph.key index
  let literal ← key.literal theory.sort
  let same ← sameClass theory key true
  let bases ← (theory.graph.above index).mapM fun base => do
    pure (Formula.eq x.term (← (theory.graph.key base).literal theory.sort))
  let atom := Atom.subtype m.term literal x.term
  pure (.all (x :: m :: key.vars) (.iff (.atom atom) (.or (same ++ bases)))
    (some (.atom atom)))

/-- A class is above itself, the classes below it, type variables bounded below it and, if so set,
none. -/
def downward : Except Fault Formula := do
  let key := theory.graph.key index
  let literal ← key.literal theory.sort
  let none := if theory.settings.noneBelowAll then [Formula.eq x.term Term.none] else []
  let same ← sameClass theory key false
  let subclasses ← (theory.graph.below index).mapM fun sub => do
    if sub == index then pure (Formula.eq x.term literal)
    else pure (.eq x.term (← (theory.graph.key sub).literalOf theory.sort x.term))
  let typeVars := theory.typeVars.map fun id => Formula.and
    [.or (inScope theory id), .eq x.term (.typeVar id),
     .subtype m.term (.upper (.typeVar id)) literal]
  let atom := Atom.subtype m.term x.term literal
  pure (.all (x :: m :: key.vars)
    (.iff (.atom atom) (.or (none ++ same ++ subclasses ++ typeVars))) (some (.atom atom)))

/-- If none is below all types, its own axiom contradicts that. -/
def ofClass : Except Fault (List Formula) := do
  let isNone := theory.graph.key index == .plain "none"
  let upwards ← if isNone && theory.settings.noneBelowAll then pure []
    else do pure [← upward theory index]
  pure (upwards ++ [← downward theory index])

/-- Below a type variable are itself, none, and what it bounds. -/
def ofTypeVar (id : String) : List Formula :=
  let scope := Formula.or (inScope theory id)
  let methods := (theory.methodsOf.get? id).getD []
  let others := (theory.typeVars.filter (· != id)).filterMap fun other =>
    let shared := ((theory.methodsOf.get? other).getD []).eraseDups.filter methods.contains
    if shared.isEmpty then none
    else some (Formula.and
      [.or (shared.map fun name => .eq m.term (.method name)), .eq x.term (.typeVar other),
       .eq (.upper (.typeVar other)) (.typeVar id)])
  let options := [Formula.and [scope, .eq x.term (.typeVar id)],
    .and [scope, .eq x.term Term.none]] ++ others
  let below := Atom.subtype m.term x.term (.typeVar id)
  let above := Atom.subtype m.term (.typeVar id) x.term
  [.all [x, m] (.iff (.atom below) (.or options)) (some (.atom below)),
   .all [x, m]
    (.iff (.atom above)
      (.and [scope, .or [.eq x.term (.typeVar id),
        .subtype m.term (.upper (.typeVar id)) x.term]]))
    (some (.atom above))]

/-- The variables of generic types with one to three variables. -/
def genericVariables : List (List Variable × Variable) :=
  [([⟨"v1_3", .type⟩], ⟨"normal_func_4", .type⟩),
   ([⟨"v1_5", .type⟩, ⟨"v2_6", .type⟩], ⟨"normal_func_7", .type⟩),
   ([⟨"v1_8", .type⟩, ⟨"v2_9", .type⟩, ⟨"v3_10", .type⟩], ⟨"normal_func_11", .type⟩)]

def genericLiteral (vars : List Variable) (func : Variable) : Term :=
  .con ("generic" ++ toString vars.length) (vars.map (·.term) ++ [func.term])

/-- A generic type is related to itself only. -/
def ofGeneric (vars : List Variable) (func : Variable) : List Formula :=
  let literal := genericLiteral vars func
  let above := Atom.subtype m.term literal x.term
  let below := Atom.subtype m.term x.term literal
  let bound := x :: m :: (vars ++ [func])
  [.all bound (.iff (.atom above) (.eq x.term literal)) (some (.atom above)),
   .all bound (.iff (.atom below) (.eq x.term literal)) (some (.atom below))]

end SubtypeAxioms

open SubtypeAxioms in
def subtypeAxioms (theory : Theory) : Except Fault (List Formula) := do
  let ofClasses ← theory.graph.reachable.flatMapM (ofClass theory)
  pure (ofClasses ++ theory.typeVars.flatMap (ofTypeVar theory)
    ++ genericVariables.flatMap fun (vars, func) => ofGeneric vars func)

end Theory

end TypeInference
