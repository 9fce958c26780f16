/- The axioms of substitution. -/

import TypeInference.Theory.Basic

namespace TypeInference

namespace Theory

namespace SubstAxioms

def what : Variable := ⟨"what_12", .type⟩

def replacement : Variable := ⟨"by_13", .type⟩

/-- The type in which something is replaced. -/
def source : Variable := ⟨"in_14", .type⟩

def result : Variable := ⟨"is_15", .type⟩

/-- Components are replaced one by one. Counts stay. -/
def components (vars : List Variable) (others : List Term) (forwards : Bool) : List Formula :=
  List.zipWith (fun v other =>
    if v.sort == .int then .eq v.term other
    else if forwards then .issubst v.term what.term replacement.term other
    else .issubst other what.term replacement.term v.term) vars others

def forward (theory : Theory) (key : ClassKey) : Except Fault Formula := do
  let literal ← key.literal theory.sort
  let whole ← key.literalOf theory.sort result.term
  let others ← key.argumentsOf theory.sort result.term
  let atom := Atom.issubst literal what.term replacement.term result.term
  pure (.all (what :: replacement :: result :: key.vars)
    (.iff (.atom atom)
      (.or
        [.and [.eq result.term replacement.term, .eq literal what.term],
         .and (.distinct what.term literal :: .eq result.term whole
          :: components key.vars others true)]))
    (some (.atom atom)))

def backward (theory : Theory) (key : ClassKey) : Except Fault Formula := do
  let literal ← key.literal theory.sort
  let whole ← key.literalOf theory.sort source.term
  let others ← key.argumentsOf theory.sort source.term
  let atom := Atom.issubst source.term what.term replacement.term literal
  pure (.all (what :: replacement :: source :: key.vars)
    (.iff (.atom atom)
      (.or
        [.and [.eq replacement.term literal, .eq what.term source.term],
         .and (.distinct what.term source.term :: .eq source.term whole
          :: components key.vars others false)]))
    (some (.atom atom)))

def ofClass (theory : Theory) (index : Nat) : Except Fault (List Formula) := do
  let key := theory.graph.key index
  pure [← forward theory key, ← backward theory key]

/-- The function gives a type related by substitution. -/
def definition : Formula :=
  let term := Term.subst source.term what.term replacement.term
  .all [source, what, replacement] (.issubst source.term what.term replacement.term term)
    (some (.term term))

def genericVariables : List (List Variable × Variable) :=
  [([⟨"v1_16", .type⟩], ⟨"normal_func_17", .type⟩),
   ([⟨"v1_18", .type⟩, ⟨"v2_19", .type⟩], ⟨"normal_func_20", .type⟩),
   ([⟨"v1_21", .type⟩, ⟨"v2_22", .type⟩, ⟨"v3_23", .type⟩], ⟨"normal_func_24", .type⟩)]

/-- Nothing is replaced in a generic type. -/
def ofGeneric (vars : List Variable) (func : Variable) : Formula :=
  let literal := Term.con ("generic" ++ toString vars.length) (vars.map (·.term) ++ [func.term])
  let term := Term.subst literal what.term replacement.term
  .all (what :: replacement :: func :: vars) (.eq term literal) (some (.term term))

/-- A type variable is replaced or stays as it is. -/
def ofTypeVar (id : String) : List Formula :=
  let var := Term.typeVar id
  let forward := Atom.issubst var what.term replacement.term result.term
  let backward := Atom.issubst source.term what.term replacement.term var
  [.all [what, replacement, result]
    (.iff (.atom forward)
      (.or
        [.and [.eq var what.term, .eq replacement.term result.term],
         .and [.distinct var what.term, .eq var result.term]]))
    (some (.atom forward)),
   .all [what, replacement, source]
    (.iff (.atom backward)
      (.or
        [.and [.eq source.term what.term, .eq replacement.term var],
         .and [.distinct source.term what.term, .eq var source.term]]))
    (some (.atom backward))]

end SubstAxioms

open SubstAxioms in
def substAxioms (theory : Theory) : Except Fault (List Formula) := do
  let ofClasses ← theory.graph.reachable.flatMapM (ofClass theory)
  pure (ofClasses ++ [definition] ++ genericVariables.map (fun (vars, func) => ofGeneric vars func)
    ++ theory.typeVars.flatMap ofTypeVar)

end Theory

end TypeInference
