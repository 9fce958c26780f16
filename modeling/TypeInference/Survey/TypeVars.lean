/- Type variables and the functions that are generic in them. -/

import TypeInference.Survey.Basic

namespace TypeInference

namespace Survey

/-- The module of a place, unless it is not imported. -/
def liveHome (libraries : List String) : Option ModuleKey → Option ModuleKey
  | some (.library name) => if libraries.contains name then some (.library name) else none
  | home => home

variable (survey : Survey)

/-- The characters of the names of what is generic. -/
def takenMarks : List Char :=
  (survey.funcParams.keys ++ survey.classParams.keys).flatMap String.toList

/-- A type variable keeps its name unless that is a taken mark. -/
def typeVarId (name : String) : String :=
  match name.toList with
  | [mark] => if survey.takenMarks.contains mark then name ++ "0" else name
  | _ => name

def addTypeVars (libraries : List String) (nodes : List Node) : Except Fault Survey := do
  let typeVars ← nodes.foldlM (fun table node =>
    match node with
    | .stmt (.assign site targets value) =>
      if value.isTypeVarCall then
        match liveHome libraries site.home, targets with
        | none, _ => .ok table
        | some home, .name _ id _ :: _ =>
          .ok (table.insert ⟨some home, .named id⟩ (survey.typeVarId id))
        | some _, _ => .error .missingPart
      else .ok table
    | _ => .ok table) survey.typeVars
  pure { survey with typeVars := typeVars }

def localTypeVars (home : Option ModuleKey) : List String :=
  survey.typeVars.keys.filterMap fun
    | ⟨owner, .named name⟩ => if owner == home then some name else none
    | _ => none

/-- The type variables in the hints that are not of the class. -/
def genericNames (libraries : List String) (f : FunctionDef) : List String :=
  let owner := survey.owners.get? f.site.label
  let home := (liveHome libraries f.site.home).or (owner.bind fun o => liveHome libraries o.home)
  let known := survey.localTypeVars home
  let ofClass := match owner with
    | none => []
    | some o => o.bases.flatMap Expr.names
  let hints := f.params.args.filterMap (·.hint) ++ f.returns.toList
  let mentioned := hints.flatMap Expr.names
  mentioned.filter fun name => known.contains name && !ofClass.contains name

/-- The type variable that a function is generic in by itself. -/
def ownTypeVar (home : Option ModuleKey) (name : String) : Except Fault String :=
  match home with
  | none => .error .missingPart
  | some home =>
    match survey.typeVars.get? ⟨some home, .named name⟩ with
    | some id => .ok id
    | none => .error .missingKey

/-- Functions with type variables of their own become generic. -/
def addFunctions (libraries : List String) (nodes : List Node) : Except Fault Survey :=
  nodes.foldlM (fun survey node =>
    match node with
    | .stmt (.functionDef f) => do
      let names := survey.genericNames libraries f
      if names.isEmpty then pure survey
      else
        let ids ← names.eraseDups.mapM (survey.ownTypeVar (liveHome libraries f.site.home))
        let sorted := ids.mergeSort fun first second => !decide (second < first)
        pure { survey with funcParams := survey.funcParams.insert f.name (sorted.map .named) }
    | _ => .ok survey) survey

/-- Type parameters that were given belong to no module. -/
def addParams : Survey :=
  let params := survey.classParams.values ++ survey.funcParams.values
  let longest (table : TypeParams) := (table.values.map List.length).foldl max 0
  { survey with
    typeVars := params.flatten.foldl (fun table param =>
      table.insert ⟨none, param⟩ param.text) survey.typeVars
    maxTypeArgs := longest survey.funcParams + longest survey.classParams }

end Survey

end TypeInference
