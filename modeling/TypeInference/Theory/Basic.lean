/- The theory of types of a program, without its axioms. -/

import TypeInference.Theory.Literal

namespace TypeInference

/-- The types, type variables and methods of a program. -/
structure Theory where
  settings : Settings
  survey : Survey
  sort : TypeSort
  graph : ClassGraph
  typeVars : List String
  /-- The methods, by function or by class and method. -/
  methods : Table String String
  methodsOf : Table String (List String)

namespace Theory

/-- A class cannot be generic in no type parameter. -/
def checkParams (params : TypeParams) : Except Fault Unit :=
  if params.values.any List.isEmpty then .error (.arityOutOfRange .typeParameters) else .ok ()

def methodNames (survey : Survey) (className : String) : Except Fault (List String) :=
  match survey.methods.get? className with
  | some methods => .ok methods.keys
  | none => .error .missingKey

def methodTable (survey : Survey) : Except Fault (Table String String) := do
  let ofFunctions := survey.funcParams.keys.map fun name => (name, name)
  let ofClasses ← survey.classParams.keys.flatMapM fun className => do
    pure ((← methodNames survey className).map fun method =>
      (className ++ "." ++ method, method))
  pure (.ofList (ofFunctions ++ ofClasses))

/-- A variable belongs to its last function and its classes. -/
def scopes (survey : Survey) : Except Fault (Table String (List String)) := do
  let ofFunctions := survey.funcParams.entries.foldl (fun (table : Table String (List String))
      (name, params) =>
    params.foldl (fun table param => table.insert param.text [name]) table) {}
  survey.classParams.entries.foldlM (fun table (className, params) => do
    let methods ← methodNames survey className
    pure (methods.foldl (fun table method =>
      params.foldl (fun (table : Table String (List String)) param =>
        table.insert param.text ((table.get? param.text).getD [] ++ [method])) table) table))
    ofFunctions

def ofSurvey (settings : Settings) (survey : Survey) : Except Fault Theory := do
  checkParams survey.classParams
  checkParams survey.funcParams
  let methods ← methodTable survey
  let methodsOf ← scopes survey
  let params := (survey.funcParams.values ++ survey.classParams.values).flatten
  pure
    { settings := settings
      survey := survey
      sort := TypeSort.ofSurvey survey
      graph := ← ClassGraph.ofTable survey.allClasses
      typeVars := (params.map TypeParam.text).eraseDups
      methods := methods
      methodsOf := methodsOf }

end Theory

def Formula.subtype (method sub sup : Term) : Formula := atom (.subtype method sub sup)

end TypeInference
