/- Names are looked up, bound and deleted in nested scopes. -/

import TypeInference.Scope.Basic

namespace TypeInference

abbrev Chain := List Scope

namespace Chain

/-- The type of a name. Functions do not see names of a class. -/
def findFrom (inFunction : Bool) : Chain → String → Option Meaning
  | [], _ => none
  | scope :: outer, name =>
    let inFunction := inFunction || scope.isFunction
    match scope.types.get? name with
    | some type =>
      if scope.isClass && inFunction then findFrom inFunction outer name else some type
    | none => findFrom inFunction outer name

def find? (chain : Chain) (name : String) : Option Meaning := findFrom false chain name

def find (chain : Chain) (name : String) : Except Fault Meaning :=
  match chain.find? name with
  | some type => .ok type
  | none => .error (.unboundName name)

/-- Whether a scope that is no class binds the name. -/
def binds (chain : Chain) (name : String) : Bool :=
  chain.any fun scope => scope.types.contains name && !scope.isClass

def delete : Chain → String → Except Fault Chain
  | [], name => .error (.unboundName name)
  | scope :: outer, name =>
    if scope.types.contains name then
      .ok ({ scope with types := scope.types.erase name } :: outer)
    else do pure (scope :: (← delete outer name))

def narrowing? (chain : Chain) (e : Expr) : Option Meaning :=
  chain.findSome? fun scope => scope.narrowing? e

def methodsNamed (chain : Chain) (name : String) : List Signature :=
  chain.flatMap fun scope => scope.methodsNamed name

end Chain

end TypeInference
