/- The names that are free in an expression. -/

import TypeInference.Syntax.Basic

namespace TypeInference

open List

/-- A name that is read. -/
structure Read where
  name : String
  /-- Whether inference looks at the part with the read. -/
  inferred : Bool
deriving DecidableEq, Repr

/-- The names that expressions read and do not bind, and those that they assign. -/
structure Names where
  reads : List Read := []
  assigned : List String := []

namespace Names

/-- The names of expressions that stand side by side. -/
def append (first second : Names) : Names :=
  ⟨first.reads ++ second.reads, first.assigned ++ second.assigned⟩

instance : Append Names := ⟨append⟩

section

variable (names : Names)

/-- The names of expressions that inference leaves out. -/
def skipped : Names :=
  { names with reads := names.reads.map fun read => { read with inferred := false } }

/-- The names of expressions whose reads do not count. -/
def unread : Names := { names with reads := [] }

/-- The names of expressions around which others are bound. -/
def without (bound : List String) : Names :=
  { names with reads := names.reads.filter fun read => !bound.contains read.name }

/-- What a function assigns is bound in the function, too. -/
def inFunction (params : List String) : Names :=
  { names.without (params ++ names.assigned) with assigned := [] }

/-- The reads of names that are not assigned. -/
def free : List Read := (names.without names.assigned).reads

end

theorem inferred_of_mem_skipped {names : Names} {read : Read}
    (member : read ∈ names.skipped.reads) : read.inferred = false := by
  obtain ⟨_, -, rfl⟩ := mem_map.mp member
  rfl

theorem inFunction_subset (names : Names) (params : List String) :
    (names.inFunction params).reads ⊆ (names.without params).reads := by
  intro read member
  obtain ⟨isRead, kept⟩ := mem_filter.mp member
  exact mem_filter.mpr ⟨isRead, by simp_all⟩

theorem append_without (first second : Names) (bound : List String) :
    (first ++ second).without bound = first.without bound ++ second.without bound := by
  change without (append first second) bound = append (without first bound) (without second bound)
  simp only [append, without, filter_append]

theorem without_append (names : Names) (inner outer : List String) :
    names.without (inner ++ outer) = (names.without outer).without inner := by
  simp [without, filter_filter]

end Names

/-- The names of all parameters. -/
def Params.names (params : Params) : List String :=
  (params.positional ++ params.args ++ params.rest.toList ++ params.keywordOnly ++
    params.keywords.toList).map (·.name)

namespace Expr

mutual

/-- The names that a target binds. -/
def boundNames (target : Expr) : List String :=
  match target with
  | .name _ id _ => [id]
  | .tuple _ elements _ | .list _ elements _ => boundNamesEach elements
  | .starred _ value _ => boundNames value
  | _ => []
termination_by structural target

def boundNamesEach : List Expr → List String
  | [] => []
  | target :: targets => boundNames target ++ boundNamesEach targets

end

/-- The names that the generators of a comprehension bind. -/
def generatorNames (generators : List Generator) : List String :=
  generators.flatMap fun generator => generator.target.boundNames

/-- A read of a name. One name is always known. -/
def nameRead (id : String) : Usage → Names
  | .load => if id == "__name__" then {} else { reads := [⟨id, true⟩] }
  | _ => {}

theorem of_mem_nameRead {id : String} {usage : Usage} {read : Read}
    (member : read ∈ (nameRead id usage).reads) : id ≠ "__name__" ∧ read = ⟨id, true⟩ := by
  unfold nameRead at member
  split at member
  · split at member
    · cases member
    · next other => exact ⟨by simpa using other, mem_singleton.mp member⟩
  · cases member

mutual

/-- The names of an expression, without keywords of calls and types of casts. -/
def scan (e : Expr) : Names :=
  match e with
  | .name _ id usage => nameRead id usage
  | .literal .. | .yield _ none => {}
  | .tuple _ elements _ | .list _ elements _ | .set _ elements | .boolean _ _ elements =>
    scanEach elements
  | .dict _ keys values => scanOptions keys ++ scanEach values
  | .binary _ left _ right => scan left ++ scan right
  | .unary _ _ value | .access _ value _ _ | .await _ value | .yield _ (some value)
  | .yieldFrom _ value | .starred _ value _ => scan value
  | .conditional _ test body orelse => (scan test).skipped ++ (scan body ++ scan orelse)
  | .compare _ left ops rest => scan left ++ scanOperands ops rest
  | .call _ func args keywords =>
    let called := scan func
    let given := scanEach args
    (match func, args with
      | .name _ "cast" _, [hint, value] =>
        called.skipped ++ ((scan hint).unread ++ scan value)
      | _, _ => called ++ given) ++ (scanKeywords keywords).unread
  | .subscript _ value index _ => scan value ++ scan index
  | .slice _ lower upper step => scanOption lower ++ (scanOption upper ++ scanOption step)
  | .lambda _ ⟨positional, args, rest, keywordOnly, keywordDefaults, keywords, defaults⟩ body =>
    (scanEach defaults ++ scanOptions keywordDefaults).skipped ++
      (scan body).inFunction
        (Params.names ⟨positional, args, rest, keywordOnly, keywordDefaults, keywords, defaults⟩)
  | .comprehension _ _ element generators =>
    scanFirst generators ++
      (scanLocal generators ++ scan element).without (generatorNames generators)
  | .dictComprehension _ key value generators =>
    scanFirst generators ++
      (scanLocal generators ++ (scan key ++ scan value)).without (generatorNames generators)
  | .joined _ values => (scanEach values).skipped
  | .formatted _ value _ spec => (scan value ++ scanOption spec).skipped
  | .named _ target value => scan value ++ { assigned := boundNames target }
termination_by structural e

def scanEach : List Expr → Names
  | [] => {}
  | e :: es => scan e ++ scanEach es

def scanOption : Option Expr → Names
  | none => {}
  | some e => scan e

def scanOptions : List (Option Expr) → Names
  | [] => {}
  | none :: es => scanOptions es
  | some e :: es => scan e ++ scanOptions es

/-- The operands of comparisons with an operator. -/
def scanOperands : List CompareOperator → List Expr → Names
  | _, [] => {}
  | [], e :: es => (scan e).skipped ++ scanOperands [] es
  | _ :: ops, e :: es => scan e ++ scanOperands ops es

def scanKeywords : List Keyword → Names
  | [] => {}
  | ⟨_, _, value⟩ :: keywords => scan value ++ scanKeywords keywords

/-- The first generator runs outside of the comprehension. -/
def scanFirst : List Generator → Names
  | [] => {}
  | ⟨_, source, _, _⟩ :: _ => scan source

/-- All else in the generators. -/
def scanLocal : List Generator → Names
  | [] => {}
  | ⟨target, _, conditions, _⟩ :: generators =>
    scan target ++ ((scanEach conditions).skipped ++ scanNext generators)

/-- The generators after the first one. -/
def scanNext : List Generator → Names
  | [] => {}
  | ⟨target, source, conditions, _⟩ :: generators =>
    scan source ++ (scan target ++ ((scanEach conditions).skipped ++ scanNext generators))

end

/-- The reads of the free names of an expression. -/
def freeReads (e : Expr) : List Read := e.scan.free

def freeNames (e : Expr) : List String := e.freeReads.map (·.name)

end Expr

end TypeInference
