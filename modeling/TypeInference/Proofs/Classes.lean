/- The classes and constructors of the type sort of a survey. -/

import TypeInference.Proofs.Interpretation
import TypeInference.Proofs.Table
import TypeInference.Proofs.Traversal

namespace TypeInference

open List ClassKey TypeSort

section

variable {name : String}

theorem append_ne {start other : String} (differs : ¬ start.toList <+: other.toList)
    (rest : String) : start ++ rest ≠ other := by
  rintro rfl
  exact differs (by simp)

/-- Texts joined by a mark that does not follow are told apart. -/
theorem append_cons_injective {α : Type} {mark : α} {first second left right : List α}
    (notLeft : mark ∉ left) (notRight : mark ∉ right)
    (same : first ++ mark :: left = second ++ mark :: right) : first = second ∧ left = right := by
  rcases append_eq_append_iff.mp same with ⟨more, rfl, is⟩ | ⟨more, rfl, is⟩
  all_goals
    cases more with
    | nil => simpa [eq_comm] using is
    | cons head more =>
      simp_all

theorem isDigit_of_mem_toString {n : Nat} {c : Char} (inside : c ∈ (toString n).toList) :
    c.isDigit := by
  refine Nat.isDigit_of_mem_toDigits (b := 10) (n := n) (by decide) (by decide) ?_
  simpa [Nat.repr] using inside

namespace TypeSort

/-- Counts are told from other arguments by the last letter. -/
theorem getLast?_of_isCount {accessor : String} (count : isCount accessor) :
    accessor.toList.getLast? = some 's' := by
  have suffix : "defaults_args".toList <:+ accessor.toList := by
    have ends : accessor.toSlice.endsWith "defaults_args" = true := count
    simpa using String.Slice.endsWith_string_iff.mp ends
  obtain ⟨front, is⟩ := suffix
  rw [← is, getLast?_append]
  rfl

theorem isCount_defaults (name : String) : isCount (name ++ "_defaults_args") := by
  have ends : (name ++ "_defaults_args").toSlice.endsWith "defaults_args" = true := by
    rw [String.Slice.endsWith_string_iff, String.copy_toSlice, String.toList_append]
    exact List.IsSuffix.trans (by decide) (List.suffix_append _ _)
  exact ends

theorem isCount_return (name : String) : isCount (name ++ "_return") = false := by
  rw [Bool.eq_false_iff]
  intro count
  have last := getLast?_of_isCount count
  simp at last

/-- Numbered arguments end with a digit, so none is a count. -/
theorem isCount_of_mem_argumentNames {accessor : String} {count : Nat}
    (member : accessor ∈ Survey.argumentNames name count) : isCount accessor = false := by
  obtain ⟨index, -, rfl⟩ := mem_map.mp member
  rw [Bool.eq_false_iff]
  intro count
  have last := getLast?_of_isCount count
  rw [String.toList_append, getLast?_append] at last
  cases written : (toString (index + 1)).toList.getLast? with
  | none =>
    simp at written
  | some c =>
    rw [written] at last
    have isLetter : c = 's' := Option.some.inj last
    have digit := isDigit_of_mem_toString (mem_of_getLast? written)
    rw [isLetter] at digit
    exact absurd digit (by decide)

end TypeSort

namespace ClassKey

theorem ofAccessors_name (name : String) (accessors : List String) :
    (ofAccessors name accessors).name = name := by
  cases accessors <;> rfl

theorem ofAccessors_accessors (name : String) (accessors : List String) :
    (ofAccessors name accessors).accessors = accessors := by
  cases accessors <;> rfl

variable {accessors : List String}

theorem isTuple_generic : (generic name accessors).isTuple ↔ "tuple".toList <+: name.toList :=
  String.startsWith_string_iff

theorem isFunction_generic : (generic name accessors).isFunction ↔ "func".toList <+: name.toList :=
  String.startsWith_string_iff

end ClassKey

namespace Survey

variable {survey : Survey} {key : ClassKey} {bases : List String} (length : Nat)

theorem tupleClass_name : (tupleClass length).1.name = "tuple_" ++ toString length :=
  ofAccessors_name _ _

theorem tupleClass_accessors :
    (tupleClass length).1.accessors = argumentNames ("tuple_" ++ toString length) length :=
  ofAccessors_accessors _ _

theorem functionClass_name (args : Nat) :
    (functionClass args).1.name = "func_" ++ toString args := rfl

theorem sortClass_name (key : ClassKey) (bases : List String) :
    (sortClass key bases).1.name = "class_" ++ key.name := by
  cases key <;> rfl

theorem sortClass_accessors (key : ClassKey) (bases : List String) :
    (sortClass key bases).1.accessors = key.accessors := by
  cases key <;> rfl

/-- The empty tuple is a class without type parameters. -/
theorem tupleClass_isTuple :
    (tupleClass length).1.isTuple ∨ (tupleClass length).1.accessors = [] := by
  have cases (accessors : List String) :
      (ofAccessors ("tuple_" ++ toString length) accessors).isTuple = true ∨
        (ofAccessors ("tuple_" ++ toString length) accessors).accessors = [] := by
    cases accessors with
    | nil => exact .inr rfl
    | cons accessor accessors => exact .inl (isTuple_generic.mpr (by simp))
  exact cases _

/-- The classes that a type sort can have, with their bases. -/
inductive IsSortClass : ClassKey → List String → Prop where
  | builtin {key : ClassKey} {bases : List String} (member : (key, bases) ∈ builtinClasses) :
      IsSortClass key bases
  | tuple (length : Nat) : IsSortClass (tupleClass length).1 (tupleClass length).2
  | function (args : Nat) : IsSortClass (functionClass args).1 (functionClass args).2
  | own (key : ClassKey) (bases : List String) :
      IsSortClass (sortClass key bases).1 (sortClass key bases).2

namespace IsSortClass

variable {key : ClassKey} {bases : List String} (known : IsSortClass key bases)

include known

/-- The first two letters tell type variables and generic types from classes. -/
theorem name_take : key.name.toList.take 2 ∉ [['t', 'v'], ['g', 'e']] := by
  cases known with
  | builtin member =>
    have away : ∀ entry ∈ builtinClasses,
        entry.1.name.toList.take 2 ∉ [['t', 'v'], ['g', 'e']] := by decide
    exact away _ member
  | tuple length => simp [tupleClass_name]
  | function args => simp [functionClass_name]
  | own key bases => simp [sortClass_name]

theorem name_ne_typeVar (id : String) : key.name ≠ "tv" ++ id := by
  intro same
  exact known.name_take (by simp [same])

theorem name_ne_generic (count : String) : key.name ≠ "generic" ++ count := by
  intro same
  exact known.name_take (by simp [same])

/-- Only the class of all tuples and tuples are called so. -/
theorem eq_tuple (starts : "tuple".toList <+: key.name.toList) :
    key = .plain "tuple" ∨ ∃ length, key = (tupleClass length).1 := by
  cases known with
  | builtin member =>
    have only : ∀ entry ∈ builtinClasses, "tuple".toList <+: entry.1.name.toList →
        entry.1 = .plain "tuple" := by decide
    exact .inl (only _ member starts)
  | tuple length => exact .inr ⟨length, rfl⟩
  | function args => simp [functionClass_name] at starts
  | own key bases => simp [sortClass_name] at starts

/-- Only functions are called so. -/
theorem eq_function (starts : "func".toList <+: key.name.toList) :
    ∃ args, key = (functionClass args).1 := by
  cases known with
  | builtin member =>
    have away : ∀ entry ∈ builtinClasses, ¬ "func".toList <+: entry.1.name.toList := by decide
    exact absurd starts (away _ member)
  | tuple length => simp [tupleClass_name] at starts
  | function args => exact ⟨args, rfl⟩
  | own key bases => simp [sortClass_name] at starts

theorem eq_of_isTuple (tuple : key.isTuple) : ∃ length, key = (tupleClass length).1 := by
  cases key with
  | plain name => simp [isTuple] at tuple
  | generic name accessors =>
    exact (known.eq_tuple (isTuple_generic.mp tuple)).resolve_left (by simp)

theorem eq_of_isFunction (function : key.isFunction) : ∃ args, key = (functionClass args).1 := by
  cases key with
  | plain name => simp [isFunction] at function
  | generic name accessors => exact known.eq_function (isFunction_generic.mp function)

/-- Nothing is derived from none. -/
theorem none_not_mem : "none" ∉ bases := by
  cases known with
  | builtin member =>
    have away : ∀ entry ∈ builtinClasses, "none" ∉ entry.2 := by decide
    exact away _ member
  | tuple length => simp [tupleClass]
  | function args => simp [functionClass]
  | own key bases =>
    intro member
    obtain ⟨base, -, is⟩ := mem_map.mp member
    split at is
    · next isObject => simp [beq_iff_eq.mp isObject] at is
    · exact append_ne (by decide) base is

/-- All classes but those of the program have bases. -/
theorem bases_ne_nil (named : ∀ name, key.name ≠ "class_" ++ name) : bases ≠ [] := by
  cases known with
  | builtin member =>
    have derived : ∀ entry ∈ builtinClasses, entry.2 ≠ [] := by decide
    exact derived _ member
  | tuple length => simp [tupleClass]
  | function args => simp [functionClass]
  | own key bases => exact absurd (sortClass_name key bases) (named _)

end IsSortClass

/-- The classes of the type sort with its root. -/
def sortClasses (survey : Survey) : List ClassKey := .plain "object" :: survey.allClasses.keys

theorem allClasses_completeClasses (survey : Survey) : survey.completeClasses.allClasses = .ofList
    (builtinClasses ++ (List.range (survey.maxTupleLength + 1)).map tupleClass
      ++ (List.range (survey.maxFunctionArgs + 1)).map functionClass
      ++ (survey.classBases.entries.filter fun entry => !isAliasedType entry.1.name).map
        fun entry => sortClass entry.1 entry.2) := by
  rw [completeClasses]

theorem isSortClass_of_mem (entry : (key, bases) ∈ survey.completeClasses.allClasses.entries) :
    IsSortClass key bases := by
  have member := Table.mem_of_mem_ofList entry
  simp only [mem_append, mem_map] at member
  rcases member with ((builtin | ⟨length, -, is⟩) | ⟨args, -, is⟩) | ⟨⟨key, bases⟩, -, is⟩
  · exact .builtin builtin
  · obtain ⟨rfl, rfl⟩ := Prod.ext_iff.mp is
    exact .tuple length
  · obtain ⟨rfl, rfl⟩ := Prod.ext_iff.mp is
    exact .function args
  · obtain ⟨rfl, rfl⟩ := Prod.ext_iff.mp is
    exact .own key bases

/-- Every class of the program names a base. -/
def HasBases (survey : Survey) : Prop := ∀ bases ∈ survey.classBases.values, bases ≠ []

instance (survey : Survey) : Decidable survey.HasBases :=
  inferInstanceAs (Decidable (∀ bases ∈ survey.classBases.values, bases ≠ []))

theorem bases_ne_nil_of_mem (derived : survey.HasBases)
    (entry : (key, bases) ∈ survey.completeClasses.allClasses.entries) : bases ≠ [] := by
  have member := Table.mem_of_mem_ofList entry
  simp only [mem_append, mem_map] at member
  rcases member with ((builtin | ⟨length, -, is⟩) | ⟨args, -, is⟩) | ⟨⟨own, ownBases⟩, listed, is⟩
  · have derived : ∀ entry ∈ builtinClasses, entry.2 ≠ [] := by decide
    exact derived _ builtin
  · obtain ⟨-, rfl⟩ := Prod.ext_iff.mp is
    simp [tupleClass]
  · obtain ⟨-, rfl⟩ := Prod.ext_iff.mp is
    simp [functionClass]
  · have some : ownBases ≠ [] := derived ownBases (mem_map_of_mem (mem_of_mem_filter listed))
    obtain ⟨-, rfl⟩ := Prod.ext_iff.mp is
    simpa [sortClass] using some

theorem nodup_sortClasses (survey : Survey) : survey.completeClasses.sortClasses.Nodup := by
  have classes : survey.completeClasses.allClasses.keys.Nodup := by
    rw [allClasses_completeClasses]
    exact Table.nodup_keys_ofList _
  refine nodup_cons.mpr ⟨?_, classes⟩
  intro member
  obtain ⟨⟨key, bases⟩, entry, is⟩ := mem_map.mp member
  have named : key.name = "object" := congrArg name is
  cases isSortClass_of_mem entry with
  | builtin member =>
    have away : ∀ entry ∈ builtinClasses, entry.1.name ≠ "object" := by decide
    exact away _ member named
  | tuple length =>
    exact append_ne (by decide) _ ((tupleClass_name length).symm.trans named)
  | function args =>
    exact append_ne (by decide) _ ((functionClass_name args).symm.trans named)
  | own key bases =>
    exact append_ne (by decide) _ ((sortClass_name key bases).symm.trans named)

/-- The constructor of a class. -/
def constructorOf (key : ClassKey) : String × List String := (key.name, key.accessors)

theorem mem_sortClasses_iff :
    key ∈ survey.completeClasses.sortClasses ↔
      key ∈ plain "object" :: builtinClasses.map (·.1) ∨
      key ∈ (List.range (survey.maxTupleLength + 1)).map (fun length => (tupleClass length).1) ∨
      key ∈ (List.range (survey.maxFunctionArgs + 1)).map (fun args => (functionClass args).1) ∨
      key ∈ (survey.classBases.keys.filter fun own => !isAliasedType own.name).map
        fun own => (sortClass own []).1 := by
  have own : (survey.classBases.entries.filter fun entry => !isAliasedType entry.1.name).map
        (fun entry => (sortClass entry.1 entry.2).1) =
      (survey.classBases.keys.filter fun own => !isAliasedType own.name).map
        fun own => (sortClass own []).1 := by
    rw [Table.keys, filter_map, map_map]
    rfl
  rw [← own, sortClasses, mem_cons, allClasses_completeClasses, Table.mem_keys_ofList, mem_cons]
  simp only [map_append, mem_append, map_map, Function.comp_def, or_assoc]

/-- The constructors of classes, type variables and generic types. -/
theorem mem_declared_iff {entry : String × List String} :
    entry ∈ (ofSurvey survey.completeClasses).declared ↔
      entry ∈ survey.completeClasses.sortClasses.map constructorOf ∨
      entry ∈ survey.typeVars.values.map (fun id => ("tv" ++ id, [])) ∨
      entry ∈ genericConstructors := by
  have regroup (base fixedTypes containers tuples functions own vars generics : Prop) :
      (((base ∨ vars) ∨ generics) ∨ ((fixedTypes ∨ tuples) ∨ containers) ∨ functions) ∨ own ↔
        (((base ∨ fixedTypes) ∨ containers) ∨ tuples ∨ functions ∨ own) ∨ vars ∨ generics := by
    tauto
  have fixed : (baseConstructors ++ [("sequence", []), ("str", []), ("bytes", []),
      ("tuple", [])] ++ [("list", ["list_arg_0"]), ("set", ["set_arg_0"]),
      ("dict", ["dict_arg_0", "dict_arg_1"])]).Perm
      ((plain "object" :: builtinClasses.map Prod.fst).map constructorOf) := by
    decide
  have fixedIff := fixed.mem_iff (a := entry)
  have own : classConstructors survey.classBases =
      ((survey.classBases.keys.filter fun own => !isAliasedType own.name).map
        fun own => (sortClass own []).1).map constructorOf := by
    rw [map_map]
    refine map_congr_left fun key _ => ?_
    simp only [Function.comp_apply, constructorOf, sortClass_name, sortClass_accessors]
  have classes : entry ∈ survey.completeClasses.sortClasses.map constructorOf ↔
      entry ∈ (plain "object" :: builtinClasses.map (·.1)).map constructorOf ∨
      entry ∈ ((List.range (survey.maxTupleLength + 1)).map
        fun length => (tupleClass length).1).map constructorOf ∨
      entry ∈ ((List.range (survey.maxFunctionArgs + 1)).map
        fun args => (functionClass args).1).map constructorOf ∨
      entry ∈ classConstructors survey.classBases := by
    rw [own]
    simp only [mem_map (f := constructorOf), mem_sortClasses_iff, or_and_right, exists_or]
  rw [classes, ← fixedIff]
  have parts : (ofSurvey survey.completeClasses).declared =
      baseConstructors ++ survey.typeVars.values.map (fun id => ("tv" ++ id, []))
        ++ genericConstructors
        ++ containerConstructors survey.maxTupleLength survey.maxFunctionArgs
        ++ classConstructors survey.classBases := rfl
  rw [parts, containerConstructors]
  simp only [mem_append, map_map]
  exact regroup ..

end Survey

end

namespace Survey

variable {survey next : Survey} {settings : Settings}

/-- All type variables and classes are known, each class with a base. -/
def IsComplete (survey : Survey) : Prop :=
  ∃ before : Survey, before.HasBases ∧ survey = before.addParams.completeClasses

theorem IsComplete.bases_ne_nil (complete : survey.IsComplete) :
    ∀ entry ∈ survey.allClasses.entries, entry.2 ≠ [] := by
  obtain ⟨before, derived, rfl⟩ := complete
  exact fun entry member => bases_ne_nil_of_mem derived member

theorem IsComplete.nodup_sortClasses (complete : survey.IsComplete) : survey.sortClasses.Nodup := by
  obtain ⟨before, -, rfl⟩ := complete
  exact before.addParams.nodup_sortClasses

theorem HasBases.insert (before : survey.HasBases) (key : ClassKey) {bases : List String}
    (some : bases ≠ []) : ∀ others ∈ (survey.classBases.insert key bases).values, others ≠ [] := by
  intro others member
  obtain ⟨⟨other, others⟩, entry, rfl⟩ := mem_map.mp member
  rcases Table.mem_entries_insert entry with is | old
  · rw [(Prod.ext_iff.mp is).2]
    exact some
  · exact before others (mem_map_of_mem old)

/-- Bases that are classes are some of all bases. -/
theorem splitBases_nil {realBases genericBases : List Expr}
    (done : splitBases [] = .ok (realBases, genericBases)) : realBases = [] := by
  obtain ⟨marked, isMarked, is⟩ := bind_ok done
  obtain rfl := pure_ok isMarked
  exact (Prod.ext_iff.mp (pure_ok is)).1.symm

/-- The key of a class, given all type parameters. -/
def keyOf (params : TypeParams) (name : String) : ClassKey :=
  match params.get? name with
  | some listed => .generic name (listed.map (accessorName name))
  | none => .plain name

/-- What a survey has from the start, apart from type parameters. -/
structure Keeps (before after : Survey) : Prop where
  tuples : after.maxTupleLength = before.maxTupleLength
  functions : after.maxFunctionArgs = before.maxFunctionArgs
  names : after.usedNames = before.usedNames
  additions : after.additions = before.additions
  funcParams : after.funcParams = before.funcParams
  inheritance : after.inheritance = before.inheritance

theorem Keeps.trans {first second third : Survey} (left : Keeps first second)
    (right : Keeps second third) : Keeps first third :=
  ⟨right.tuples.trans left.tuples, right.functions.trans left.functions,
    right.names.trans left.names, right.additions.trans left.additions,
    right.funcParams.trans left.funcParams, right.inheritance.trans left.inheritance⟩

variable {c : ClassDef} {members : List Stmt} {classes : List ClassDef} {base : Option String}
  {program : Program}

/-- What is added for a class: bases, methods, attributes and type parameters. -/
theorem addClass_eq_ok (done : addClass settings survey c members = .ok next) :
    ∃ realBases genericBases bases found,
      splitBases c.bases = .ok (realBases, genericBases) ∧
      (realBases = [] ∧ bases = ["object"] ∨ realBases ≠ [] ∧ c.bases.mapM nameOf = .ok bases) ∧
      members.foldlM (Members.add settings) {} = .ok found ∧
      next.classBases = survey.classBases.insert (keyOf next.classParams c.name) bases ∧
      next.methods = survey.methods.insert c.name found.methods ∧
      next.instanceAttrs = survey.instanceAttrs.insert c.name (sortedNames found.instanceAttrs) ∧
      Keeps survey next ∧
      next.classAttrs = survey.classAttrs.insert c.name (sortedNames found.classAttrs) ∧
      (next.classParams = survey.classParams ∧ genericBases = [] ∨
        ∃ base rest params, genericBases = base :: rest ∧ listedParams base = .ok params ∧
          next.classParams = survey.classParams.insert c.name params) := by
  obtain ⟨⟨realBases, genericBases⟩, split, done⟩ := bind_ok done
  refine ⟨realBases, genericBases, ?_⟩
  dsimp only at done
  split at done
  on_goal 2 => obtain ⟨params, isListed, done⟩ := bind_ok done
  all_goals
    obtain ⟨classParams, isParams, done⟩ := bind_ok done
    obtain rfl := pure_ok isParams
    split at done
    · next none =>
      obtain ⟨bases, is, done⟩ := bind_ok done
      obtain ⟨found, isFound, rfl⟩ := map_ok done
      exact ⟨bases, found, split,
        .inl ⟨List.isEmpty_iff.mp none, (pure_ok is).symm⟩, isFound, rfl, rfl, rfl,
        ⟨rfl, rfl, rfl, rfl, rfl, rfl⟩, rfl, by simp [*]⟩
    · next real =>
      obtain ⟨bases, is, done⟩ := bind_ok done
      obtain ⟨found, isFound, rfl⟩ := map_ok done
      exact ⟨bases, found, split, .inr ⟨mt List.isEmpty_iff.mpr real, is⟩, isFound, rfl, rfl,
        rfl, ⟨rfl, rfl, rfl, rfl, rfl, rfl⟩, rfl, by simp [*]⟩

/-- A class without bases is derived from the root. -/
theorem addClass_hasBases (before : survey.HasBases)
    (done : addClass settings survey c members = .ok next) : next.HasBases := by
  obtain ⟨realBases, _, bases, _, split, derived, -, is, -⟩ := addClass_eq_ok done
  rw [HasBases, is]
  refine before.insert _ ?_
  rintro rfl
  rcases derived with ⟨-, root⟩ | ⟨real, found⟩
  · exact absurd root (cons_ne_nil _ _).symm
  · have none : c.bases = [] := forall₂_nil_right_iff.mp (mapM_eq_ok_iff.mp found)
    rw [none] at split
    exact real (splitBases_nil split)

theorem addClasses_keeps (done : survey.addClasses settings classes = .ok next) :
    ∃ inheritance, Inheritance.ofClasses classes = .ok inheritance ∧
      Keeps { survey with
        inheritance := inheritance, additions := addMembers inheritance classes } next := by
  obtain ⟨inheritance, inherited, done⟩ := bind_ok done
  refine ⟨inheritance, inherited,
    foldlM_invariant (Keeps _) done ⟨rfl, rfl, rfl, rfl, rfl, rfl⟩ ?_⟩
  intro c _ before after kept added
  obtain ⟨_, _, _, _, -, -, -, -, -, -, keeps, -⟩ := addClass_eq_ok added
  exact kept.trans keeps

theorem addClasses_hasBases (before : survey.HasBases)
    (done : survey.addClasses settings classes = .ok next) : next.HasBases := by
  obtain ⟨inheritance, -, done⟩ := bind_ok done
  exact foldlM_invariant HasBases done before fun c _ _ _ kept added => addClass_hasBases kept added

/-- Functions change nothing but their own type parameters. -/
theorem addFunctions_changes {libraries : List String} {nodes : List Node}
    (done : survey.addFunctions libraries nodes = .ok next) :
    next = { survey with funcParams := next.funcParams } := by
  refine foldlM_invariant (fun after => after = { survey with funcParams := after.funcParams }) done
    rfl ?_
  intro node _ before after kept added
  split at added
  · dsimp only at added
    split at added
    · exact pure_ok added ▸ kept
    · obtain ⟨ids, -, added⟩ := bind_ok added
      rw [kept] at added
      exact (pure_ok added).symm ▸ rfl
  · exact Except.ok.inj added ▸ kept

/-- Classes are added first, then type variables and functions. -/
theorem ofProgram_eq_ok {funcParams classParams : TypeParams}
    (done : ofProgram settings base program funcParams classParams = .ok survey) :
    ∃ selection withClasses typeVars params,
      Library.standard.selectAll (namesUsed program.nodes) = .ok selection ∧
      let nodes := program.nodes ++ declaredNodes Library.standard selection
      (measured base (namesUsed program.nodes) nodes funcParams classParams).addClasses settings
        (classDefs nodes) = .ok withClasses ∧
      withClasses.addTypeVars program.sources.libraries nodes =
        .ok { withClasses with typeVars := typeVars } ∧
      survey = { withClasses with
        typeVars := typeVars, funcParams := params }.addParams.completeClasses := by
  obtain ⟨selection, selected, done⟩ := bind_ok done
  obtain ⟨withClasses, isClasses, done⟩ := bind_ok done
  obtain ⟨withTypeVars, isTypeVars, done⟩ := bind_ok done
  obtain ⟨withFunctions, isFunctions, rfl⟩ := map_ok done
  obtain ⟨typeVars, -, rfl⟩ := map_ok isTypeVars
  refine ⟨selection, withClasses, typeVars, withFunctions.funcParams, selected, isClasses,
    isTypeVars, ?_⟩
  rw [addFunctions_changes isFunctions]

theorem ofProgram_isComplete {funcParams classParams : TypeParams}
    (done : ofProgram settings base program funcParams classParams = .ok survey) :
    survey.IsComplete := by
  obtain ⟨_, withClasses, typeVars, params, -, isClasses, -, is⟩ := ofProgram_eq_ok done
  have derived : withClasses.HasBases := by
    refine addClasses_hasBases ?_ isClasses
    intro bases member
    simp [measured, Table.values] at member
  exact ⟨{ withClasses with typeVars := typeVars, funcParams := params }, derived, is⟩

/-- The methods that a class was surveyed with. -/
def methodsIn (survey : Survey) (className : String) : List String :=
  ((survey.methods.get? className).map Table.keys).getD []

/-- The last generic function that has a type variable. -/
def lastFunction? (survey : Survey) (id : String) : Option String :=
  (survey.funcParams.entries.filter fun entry =>
    (entry.2.map TypeParam.text).contains id).getLast?.map (·.1)

theorem exists_of_lastFunction? {id name : String} (found : survey.lastFunction? id = some name) :
    ∃ params,
      (name, params) ∈ survey.funcParams.entries ∧ id ∈ params.map TypeParam.text := by
  obtain ⟨⟨name, params⟩, last, rfl⟩ := Option.map_eq_some_iff.mp found
  obtain ⟨listed, has⟩ := mem_filter.mp (mem_of_getLast? last)
  exact ⟨params, listed, contains_iff_mem.mp has⟩

end Survey

end TypeInference
