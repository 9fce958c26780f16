/- What holds of every theory that is made from a survey. -/

import Mathlib.Data.List.Induction
import TypeInference.Proofs.ClassGraph
import TypeInference.Proofs.Classes

namespace TypeInference

open List ClassGraph Table Survey

namespace Theory

variable {settings : Settings} {survey : Survey} {theory : Theory} {key : ClassKey}

/-- The methods that a type variable is in scope of. -/
def scope (theory : Theory) (id : String) : List String := (theory.methodsOf.get? id).getD []

/-- A class that is connected to the root of the class tree. -/
def IsClass (theory : Theory) (key : ClassKey) : Prop :=
  ∃ index ∈ theory.graph.reachable, theory.graph.key index = key

/-- What the parts of a theory have to do with each other. -/
structure WellFormed (theory : Theory) : Prop where
  tree : ClassGraph.ofTable theory.survey.allClasses = .ok theory.graph
  distinct : theory.survey.sortClasses.Nodup
  kind : ∀ {key bases}, (key, bases) ∈ theory.survey.allClasses.entries →
    Survey.IsSortClass key bases
  none : .plain "none" ∈ theory.survey.allClasses.keys
  declared : ∀ {entry}, entry ∈ theory.sort.declared ↔
    entry ∈ theory.survey.sortClasses.map constructorOf ∨
    entry ∈ theory.survey.typeVars.values.map (fun id => ("tv" ++ id, [])) ∨
    entry ∈ TypeSort.genericConstructors
  typeVars : ∀ {id}, id ∈ theory.typeVars → id ∈ theory.survey.typeVars.values
  scopes : ∀ {id name}, name ∈ theory.scope id → name ∈ theory.methodConstants

theorem ofSurvey_eq_ok (built : ofSurvey settings survey = .ok theory) :
    theory.settings = settings ∧ theory.survey = survey ∧
      theory.sort = TypeSort.ofSurvey survey ∧
      ClassGraph.ofTable survey.allClasses = .ok theory.graph ∧
      theory.typeVars = ((survey.funcParams.values ++ survey.classParams.values).flatten.map
        TypeParam.text).eraseDups ∧
      scopes survey = .ok theory.methodsOf := by
  obtain ⟨_, -, built⟩ := bind_ok built
  obtain ⟨_, -, built⟩ := bind_ok built
  obtain ⟨methods, -, built⟩ := bind_ok built
  obtain ⟨methodsOf, inScopes, built⟩ := bind_ok built
  obtain ⟨graph, tree, built⟩ := bind_ok built
  have is := pure_ok built
  subst is
  exact ⟨rfl, rfl, rfl, tree, rfl, inScopes⟩

theorem ofSurvey_methods (built : ofSurvey settings survey = .ok theory) :
    methodTable survey = .ok theory.methods := by
  obtain ⟨_, -, built⟩ := bind_ok built
  obtain ⟨_, -, built⟩ := bind_ok built
  obtain ⟨methods, isMethods, built⟩ := bind_ok built
  obtain ⟨methodsOf, -, built⟩ := bind_ok built
  obtain ⟨graph, -, built⟩ := bind_ok built
  exact pure_ok built ▸ isMethods

/-- Every type parameter is one of the type variables. -/
theorem mem_typeVars_addParams {param : TypeParam}
    (member : param ∈ (survey.classParams.values ++ survey.funcParams.values).flatten) :
    param.text ∈ survey.addParams.typeVars.values := by
  have gathered : ∀ (params : List TypeParam) (table : Table TypeVarKey String),
      param ∈ params ∨ table.get? ⟨none, param⟩ = some param.text →
      (params.foldl (fun table param => table.insert ⟨none, param⟩ param.text) table).get?
        ⟨none, param⟩ = some param.text := by
    intro params
    induction params with
    | nil => simp
    | cons head params ih =>
      intro table known
      apply ih
      by_cases same : head = param
      · rw [same]
        exact .inr (get?_insert_self ..)
      · refine known.imp (fun inside => ?_) (fun found => ?_)
        · exact (mem_cons.mp inside).resolve_left (Ne.symm same)
        · rw [get?_insert_of_ne]
          · exact found
          · intro equal
            exact same (TypeVarKey.mk.inj equal).2.symm
  have entry := mem_of_get? (gathered _ survey.typeVars (.inl member))
  exact mem_map_of_mem entry

theorem methodNames_eq_ok {className : String} {names : List String}
    (done : methodNames survey className = .ok names) : survey.methodsIn className = names := by
  unfold methodNames at done
  unfold methodsIn
  split at done
  · next methods found =>
    rw [found]
    exact Except.ok.inj done
  · simp at done

theorem get?_insertEach (params : List TypeParam) (names : List String)
    (table : Table String (List String)) (id : String) :
    (params.foldl (fun table param => table.insert param.text names) table).get? id =
      if (params.map TypeParam.text).contains id then some names else table.get? id := by
  induction params generalizing table with
  | nil => rfl
  | cons param params ih =>
    rw [foldl_cons, ih]
    by_cases same : id = param.text
    · simp [same, get?_insert_self]
    · simp [same, get?_insert_of_ne _ _ same]

/-- Each function takes its type variables from those before. -/
theorem get?_functionScopes (entries : List (String × List TypeParam)) (id : String) :
    (entries.foldl (fun (table : Table String (List String)) entry =>
      entry.2.foldl (fun table param => table.insert param.text [entry.1]) table) {}).get? id =
      (entries.filter fun entry => (entry.2.map TypeParam.text).contains id).getLast?.map
        fun entry => [entry.1] := by
  induction entries using List.reverseRecOn with
  | nil => rfl
  | append_singleton entries entry ih =>
    rw [foldl_concat, get?_insertEach, ih, filter_append, filter_singleton]
    cases (entry.2.map TypeParam.text).contains id with
    | true =>
      rw [cond_true, getLast?_concat]
      rfl
    | false =>
      rw [cond_false, append_nil]
      rfl

theorem mem_get?_insert {table : Table String (List String)} {id other method name : String} :
    name ∈ ((table.insert other ((table.get? other).getD [] ++ [method])).get? id).getD [] ↔
      name ∈ (table.get? id).getD [] ∨ id = other ∧ name = method := by
  by_cases same : id = other
  · simp [same, get?_insert_self]
  · simp [same, get?_insert_of_ne _ _ same]

/-- A variable is in scope of its last function and its classes. -/
theorem mem_scope_iff (built : ofSurvey settings survey = .ok theory) {id name : String} :
    name ∈ theory.scope id ↔ survey.lastFunction? id = some name ∨
      ∃ entry ∈ survey.classParams.entries,
        name ∈ survey.methodsIn entry.1 ∧ id ∈ entry.2.map TypeParam.text := by
  obtain ⟨-, -, -, -, -, inScopes⟩ := ofSurvey_eq_ok built
  let given (table : Table String (List String)) : Prop := name ∈ (table.get? id).getD []
  refine (foldlM_iff given (fun entry => name ∈ survey.methodsIn entry.1 ∧
    id ∈ entry.2.map TypeParam.text) inScopes ?_).trans (or_congr_left ?_)
  · rintro ⟨className, params⟩ before after done
    obtain ⟨methods, named, done⟩ := bind_ok done
    rw [← pure_ok done, methodNames_eq_ok named]
    refine (foldl_iff given (fun method => name = method ∧ id ∈ params.map TypeParam.text) ?_).trans
      (or_congr_right ?_)
    · intro method table
      refine (foldl_iff given (fun param => id = param.text ∧ name = method) ?_).trans
        (or_congr_right ?_)
      · exact fun param table => mem_get?_insert
      · constructor
        · rintro ⟨param, member, rfl, rfl⟩
          exact ⟨rfl, mem_map_of_mem member⟩
        · rintro ⟨rfl, inside⟩
          obtain ⟨param, member, is⟩ := mem_map.mp inside
          exact ⟨param, member, is.symm, rfl⟩
    · simp
  · change name ∈
    ((survey.funcParams.entries.foldl (fun (table : Table String (List String)) entry =>
    entry.2.foldl (fun table param => table.insert param.text [entry.1]) table) {}).get? id).getD []
    ↔ _
    rw [get?_functionScopes, lastFunction?]
    cases (survey.funcParams.entries.filter _).getLast? with
    | none => simp
    | some entry => simp [eq_comm]

theorem ofSurvey_wellFormed (complete : survey.IsComplete)
    (built : ofSurvey settings survey = .ok theory) : theory.WellFormed := by
  obtain ⟨before, -, rfl⟩ := complete
  obtain ⟨-, isSurvey, isSort, tree, isTypeVars, inScopes⟩ := ofSurvey_eq_ok built
  refine ⟨?_, ?_, ?_, ?_, ?_, ?_, ?_⟩
  · rwa [isSurvey]
  · rw [isSurvey]
    exact nodup_sortClasses _
  · rw [isSurvey]
    exact isSortClass_of_mem
  · rw [isSurvey, allClasses_completeClasses, mem_keys_ofList]
    simp [builtinClasses]
  · rw [isSurvey, isSort]
    exact mem_declared_iff
  · intro id member
    rw [isTypeVars, mem_eraseDups] at member
    obtain ⟨param, listed, rfl⟩ := mem_map.mp member
    rw [isSurvey]
    refine mem_typeVars_addParams ?_
    rw [flatten_append, mem_append] at listed ⊢
    exact listed.symm
  · intro id name member
    rw [methodConstants, isSurvey]
    rcases (mem_scope_iff built).mp member with last | ⟨entry, listed, isMethod, -⟩
    · obtain ⟨params, listed, -⟩ := exists_of_lastFunction? last
      exact mem_cons_of_mem _ (mem_append_left _ (mem_map_of_mem listed))
    · exact mem_cons_of_mem _ (mem_append_right _
        (mem_flatMap.mpr ⟨_, mem_map_of_mem listed, isMethod⟩))

namespace WellFormed

variable {theory : Theory} (formed : theory.WellFormed) {index : Nat} {base : ClassKey}
include formed

theorem sound : Sound theory.survey.allClasses theory.graph := (ofTable_sound formed.tree).1

/-- The classes of the sort are those of the tree. -/
theorem mem_sortClasses_iff : key ∈ theory.survey.sortClasses ↔
    ∃ index < theory.graph.size, theory.graph.key index = key := by
  rw [← mem_keys_iff, (ofTable_sound formed.tree).2.mem_iff]
  rfl

theorem lt_size (reachable : index ∈ theory.graph.reachable) : index < theory.graph.size :=
  (formed.sound.mem_reachable_iff.mp reachable).1

theorem isClass_of_attached (inside : index < theory.graph.size)
    (attached : theory.graph.IsAttached index) : theory.IsClass (theory.graph.key index) :=
  ⟨index, formed.sound.mem_reachable_iff.mpr ⟨inside, attached⟩, rfl⟩

/-- A class with a base is attached, and so is the base. -/
theorem isClass_of_isBase (isBase : theory.survey.allClasses.IsBase key base) :
    theory.IsClass key ∧ theory.IsClass base := by
  obtain ⟨bases, name, entry, member, rfl⟩ := isBase
  obtain ⟨index, inside, rfl⟩ :=
    formed.mem_sortClasses_iff.mp (mem_cons_of_mem _ (mem_map_of_mem entry))
  obtain ⟨parent, listed, earlier, named⟩ :=
    (isBase_iff formed.tree formed.distinct inside).mp ⟨bases, name, entry, member, rfl⟩
  obtain ⟨others, placed⟩ := formed.sound.placed index (Nat.zero_lt_of_lt earlier) inside
  obtain ⟨_, -, -, -, attached⟩ := forall₂_exists_left placed.parents listed
  refine ⟨formed.isClass_of_attached inside (.inr (ne_nil_of_mem listed)), named ▸ ?_⟩
  exact formed.isClass_of_attached (Nat.lt_trans earlier inside) attached

theorem isClass_object : theory.IsClass (.plain "object") := by
  rw [← formed.sound.root.1]
  exact formed.isClass_of_attached formed.sound.positive (.inl rfl)

/-- The tree has its root and what is derived. -/
theorem isClass_iff : theory.IsClass key ↔
    key = .plain "object" ∨ ∃ base, theory.survey.allClasses.IsBase key base := by
  constructor
  · rintro ⟨index, reachable, rfl⟩
    obtain ⟨inside, rfl | some⟩ := formed.sound.mem_reachable_iff.mp reachable
    · exact .inl formed.sound.root.1
    · obtain ⟨parent, member⟩ := exists_mem_of_ne_nil _ some
      exact .inr ⟨_, (isBase_iff formed.tree formed.distinct inside).mpr
        ⟨parent, member, (formed.sound.parent_lt member).1, rfl⟩⟩
  · rintro (rfl | ⟨base, isBase⟩)
    · exact formed.isClass_object
    · exact (formed.isClass_of_isBase isBase).1

theorem isClass_none : theory.IsClass (.plain "none") := by
  obtain ⟨⟨key, bases⟩, entry, is⟩ := mem_map.mp formed.none
  have named (name : String) : key.name ≠ "class_" ++ name := by
    rw [show key = .plain "none" from is]
    exact (append_ne (by decide) name).symm
  obtain ⟨base, member⟩ := exists_mem_of_ne_nil _ ((formed.kind entry).bases_ne_nil named)
  refine formed.isClass_iff.mpr (.inr ⟨.plain base, bases, base, ?_, member, rfl⟩)
  exact is ▸ entry

theorem mem_sortClasses (isClass : theory.IsClass key) : key ∈ theory.survey.sortClasses := by
  obtain ⟨index, reachable, rfl⟩ := isClass
  exact formed.mem_sortClasses_iff.mpr ⟨index, formed.lt_size reachable, rfl⟩

theorem declared_of_isClass (isClass : theory.IsClass key) :
    (key.name, key.accessors) ∈ theory.sort.declared :=
  formed.declared.mpr (.inl (mem_map_of_mem (formed.mem_sortClasses isClass)))

/-- A class with arguments that fit is a type. -/
theorem isType_con (isClass : theory.IsClass key) {args : List Term}
    (fit : theory.sort.AreArguments key.accessors args) :
    theory.sort.IsType (.con key.name args) := by
  exact ⟨key.accessors, formed.declared_of_isClass isClass, fit⟩

theorem isClass_of_properAncestor (above : theory.survey.allClasses.HasProperAncestor key base) :
    theory.IsClass key ∧ theory.IsClass base := by
  obtain ⟨next, first, -⟩ := Relation.TransGen.head'_iff.mp above
  obtain ⟨before, -, last⟩ := Relation.TransGen.tail'_iff.mp above
  exact ⟨(formed.isClass_of_isBase first).1, (formed.isClass_of_isBase last).2⟩

/-- What a class is derived from stands earlier. -/
theorem exists_lt_of_properAncestor (inside : index < theory.graph.size)
    (above : theory.survey.allClasses.HasProperAncestor (theory.graph.key index) base) :
    ∃ other < index, theory.graph.key other = base := by
  have parentOf {index : Nat} (inside : index < theory.graph.size) {base : ClassKey}
      (isBase : theory.survey.allClasses.IsBase (theory.graph.key index) base) :
      ∃ other < index, theory.graph.key other = base := by
    obtain ⟨parent, -, earlier, is⟩ := (isBase_iff formed.tree formed.distinct inside).mp isBase
    exact ⟨parent, earlier, is⟩
  induction above with
  | single isBase => exact parentOf inside isBase
  | tail _ isBase ih =>
    obtain ⟨middle, earlier, rfl⟩ := ih
    obtain ⟨other, before, is⟩ := parentOf (Nat.lt_trans earlier inside) isBase
    exact ⟨other, Nat.lt_trans before earlier, is⟩

/-- No class is derived from itself. -/
theorem not_properAncestor_self (key : ClassKey) :
    ¬ theory.survey.allClasses.HasProperAncestor key key := by
  intro above
  obtain ⟨index, reachable, rfl⟩ := (formed.isClass_of_properAncestor above).1
  have inside := formed.lt_size reachable
  obtain ⟨other, earlier, same⟩ := formed.exists_lt_of_properAncestor inside above
  have equal := key_injective formed.tree formed.distinct (Nat.lt_trans earlier inside) inside same
  exact Nat.ne_of_lt earlier equal

/-- No class is derived from none. -/
theorem not_properAncestor_none (key : ClassKey) :
    ¬ theory.survey.allClasses.HasProperAncestor key (.plain "none") := by
  intro above
  obtain ⟨_, -, bases, name, entry, member, is⟩ := Relation.TransGen.tail'_iff.mp above
  have isNone : name = "none" := (ClassKey.plain.inj is).symm
  exact (formed.kind entry).none_not_mem (isNone ▸ member)

section

variable (member : key ∈ theory.survey.sortClasses)
include member

theorem isSortClass (notRoot : key ≠ .plain "object") : ∃ bases, Survey.IsSortClass key bases := by
  obtain ⟨⟨key, bases⟩, entry, rfl⟩ := mem_map.mp ((mem_cons.mp member).resolve_left notRoot)
  exact ⟨bases, formed.kind entry⟩

theorem name_ne_typeVar (id : String) : key.name ≠ "tv" ++ id := by
  rcases mem_cons.mp member with rfl | listed
  · exact (append_ne (by decide) id).symm
  · obtain ⟨entry, inside, rfl⟩ := mem_map.mp listed
    exact (formed.kind inside).name_ne_typeVar id

theorem name_ne_generic (count : String) : key.name ≠ "generic" ++ count := by
  rcases mem_cons.mp member with rfl | listed
  · exact (append_ne (by decide) count).symm
  · obtain ⟨entry, inside, rfl⟩ := mem_map.mp listed
    exact (formed.kind inside).name_ne_generic count

end

end WellFormed

/-- As each class names a base, each is attached. -/
theorem isClass_of_isComplete (complete : survey.IsComplete)
    (built : ofSurvey settings survey = .ok theory) :
    ∀ key ∈ theory.survey.sortClasses, theory.IsClass key := by
  intro key member
  have formed := ofSurvey_wellFormed complete built
  obtain ⟨before, derived, rfl⟩ := complete
  rcases mem_cons.mp member with rfl | listed
  · exact formed.isClass_object
  · obtain ⟨⟨key, bases⟩, entry, rfl⟩ := mem_map.mp listed
    have known := entry
    rw [(ofSurvey_eq_ok built).2.1] at known
    have some : bases ≠ [] := bases_ne_nil_of_mem derived known
    obtain ⟨base, inside⟩ := exists_mem_of_ne_nil bases some
    exact formed.isClass_iff.mpr (.inr ⟨.plain base, bases, base, entry, inside, rfl⟩)

/-- The theory of a program, with the default settings. -/
def ofBody (body : List Stmt) (funcParams : TypeParams) : Except Fault (Program × Theory) := do
  let program ← Program.read {} body none
  let survey ← ofProgram {} none program funcParams {}
  pure (program, ← ofSurvey {} survey)

theorem ofBody_eq_ok {body : List Stmt} {funcParams : TypeParams} {program : Program}
    (done : ofBody body funcParams = .ok (program, theory)) :
    Program.read {} body none = .ok program ∧
      ofProgram {} none program funcParams {} = .ok theory.survey ∧
      ofSurvey {} theory.survey = .ok theory := by
  obtain ⟨_, read, done⟩ := bind_ok done
  obtain ⟨_, surveyed, done⟩ := bind_ok done
  obtain ⟨_, built, done⟩ := bind_ok done
  obtain ⟨rfl, rfl⟩ := Prod.ext_iff.mp (pure_ok done)
  obtain ⟨-, rfl, -⟩ := ofSurvey_eq_ok built
  exact ⟨read, surveyed, built⟩

end Theory

variable {name : String}

/-- A property of values holds of what variables are bound to. -/
theorem Assignment.bind_property {property : String → Term → Prop} {vars : List Variable}
    {values : List Term} {assigned : Assignment}
    (each : Forall₂ (fun (v : Variable) value => property v.name value) vars values)
    (otherwise : property name (assigned name)) :
    property name (assigned.bind vars values name) := by
  induction each with
  | nil => exact otherwise
  | @cons v value vars values here _ ih =>
    by_cases same : name = v.name
    · rw [same, bind_self]
      exact here
    · rw [bind_of_ne same]
      exact ih

namespace TypeSort

variable {sort : TypeSort} {accessors : List String}

/-- What an accessor gives on other constructors. -/
def otherwise (accessor : String) : Term := if isCount accessor then .num 0 else .object

/-- The argument of a type that stands at an accessor. -/
def select (sort : TypeSort) (accessor : String) : Term → Term
  | .con name args => Assignment.bind (((sort.accessors? name).getD []).map fun own => ⟨own, .type⟩)
      args otherwise accessor
  | _ => otherwise accessor

theorem accessors?_eq (datatype : sort.IsDatatype) (known : (name, accessors) ∈ sort.declared) :
    sort.accessors? name = some accessors :=
  accessors?_eq_of_unique known fun entry listed => datatype.unique entry listed _ known

theorem select_con (datatype : sort.IsDatatype) (known : (name, accessors) ∈ sort.declared)
    {args : List Term} (fit : sort.AreArguments accessors args) :
    accessors.map (fun accessor => sort.select accessor (.con name args)) = args := by
  have named : (accessors.map fun own => (⟨own, .type⟩ : Variable)).map (·.name) = accessors := by
    simp [Function.comp_def]
  have distinct : ((accessors.map fun own => (⟨own, .type⟩ : Variable)).map (·.name)).Nodup := by
    rw [named]
    exact datatype.nodup _ known
  have values := Assignment.map_bind otherwise distinct ((length_map _).trans fit.length_eq)
  rw [map_map] at values
  simp only [select, accessors?_eq datatype known, Option.getD_some]
  exact values

theorem select_isArgument (datatype : sort.IsDatatype) (object : sort.IsType .object)
    {accessor : String} {t : Term} (type : sort.IsType t) :
    sort.IsArgument accessor (sort.select accessor t) := by
  have other : sort.IsArgument accessor (otherwise accessor) := by
    by_cases count : isCount accessor <;> simp [IsArgument, otherwise, count, object]
  obtain ⟨name, args, rfl⟩ := type.exists_con
  obtain ⟨accessors, known, fit⟩ := type
  rw [select, accessors?_eq datatype known]
  refine Assignment.bind_property ?_ other
  rw [forall₂_map_left_iff]
  exact areArguments_iff.mp fit

end TypeSort

/-- The interpretation with a given relation and bounds. -/
def Interpretation.ofRelation {theory : Theory} (formed : theory.WellFormed)
    (datatype : theory.sort.IsDatatype) (subtype : Term → Term → Term → Prop) (upper : Term → Term)
    (upper_isType : ∀ {var}, theory.sort.IsType var → theory.sort.IsType (upper var)) :
    Interpretation theory where
  datatype := datatype
  select := theory.sort.select
  select_isArgument _ type := TypeSort.select_isArgument datatype
    (formed.isType_con formed.isClass_object trivial) type
  select_con known fit := TypeSort.select_con datatype known fit
  subtype := subtype
  issubst _ _ _ _ := False
  subst whole _ _ := whole
  subst_isType whole _ _ := whole
  upper := upper
  upper_isType := upper_isType
  toInt _ _ := 0

end TypeInference
