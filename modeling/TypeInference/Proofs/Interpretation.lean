/- The meaning of terms and formulas. -/

import Mathlib.Data.List.Forall2
import TypeInference.Theory.Basic

namespace TypeInference

open List

variable {name : String}

namespace TypeSort

variable {sort : TypeSort} {accessors : List String} {args : List Term}

mutual

/-- A declared constructor with an argument for each accessor. -/
def IsType (sort : TypeSort) : Term → Prop
  | .con name args =>
    ∃ accessors, (name, accessors) ∈ sort.declared ∧ sort.AreArguments accessors args
  | _ => False

/-- A count stands for a number, another accessor for a type. -/
def AreArguments (sort : TypeSort) : List String → List Term → Prop
  | [], [] => True
  | accessor :: accessors, arg :: args =>
    (if isCount accessor then ∃ value, arg = .num value else sort.IsType arg) ∧
      sort.AreArguments accessors args
  | _, _ => False

end

theorem IsType.exists_con {t : Term} (type : sort.IsType t) : ∃ name args, t = .con name args := by
  cases t with
  | con name args => exact ⟨name, args, rfl⟩
  | _ => simp [IsType] at type

/-- What an accessor can stand for. -/
def IsArgument (sort : TypeSort) (accessor : String) (arg : Term) : Prop :=
  if isCount accessor then ∃ value, arg = .num value else sort.IsType arg

theorem areArguments_iff :
    sort.AreArguments accessors args ↔ Forall₂ sort.IsArgument accessors args := by
  induction accessors generalizing args with
  | nil => cases args <;> simp [AreArguments]
  | cons accessor accessors ih => cases args <;> simp [AreArguments, IsArgument, ih]

theorem AreArguments.length_eq (fit : sort.AreArguments accessors args) :
    accessors.length = args.length :=
  (areArguments_iff.mp fit).length_eq

mutual

/-- Whether a term is a type. -/
def isType (sort : TypeSort) : Term → Bool
  | .con name args =>
    sort.declared.any fun entry => entry.1 == name && areArguments sort entry.2 args
  | _ => false

def areArguments (sort : TypeSort) : List String → List Term → Bool
  | [], [] => true
  | accessor :: accessors, arg :: args =>
    (if isCount accessor then (match arg with | .num _ => true | _ => false)
      else isType sort arg) && areArguments sort accessors args
  | _, _ => false

end

mutual

/-- Being a type is decided. -/
theorem isType_iff (sort : TypeSort) : (t : Term) → (sort.isType t ↔ sort.IsType t)
  | .con name args => by
    have fit (accessors : List String) := areArguments_eq_true_iff sort accessors args
    simp [isType, IsType, fit]
  | .const _ | .num _ | .method _ | .get .. | .subst .. | .upper _ | .toInt .. => by
    simp [isType, IsType]

theorem areArguments_eq_true_iff (sort : TypeSort) : (accessors : List String) →
    (args : List Term) → (sort.areArguments accessors args ↔ sort.AreArguments accessors args)
  | [], [] => by simp [areArguments, AreArguments]
  | accessor :: accessors, arg :: args => by
    have first := isType_iff sort arg
    have rest := areArguments_eq_true_iff sort accessors args
    cases count : isCount accessor with
    | false => simp [areArguments, AreArguments, count, first, rest]
    | true => cases arg <;> simp [areArguments, AreArguments, count, rest]
  | [], _ :: _ => by simp [areArguments, AreArguments]
  | _ :: _, [] => by simp [areArguments, AreArguments]

end

instance (sort : TypeSort) : DecidablePred sort.IsType := fun t =>
  decidable_of_iff (sort.isType t = true) (sort.isType_iff t)

/-- A name that is declared once is found. -/
theorem accessors?_eq_of_unique (known : (name, accessors) ∈ sort.declared)
    (unique : ∀ entry ∈ sort.declared, entry.1 = name → entry.2 = accessors) :
    sort.accessors? name = some accessors := by
  unfold accessors?
  cases found : sort.declared.reverse.find? fun entry => entry.1 == name with
  | none =>
    have absent := find?_eq_none.mp found (name, accessors) (mem_reverse.mpr known)
    simp at absent
  | some entry =>
    have listed := mem_reverse.mp (mem_of_find?_eq_some found)
    have named : entry.1 = name := by simpa using find?_some found
    rw [Option.map_some, unique entry listed named]

/-- The constructors generate a datatype freely. -/
structure IsDatatype (sort : TypeSort) : Prop where
  unique : ∀ first ∈ sort.declared, ∀ second ∈ sort.declared, first.1 = second.1 →
    first.2 = second.2
  nodup : ∀ entry ∈ sort.declared, entry.2.Nodup

instance (sort : TypeSort) : Decidable sort.IsDatatype :=
  decidable_of_iff
    ((∀ first ∈ sort.declared, ∀ second ∈ sort.declared, first.1 = second.1 → first.2 = second.2) ∧
      ∀ entry ∈ sort.declared, entry.2.Nodup)
    ⟨fun ⟨unique, nodup⟩ => ⟨unique, nodup⟩, fun ⟨unique, nodup⟩ => ⟨unique, nodup⟩⟩

/-- The arguments of a type fit its accessors. -/
theorem IsDatatype.arguments (datatype : sort.IsDatatype)
    (known : (name, accessors) ∈ sort.declared) :
    sort.IsType (.con name args) ↔ sort.AreArguments accessors args := by
  constructor
  · rintro ⟨others, declared, fit⟩
    have same : accessors = others := datatype.unique _ known _ declared rfl
    rwa [same]
  · intro fit
    exact ⟨accessors, known, fit⟩

end TypeSort

namespace Theory

variable (theory : Theory)

/-- The constants of the method sort: none, generic functions, and methods of generic classes. -/
def methodConstants : List String :=
  "none" :: (theory.survey.funcParams.keys ++
    theory.survey.classParams.keys.flatMap fun className =>
    ((theory.survey.methods.get? className).map Table.keys).getD [])

def IsMethod (t : Term) : Prop :=
  ∃ name ∈ theory.methodConstants, t = .method name

/-- The values that variables of a sort range over. -/
def HasSort : VarSort → Term → Prop
  | .type, t => theory.sort.IsType t
  | .int, t => ∃ value, t = .num value
  | .method, t => theory.IsMethod t

/-- A value of the sort of a variable. -/
abbrev Fits (v : Variable) (value : Term) : Prop := theory.HasSort v.sort value

theorem isMethod_noMethod : theory.IsMethod Term.noMethod :=
  ⟨"none", by simp [methodConstants], rfl⟩

end Theory

/-- The types are freely generated by the constructors of the sort. An accessor may give anything on
a type of another constructor. -/
structure Interpretation (theory : Theory) where
  datatype : theory.sort.IsDatatype
  select : String → Term → Term
  select_isArgument : ∀ {accessor t}, theory.sort.hasAccessor accessor = true →
    theory.sort.IsType t → theory.sort.IsArgument accessor (select accessor t)
  /-- The accessors of a constructor give back its arguments. -/
  select_con : ∀ {name accessors args}, (name, accessors) ∈ theory.sort.declared →
    theory.sort.AreArguments accessors args →
    accessors.map (fun accessor => select accessor (.con name args)) = args
  subtype : Term → Term → Term → Prop
  issubst : Term → Term → Term → Term → Prop
  subst : Term → Term → Term → Term
  subst_isType : ∀ {whole what replacement}, theory.sort.IsType whole → theory.sort.IsType what →
    theory.sort.IsType replacement → theory.sort.IsType (subst whole what replacement)
  upper : Term → Term
  upper_isType : ∀ {var}, theory.sort.IsType var → theory.sort.IsType (upper var)
  toInt : String → Term → Int

/-- The values of constants and variables. -/
abbrev Assignment := String → Term

/-- The variables get the values at their places. -/
def Assignment.bind : List Variable → List Term → Assignment → Assignment
  | v :: vars, value :: values, assigned => fun name =>
    if name = v.name then value else bind vars values assigned name
  | _, _, assigned => assigned

namespace Assignment

@[simp] theorem bind_self (v : Variable) (vars : List Variable) (value : Term) (values : List Term)
    (assigned : Assignment) : assigned.bind (v :: vars) (value :: values) v.name = value := by
  simp [bind]

theorem bind_of_ne {v : Variable} (different : name ≠ v.name) (vars : List Variable)
    (value : Term) (values : List Term) (assigned : Assignment) :
    assigned.bind (v :: vars) (value :: values) name = assigned.bind vars values name := by
  simp [bind, different]

/-- Distinct variables have the values they are bound to. -/
theorem map_bind {vars : List Variable} {values : List Term} (assigned : Assignment)
    (distinct : (vars.map (·.name)).Nodup) (same : vars.length = values.length) :
    vars.map (fun v => assigned.bind vars values v.name) = values := by
  induction vars generalizing values with
  | nil => exact (length_eq_zero_iff.mp same.symm).symm
  | cons v vars ih =>
    cases values with
    | nil => simp at same
    | cons value values =>
      obtain ⟨fresh, rest⟩ := nodup_cons.mp distinct
      have tail := ih rest (Nat.succ.inj same)
      rw [map_cons, bind_self]
      refine congrArg (value :: ·) (Eq.trans (map_congr_left ?_) tail)
      intro other member
      have away : other.name ≠ v.name := by
        intro equal
        exact fresh (mem_map.mpr ⟨other, member, equal⟩)
      exact bind_of_ne away vars value values assigned

end Assignment

namespace Interpretation

variable {theory : Theory} (model : Interpretation theory)
  {parts : List Formula} {assigned : Assignment}

mutual

def eval (assigned : Assignment) : Term → Term
  | .const name => assigned name
  | .num value => .num value
  | .method name => .method name
  | .con name args => .con name (evalList assigned args)
  | .get accessor whole => model.select accessor (eval assigned whole)
  | .subst whole what replacement =>
    model.subst (eval assigned whole) (eval assigned what) (eval assigned replacement)
  | .upper var => model.upper (eval assigned var)
  | .toInt width whole => .num (model.toInt width (eval assigned whole))

def evalList (assigned : Assignment) : List Term → List Term
  | [] => []
  | arg :: args => eval assigned arg :: evalList assigned args

end

def holdsAtom (assigned : Assignment) : Atom → Prop
  | .subtype method sub sup =>
    model.subtype (model.eval assigned method) (model.eval assigned sub) (model.eval assigned sup)
  | .issubst whole what replacement result =>
    model.issubst (model.eval assigned whole) (model.eval assigned what)
      (model.eval assigned replacement) (model.eval assigned result)
  | .isCon name t => ∃ args, model.eval assigned t = .con name args

mutual

/-- The truth of a formula, whatever triggers it. -/
def holds : Formula → Assignment → Prop
  | .truth value, _ => value = true
  | .atom value, assigned => model.holdsAtom assigned value
  | .eq left right, assigned => model.eval assigned left = model.eval assigned right
  | .distinct left right, assigned => model.eval assigned left ≠ model.eval assigned right
  | .less left right, assigned => ∃ first second, model.eval assigned left = .num first ∧
      model.eval assigned right = .num second ∧ first < second
  | .atLeast left right, assigned => ∃ first second, model.eval assigned left = .num first ∧
      model.eval assigned right = .num second ∧ second ≤ first
  | .not body, assigned => ¬ holds body assigned
  | .implies premise conclusion, assigned => holds premise assigned → holds conclusion assigned
  | .iff left right, assigned => holds left assigned ↔ holds right assigned
  | .and parts, assigned => holdsAll parts assigned
  | .or parts, assigned => holdsAny parts assigned
  | .all vars body _, assigned => ∀ values,
      Forall₂ theory.Fits vars values → holds body (assigned.bind vars values)

def holdsAll : List Formula → Assignment → Prop
  | [], _ => True
  | part :: parts, assigned => holds part assigned ∧ holdsAll parts assigned

def holdsAny : List Formula → Assignment → Prop
  | [], _ => False
  | part :: parts, assigned => holds part assigned ∨ holdsAny parts assigned

end

variable {model}

@[simp] theorem evalList_eq_map (assigned : Assignment) (args : List Term) :
    model.evalList assigned args = args.map (model.eval assigned) := by
  induction args with
  | nil => rfl
  | cons arg args ih => rw [evalList, ih, map_cons]

@[simp] theorem holdsAll_iff :
    model.holdsAll parts assigned ↔ ∀ part ∈ parts, model.holds part assigned := by
  induction parts with
  | nil => simp [holdsAll]
  | cons part parts ih => simp [holdsAll, ih]

@[simp] theorem holdsAny_iff :
    model.holdsAny parts assigned ↔ ∃ part ∈ parts, model.holds part assigned := by
  induction parts with
  | nil => simp [holdsAny]
  | cons part parts ih => simp [holdsAny, ih]

theorem holds_eq {left right : Term} :
    model.holds (.eq left right) assigned ↔
      model.eval assigned left = model.eval assigned right := by
  rw [holds]

/-- A subtype formula holds between values. -/
theorem holds_subtype {method sub sup : Term} :
    model.holds (.subtype method sub sup) assigned ↔ model.subtype (model.eval assigned method)
      (model.eval assigned sub) (model.eval assigned sup) := by
  rw [Formula.subtype, holds, holdsAtom]

theorem holds_iff {left right : Formula} :
    model.holds (.iff left right) assigned ↔
      (model.holds left assigned ↔ model.holds right assigned) := by
  rw [holds]

theorem holds_and :
    model.holds (.and parts) assigned ↔ ∀ part ∈ parts, model.holds part assigned := by
  rw [holds, holdsAll_iff]

theorem holds_or :
    model.holds (.or parts) assigned ↔ ∃ part ∈ parts, model.holds part assigned := by
  rw [holds, holdsAny_iff]

section

variable (assigned)

@[simp] theorem eval_con (name : String) (args : List Term) :
    model.eval assigned (.con name args) = .con name (args.map (model.eval assigned)) := by
  rw [eval, evalList_eq_map]

@[simp] theorem eval_typeVar (id : String) : model.eval assigned (.typeVar id) = .typeVar id :=
  eval_con assigned _ []

@[simp] theorem eval_none : model.eval assigned .none = .none :=
  eval_con assigned _ []

@[simp] theorem eval_upper (var : Term) :
    model.eval assigned (.upper var) = model.upper (model.eval assigned var) := by
  rw [eval]

@[simp] theorem eval_methodConstant (name : String) :
    model.eval assigned (.method name) = .method name := by
  rw [eval]

end

variable (model)

/-- All formulas hold, whatever constants are. -/
def Satisfies (formulas : List Formula) : Prop :=
  ∀ formula ∈ formulas, ∀ assigned, model.holds formula assigned

end Interpretation

end TypeInference
