/- The models of the subtype axioms have structural subtyping. -/

import TypeInference.Proofs.ClassEntries
import TypeInference.Proofs.SubtypeLaws

namespace TypeInference

section

variable {theory : Theory} {args : List Term}

namespace Term

mutual

/-- Whether no type variable occurs in a type. -/
def hasNoVariable : Term → Bool
  | con name args => !name.startsWith "tv" && haveNoVariable args
  | _ => true

def haveNoVariable : List Term → Bool
  | [] => true
  | arg :: args => hasNoVariable arg && haveNoVariable args

end

theorem haveNoVariable_iff : haveNoVariable args ↔ ∀ arg ∈ args, arg.hasNoVariable := by
  induction args with
  | nil => simp [haveNoVariable]
  | cons arg args ih => simp [haveNoVariable, ih]

theorem hasNoVariable_con_iff {name : String} :
    (con name args).hasNoVariable ↔
      ¬ "tv".toList <+: name.toList ∧ ∀ arg ∈ args, arg.hasNoVariable := by
  rw [hasNoVariable, Bool.and_eq_true, haveNoVariable_iff, Bool.not_eq_true',
    ← String.startsWith_string_iff, Bool.not_eq_true]

end Term

namespace Theory

/-- A type in which no type variable occurs. -/
structure IsGround (theory : Theory) (t : Term) : Prop where
  type : theory.sort.IsType t
  noVariable : t.hasNoVariable = true

instance (theory : Theory) : DecidablePred theory.IsGround := fun t =>
  decidable_of_iff (theory.sort.IsType t ∧ t.hasNoVariable = true)
    ⟨fun both => ⟨both.1, both.2⟩, fun ground => ⟨ground.type, ground.noVariable⟩⟩

theorem IsGround.arg {name : String} {arg : Term} (ground : theory.IsGround (.con name args))
    (member : arg ∈ args) (type : theory.sort.IsType arg) : theory.IsGround arg :=
  ⟨type, (Term.hasNoVariable_con_iff.mp ground.noVariable).2 arg member⟩

theorem IsGround.cases (formed : theory.WellFormed)
    (rooted : ∀ key ∈ theory.survey.sortClasses, theory.IsClass key) {t : Term}
    (ground : theory.IsGround t) : theory.IsClassType t ∨ t.IsGeneric := by
  obtain ⟨name, args, rfl⟩ := ground.type.exists_con
  rcases formed.isType_cases ground.type with ⟨key, member, rfl, fit⟩ | ⟨id, -, is⟩ | generic
  · exact .inl ⟨key, args, rooted key member, fit, rfl⟩
  · obtain ⟨rfl, -⟩ := Term.con.inj is
    exact absurd (by simp) (Term.hasNoVariable_con_iff.mp ground.noVariable).1
  · exact .inr generic

end Theory

namespace Interpretation

variable {theory : Theory} {model : Interpretation theory}

/-- With the laws, subtyping of ground types is structural. -/
theorem SubtypeLaws.subtype_iff (laws : model.SubtypeLaws) (formed : theory.WellFormed)
    (rooted : ∀ key ∈ theory.survey.sortClasses, theory.IsClass key) {method s t : Term}
    (isMethod : theory.IsMethod method) (groundS : theory.IsGround s)
    (groundT : theory.IsGround t) :
    model.subtype method s t ↔
      StructuralSubtype theory.survey.allClasses theory.settings.noneBelowAll s t := by
  obtain ⟨bound, boundS, boundT⟩ : ∃ bound, sizeOf s < bound ∧ sizeOf t < bound :=
    ⟨sizeOf s + sizeOf t + 1, by omega, by omega⟩
  induction bound generalizing method s t with
  | zero => exact absurd boundS (Nat.not_lt_zero _)
  | succ bound ih =>
    by_cases generic : s.IsGeneric ∨ t.IsGeneric
    · rw [laws.generic groundS.type groundT.type isMethod generic]
      constructor
      · rintro rfl
        exact .intro (.refl s)
      · intro below
        exact formed.eq_of_generic (structuralSubtype_iff.mp below) generic
    · obtain ⟨notS, notT⟩ := not_or.mp generic
      obtain ⟨sub, own, isSub, -, rfl⟩ := (groundS.cases formed rooted).resolve_right notS
      obtain ⟨key, args, isClass, fit, rfl⟩ := (groundT.cases formed rooted).resolve_right notT
      have notVariable : ¬ ∃ id ∈ theory.typeVars, theory.InScope method id ∧
          Term.con sub.name own = .typeVar id ∧
          model.subtype method (model.upper (.typeVar id)) (.con key.name args) := by
        rintro ⟨id, -, -, is, -⟩
        exact formed.con_ne_typeVar isSub own id is
      rw [(laws.ofClass isClass).down groundS.type isMethod fit, or_iff_left notVariable,
        structuralSubtype_iff]
      have partS {name : String} {args : List Term} (is : Term.con sub.name own = .con name args)
          (arg : Term) (member : arg ∈ args) (type : theory.sort.IsType arg) :
          theory.IsGround arg ∧ sizeOf arg < bound := by
        rw [is] at groundS boundS
        exact ⟨groundS.arg member type, Term.sizeOf_arg_lt boundS member⟩
      have partT {name : String} {others : List Term}
          (is : Term.con key.name args = .con name others) (arg : Term) (member : arg ∈ others)
          (type : theory.sort.IsType arg) : theory.IsGround arg ∧ sizeOf arg < bound := by
        rw [is] at groundT boundT
        exact ⟨groundT.arg member type, Term.sizeOf_arg_lt boundT member⟩
      refine formed.step_congr groundS.type groundT.type partS partT ?_
      rintro a b ⟨groundA, smallA⟩ ⟨groundB, smallB⟩
      exact ih theory.isMethod_noMethod groundA groundB smallA smallB

/-- Structural subtyping keeps the laws without variables. -/
theorem subtypeLaws_of_structural (formed : theory.WellFormed) (noVariables : theory.typeVars = [])
    (structural : ∀ {method s t}, theory.IsMethod method → theory.sort.IsType s →
      theory.sort.IsType t → (model.subtype method s t ↔
        StructuralSubtype theory.survey.allClasses theory.settings.noneBelowAll s t)) :
    model.SubtypeLaws := by
  have step {method s t : Term} (isMethod : theory.IsMethod method) (typeS : theory.sort.IsType s)
      (typeT : theory.sort.IsType t) : model.subtype method s t ↔ model.Step s t := by
    rw [structural isMethod typeS typeT, structuralSubtype_iff]
    refine formed.step_congr typeS typeT (fun _ _ _ type => type) (fun _ _ _ type => type) ?_
    intro a b typeA typeB
    exact (structural theory.isMethod_noMethod typeA typeB).symm
  refine ⟨fun {key} isClass => ⟨?_, ?_⟩, ?_, ?_⟩
  · intro _ t method args type isMethod fit
    exact step isMethod (formed.isType_con isClass fit) type
  · intro s method args type isMethod fit
    rw [step isMethod type (formed.isType_con isClass fit), noVariables]
    simp
  · intro id isVar
    simp [noVariables] at isVar
  · intro s t method typeS typeT isMethod generic
    rw [structural isMethod typeS typeT]
    constructor
    · intro below
      exact formed.eq_of_generic (structuralSubtype_iff.mp below) generic
    · rintro rfl
      exact .intro (.refl s)

end Interpretation

namespace Theory

variable {axioms : List Formula} {settings : Settings} {survey : Survey}

/-- Without type variables, structural subtyping is a model. -/
theorem exists_structural_model (complete : survey.IsComplete)
    (built : ofSurvey settings survey = .ok theory) (stated : theory.subtypeAxioms = .ok axioms)
    (datatype : theory.sort.IsDatatype) (noVariables : theory.typeVars = []) :
    ∃ model : Interpretation theory, model.Satisfies axioms ∧ ∀ method s t,
      model.subtype method s t ↔
        StructuralSubtype survey.allClasses settings.noneBelowAll s t := by
  have formed := ofSurvey_wellFormed complete built
  obtain ⟨isSettings, isSurvey, -⟩ := ofSurvey_eq_ok built
  let model := Interpretation.ofRelation formed datatype
    (fun _ => StructuralSubtype survey.allClasses settings.noneBelowAll) id id
  have laws : model.SubtypeLaws := by
    refine Interpretation.subtypeLaws_of_structural formed noVariables ?_
    intro method s t _ _ _
    rw [isSettings, isSurvey]
    rfl
  exact ⟨model, (satisfies_iff_subtypeLaws stated formed).mpr laws, fun _ _ _ => Iff.rfl⟩

/-- A program with a class and one derived from it. -/
def derivedClass : Survey :=
  Survey.completeClasses (Survey.addParams
    { classBases := ⟨[(.plain "Base", ["object"]), (.plain "Derived", ["Base"])]⟩ })

theorem derivedClass_isComplete : derivedClass.IsComplete := ⟨_, by decide, rfl⟩

/-- A function that gives a class of the program. -/
def supplier (defaults : Int) (className : String) : Term :=
  .con "func_0" [.num defaults, .con ("class_" ++ className) []]

theorem exists_derivedClass : ∃ theory axioms, ofSurvey {} derivedClass = .ok theory ∧
    theory.subtypeAxioms = .ok axioms ∧ theory.sort.IsDatatype ∧ theory.typeVars = [] ∧
    ∀ t ∈ [supplier 0 "Derived", supplier 0 "Base", supplier 1 "Base"], theory.IsGround t := by
  simp only [exists_and_left]
  decide +kernel

/-- In a model, subtyping between types without type variables is structural. Without type
variables, each interpretation with structural subtyping is a model. -/
theorem subtype_iff_structuralSubtype (complete : survey.IsComplete)
    (built : ofSurvey settings survey = .ok theory) (stated : theory.subtypeAxioms = .ok axioms) :
    (∀ model : Interpretation theory, model.Satisfies axioms → ∀ {method s t},
      theory.IsMethod method → theory.IsGround s → theory.IsGround t →
      (model.subtype method s t ↔ StructuralSubtype survey.allClasses settings.noneBelowAll s t)) ∧
    (theory.typeVars = [] → ∀ model : Interpretation theory, (∀ {method s t},
      theory.IsMethod method → theory.sort.IsType s → theory.sort.IsType t →
      (model.subtype method s t ↔ StructuralSubtype survey.allClasses settings.noneBelowAll s t)) →
      model.Satisfies axioms) := by
  have formed := ofSurvey_wellFormed complete built
  have rooted := isClass_of_isComplete complete built
  obtain ⟨rfl, rfl, -⟩ := ofSurvey_eq_ok built
  constructor
  · intro model satisfied method s t isMethod groundS groundT
    have laws := (satisfies_iff_subtypeLaws stated formed).mp satisfied
    exact laws.subtype_iff formed rooted isMethod groundS groundT
  · intro noVariables model structural
    exact (satisfies_iff_subtypeLaws stated formed).mpr
      (Interpretation.subtypeLaws_of_structural formed noVariables structural)

/-- A function that gives a derived class is below its base's. -/
theorem supplier_derived_below_base : ∃ theory axioms, ofSurvey {} derivedClass = .ok theory ∧
    theory.subtypeAxioms = .ok axioms ∧ ∃ model : Interpretation theory,
      model.Satisfies axioms ∧
      model.subtype Term.noMethod (supplier 0 "Derived") (supplier 1 "Base") := by
  obtain ⟨theory, axioms, built, stated, datatype, noVariables, ground⟩ := exists_derivedClass
  obtain ⟨model, -, structural⟩ :=
    exists_structural_model derivedClass_isComplete built stated datatype noVariables
  obtain ⟨sound, complete⟩ := subtype_iff_structuralSubtype derivedClass_isComplete built stated
  have satisfied := complete noVariables model fun _ _ _ => structural _ _ _
  refine ⟨theory, axioms, built, stated, model, satisfied, ?_⟩
  rw [sound model satisfied theory.isMethod_noMethod (ground _ (by simp)) (ground _ (by simp))]
  have isBase : derivedClass.allClasses.IsBase (.plain "class_Derived") (.plain "class_Base") :=
    ⟨["class_Base"], "class_Base", by decide, by decide, rfl⟩
  have result : StructuralSubtype derivedClass.allClasses true (.con "class_Derived" [])
      (.con "class_Base" []) := .intro (.ancestor [] (.single isBase))
  exact .intro (.varies (.function 0 .nil result))

/-- In a model, subtyping orders the types without type variables, up to the numbers of default
values of functions. -/
theorem subtype_isOrder (complete : survey.IsComplete)
    (built : ofSurvey settings survey = .ok theory) (stated : theory.subtypeAxioms = .ok axioms)
    {model : Interpretation theory} (satisfied : model.Satisfies axioms) {method : Term}
    (isMethod : theory.IsMethod method) :
    (∀ {t}, theory.IsGround t → model.subtype method t t) ∧
    (∀ {s t u}, theory.IsGround s → theory.IsGround t → theory.IsGround u →
      model.subtype method s t → model.subtype method t u → model.subtype method s u) ∧
    ∀ {s t}, theory.IsGround s → theory.IsGround t →
      (model.subtype method s t ∧ model.subtype method t s ↔
        s.eraseDefaults = t.eraseDefaults) := by
  have formed := ofSurvey_wellFormed complete built
  have rooted := isClass_of_isComplete complete built
  have clear := unambiguous stated formed model.datatype
  have laws := (satisfies_iff_subtypeLaws stated formed).mp satisfied
  have structural {s t : Term} (groundS : theory.IsGround s) (groundT : theory.IsGround t) :=
    laws.subtype_iff formed rooted isMethod groundS groundT
  refine ⟨?_, ?_, ?_⟩
  · intro t ground
    exact (structural ground ground).mpr (.intro (.refl t))
  · intro s t u groundS groundT groundU first second
    rw [structural groundS groundU]
    exact clear.structural_trans groundS.type groundT.type groundU.type
      ((structural groundS groundT).mp first) ((structural groundT groundU).mp second)
  · intro s t groundS groundT
    rw [structural groundS groundT, structural groundT groundS]
    constructor
    · rintro ⟨first, second⟩
      exact clear.eraseDefaults_eq_of_structural groundS.type groundT.type first second
    · intro same
      exact ⟨clear.structural_of_eraseDefaults_eq groundS.type groundT.type same,
        clear.structural_of_eraseDefaults_eq groundT.type groundS.type same.symm⟩

/-- Functions that differ in default values are below each other. -/
theorem supplier_below_supplier : ∃ theory axioms, ofSurvey {} derivedClass = .ok theory ∧
    theory.subtypeAxioms = .ok axioms ∧ ∃ model : Interpretation theory,
      model.Satisfies axioms ∧
      model.subtype Term.noMethod (supplier 0 "Base") (supplier 1 "Base") ∧
      model.subtype Term.noMethod (supplier 1 "Base") (supplier 0 "Base") := by
  obtain ⟨theory, axioms, built, stated, datatype, noVariables, ground⟩ := exists_derivedClass
  obtain ⟨model, satisfied, -⟩ :=
    exists_structural_model derivedClass_isComplete built stated datatype noVariables
  obtain ⟨-, -, antisymmetric⟩ :=
    subtype_isOrder derivedClass_isComplete built stated satisfied theory.isMethod_noMethod
  exact ⟨theory, axioms, built, stated, model, satisfied,
    (antisymmetric (ground _ (by simp)) (ground _ (by simp))).mpr (by decide +kernel)⟩

end Theory

end

open List

variable {name sup sub : String} {key : ClassKey}

inductive Family where
  | root | number | sequence | own | other
deriving DecidableEq

namespace Family

def numbers : List String :=
  ["complex", "float", "int", "i64", "i32", "i16", "i8", "u64", "u32", "u16", "u8", "bool"]

/-- The sequences other than tuples of a length. -/
def sequences : List String := ["sequence", "str", "bytes", "tuple", "list"]

/-- The family of the types with a constructor. -/
def ofName (name : String) : Family :=
  if name = "object" then root
  else if name ∈ numbers then number
  else if name ∈ sequences ∨ name.startsWith "tuple_" = true then sequence
  else if name.startsWith "class_" = true then own
  else other

theorem ofName_eq_number_iff : ofName name = number ↔ name ∈ numbers := by
  unfold ofName
  split_ifs with isRoot
  · subst isRoot
    decide
  all_goals simp [*]

theorem ofName_tuple (length : String) : ofName ("tuple_" ++ length) = sequence := by
  have notRoot : "tuple_" ++ length ≠ "object" := append_ne (by decide) length
  have notNumber : "tuple_" ++ length ∉ numbers := by
    intro member
    have away : ∀ name ∈ numbers, ¬ "tuple_".toList <+: name.toList := by decide
    exact append_ne (away _ member) length rfl
  have starts : ("tuple_" ++ length).startsWith "tuple_" = true :=
    String.startsWith_string_iff.mpr (by simp)
  rw [ofName, if_neg notRoot, if_neg notNumber, if_pos (.inr starts)]

theorem ofName_own (name : String) : ofName ("class_" ++ name) = own := by
  have notRoot : "class_" ++ name ≠ "object" := append_ne (by decide) name
  have away : ∀ known ∈ numbers ++ sequences, ¬ "class_".toList <+: known.toList := by decide
  have notNumber : "class_" ++ name ∉ numbers := fun member =>
    append_ne (away _ (mem_append_left _ member)) name rfl
  have notSequence : "class_" ++ name ∉ sequences := fun member =>
    append_ne (away _ (mem_append_right _ member)) name rfl
  have notTuple : ¬ ("class_" ++ name).startsWith "tuple_" = true := by
    simp
  have starts : ("class_" ++ name).startsWith "class_" = true :=
    String.startsWith_string_iff.mpr (by simp)
  rw [ofName, if_neg notRoot, if_neg notNumber, if_neg (not_or.mpr ⟨notSequence, notTuple⟩),
    if_pos starts]

/-- The family of a type. -/
def ofType : Term → Family
  | .con name _ => ofName name
  | _ => other

end Family

namespace Survey.IsSortClass

/-- A class is derived from the root or its own family. -/
theorem family_base {bases : List String} (known : IsSortClass key bases) {base : String}
    (member : base ∈ bases) : base = "object" ∨ Family.ofName base = Family.ofName key.name := by
  cases known with
  | builtin listed =>
    have all : ∀ entry ∈ builtinClasses, ∀ base ∈ entry.2,
        base = "object" ∨ Family.ofName base = Family.ofName entry.1.name := by
      decide
    exact all _ listed base member
  | tuple length =>
    obtain rfl : base = "tuple" := mem_singleton.mp member
    rw [tupleClass_name, Family.ofName_tuple]
    exact .inr (by decide)
  | function args => exact .inl (mem_singleton.mp member)
  | own key others =>
    obtain ⟨name, -, rfl⟩ := mem_map.mp member
    split
    · next isRoot => exact .inl (beq_iff_eq.mp isRoot)
    · exact .inr (by rw [sortClass_name, Family.ofName_own, Family.ofName_own])

/-- The numbers are built-in classes without type parameters. -/
theorem eq_number {bases : List String} (known : IsSortClass key bases)
    (number : key.name ∈ Family.numbers) : (key, bases) ∈ builtinClasses := by
  have isNumber := Family.ofName_eq_number_iff.mpr number
  cases known with
  | builtin listed => exact listed
  | tuple length => simp [tupleClass_name, Family.ofName_tuple] at isNumber
  | function args =>
    have away : ∀ name ∈ Family.numbers, ¬ "func_".toList <+: name.toList := by decide
    exact absurd rfl (append_ne (away _ number) (toString args))
  | own key bases => simp [sortClass_name, Family.ofName_own] at isNumber

end Survey.IsSortClass

/-- The built-in classes reached over bases, to a depth. -/
def builtinsAbove : Nat → String → List String
  | 0, _ => []
  | depth + 1, name => name :: (builtinClasses.filter fun entry => entry.1 = .plain name).flatMap
      fun entry => entry.2.flatMap (builtinsAbove depth)

/-- Whether a number is below another, within eight steps. -/
def isNumberBelow (sub sup : String) : Bool := (builtinsAbove 8 sub).contains sup

/-- Above a built-in class is what it is derived from. -/
theorem ClassTable.ancestor_of_mem_builtinsAbove {table : ClassTable}
    (builtin : ∀ entry ∈ builtinClasses, entry ∈ table.entries) {depth : Nat}
    (member : sup ∈ builtinsAbove depth sub) :
    sub = sup ∨ table.HasProperAncestor (.plain sub) (.plain sup) := by
  induction depth generalizing sub with
  | zero => exact absurd member not_mem_nil
  | succ depth ih =>
    rcases mem_cons.mp member with rfl | later
    · exact .inl rfl
    · obtain ⟨entry, listed, inside⟩ := mem_flatMap.mp later
      obtain ⟨base, isBase, above⟩ := mem_flatMap.mp inside
      obtain ⟨known, is⟩ := mem_filter.mp listed
      have first : table.IsBase (.plain sub) (.plain base) :=
        ⟨entry.2, base, of_decide_eq_true is ▸ builtin entry known, isBase, rfl⟩
      rcases ih above with rfl | proper
      · exact .inr (.single first)
      · exact .inr (.head first proper)

namespace Theory.WellFormed

variable {theory : Theory} (formed : theory.WellFormed) {noneBelowAll : Bool}
include formed

/-- Over bases, a class stays in its family up to the root. -/
theorem family_ancestor (above : theory.survey.allClasses.HasProperAncestor key (.plain name)) :
    name = "object" ∨ Family.ofName name = Family.ofName key.name := by
  generalize isTop : ClassKey.plain name = top at above
  induction above generalizing name with
  | single isBase =>
    obtain ⟨bases, base, entry, member, is⟩ := isBase
    obtain rfl := ClassKey.plain.inj (isTop.trans is)
    exact (formed.kind entry).family_base member
  | @tail middle _ below isBase ih =>
    obtain ⟨bases, base, entry, member, is⟩ := isBase
    obtain rfl := ClassKey.plain.inj (isTop.trans is)
    obtain ⟨between, rfl⟩ := ClassTable.HasProperAncestor.eq_plain below
    rcases (formed.kind entry).family_base member with isRoot | same
    · exact .inl isRoot
    · rcases ih rfl with rfl | within
      · exact absurd (mem_map_of_mem entry) (nodup_cons.mp formed.distinct).1
      · exact .inr (same.trans within)

/-- A type but none is below the root and its family only. -/
theorem family_below {s : Term} {others : List Term}
    (below : StructuralSubtype theory.survey.allClasses noneBelowAll s (.con name others))
    (notNone : s ≠ Term.none) : name = "object" ∨ Family.ofType s = Family.ofName name := by
  generalize isTop : Term.con name others = top at below
  cases structuralSubtype_iff.mp below with
  | refl => exact .inr (isTop ▸ rfl)
  | none => exact absurd rfl notNone
  | ancestor args above =>
    obtain ⟨rfl, -⟩ := Term.con.inj isTop
    exact (formed.family_ancestor above).imp_right Eq.symm
  | varies each =>
    obtain ⟨rfl, -⟩ := Term.con.inj isTop
    exact .inr rfl

/-- Numbers take no type arguments. -/
theorem eq_atom_of_number {t : Term} (type : theory.sort.IsType t)
    (number : Family.ofType t = .number) : ∃ name ∈ Family.numbers, t = .atom name := by
  obtain ⟨name, args, rfl⟩ := type.exists_con
  have isNumber : name ∈ Family.numbers := Family.ofName_eq_number_iff.mp number
  refine ⟨name, isNumber, congrArg (Term.con name) ?_⟩
  rcases formed.isType_cases type with ⟨key, member, rfl, fit⟩ | ⟨id, -, is⟩ | generic
  · rcases mem_cons.mp member with rfl | listed
    · exact absurd isNumber (by decide)
    · obtain ⟨⟨key, bases⟩, entry, rfl⟩ := mem_map.mp listed
      have plain : ∀ entry ∈ builtinClasses, entry.1.name ∈ Family.numbers →
          entry.1.accessors = [] := by decide
      rw [plain _ ((formed.kind entry).eq_number isNumber) isNumber] at fit
      exact length_eq_zero_iff.mp fit.length_eq.symm
  · exact (Term.con.inj is).2
  · have away : ∀ name ∈ TypeSort.genericConstructors.map (·.1), name ∉ Family.numbers := by
      decide
    exact absurd isNumber (away name generic)

theorem isNumberBelow_of_ancestor
    (above : theory.survey.allClasses.HasProperAncestor key (.plain sup))
    (sub : key.name ∈ Family.numbers) (isSup : sup ∈ Family.numbers) :
    isNumberBelow key.name sup := by
  have step : ∀ entry ∈ builtinClasses, entry.1.name ∈ Family.numbers → ∀ base ∈ entry.2,
      ∀ sup ∈ Family.numbers, base = sup ∨ isNumberBelow base sup = true →
      isNumberBelow entry.1.name sup = true := by decide
  -- The induction is from the class upwards, as only its bases are known to be numbers.
  induction above using Relation.TransGen.head_induction_on with
  | single isBase =>
    obtain ⟨bases, base, entry, member, is⟩ := isBase
    obtain rfl := ClassKey.plain.inj is
    exact step _ ((formed.kind entry).eq_number sub) sub _ member _ isSup (.inl rfl)
  | head isBase above ih =>
    obtain ⟨bases, base, entry, member, rfl⟩ := isBase
    have isNumber : base ∈ Family.numbers := by
      rcases formed.family_ancestor above with rfl | same
      · exact absurd isSup (by decide)
      · rw [← Family.ofName_eq_number_iff, ← Family.ofName_eq_number_iff.mpr isSup]
        exact same.symm
    exact step _ ((formed.kind entry).eq_number sub) sub _ member _ isSup (.inr (ih isNumber))

/-- Subtyping between numbers. -/
theorem numberBelow_iff
    (builtin : ∀ entry ∈ builtinClasses, entry ∈ theory.survey.allClasses.entries)
    (isSub : sub ∈ Family.numbers) (isSup : sup ∈ Family.numbers) :
    StructuralSubtype theory.survey.allClasses noneBelowAll (.atom sub) (.atom sup) ↔
      isNumberBelow sub sup := by
  have itself : ∀ name ∈ Family.numbers, isNumberBelow name name = true := by decide
  constructor
  · intro below
    generalize isLeft : Term.atom sub = left at below
    generalize isRight : Term.atom sup = right at below
    cases structuralSubtype_iff.mp below with
    | refl =>
      obtain ⟨rfl, -⟩ := Term.con.inj (isLeft.trans isRight.symm)
      exact itself _ isSub
    | none =>
      obtain ⟨rfl, -⟩ := Term.con.inj isLeft
      exact absurd isSub (by decide)
    | ancestor args above =>
      obtain ⟨rfl, -⟩ := Term.con.inj isLeft
      obtain ⟨rfl, -⟩ := Term.con.inj isRight
      exact formed.isNumberBelow_of_ancestor above isSub isSup
    | varies each =>
      obtain ⟨rfl, -⟩ := Term.con.inj isLeft
      obtain ⟨rfl, -⟩ := Term.con.inj isRight
      exact itself _ isSub
  · intro below
    rcases ClassTable.ancestor_of_mem_builtinsAbove builtin (contains_iff_mem.mp below) with
      rfl | above
    · exact .intro (.refl _)
    · exact .intro (.ancestor [] above)

end Theory.WellFormed

end TypeInference
