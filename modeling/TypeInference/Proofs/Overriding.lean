/- When a method of a class can stand for that of a base. -/

import TypeInference.Proofs.ConcreteModels
import TypeInference.Proofs.InferredClasses

namespace TypeInference

open List Interpretation Theory

variable {facts : ClassFacts}

/-- A class has a method with a receiver and some parameters. -/
def Theory.HasMethod (theory : Theory) (className method : String) (count : Nat) : Prop :=
  ∃ shape, theory.method? className method = some shape ∧ shape.isStatic = false ∧
    shape.args = count

namespace ClassFacts

/-- The class that a method comes from. -/
def provider (facts : ClassFacts) (method : String) : String :=
  (facts.inherited.get? method).getD facts.name

/-- A method is in the text of the class and still bound. -/
@[mk_iff]
structure Defines (facts : ClassFacts) (method : String) : Prop where
  own : facts.inherited.contains method = false
  bound : facts.bound.contains method = true

instance (facts : ClassFacts) (method : String) : Decidable (facts.Defines method) :=
  decidable_of_iff _ (facts.defines_iff method).symm

/-- What the definition of a class states about its methods. -/
inductive States (facts : ClassFacts) : Assertion → Prop where
  | inheritance (method origin : String) : facts.States (facts.inheritance method origin)
  | contravariance (method base : String) (baseArgs args index : Nat) :
      facts.States (facts.contravariance method base baseArgs args index)
  | covariance (method base : String) (baseArgs args : Nat) :
      facts.States (facts.covariance method base baseArgs args)

theorem Defines.provider_eq {method : String} (defines : facts.Defines method) :
    facts.provider method = facts.name := by
  have absent : facts.inherited.get? method = none := by
    rw [← Option.not_isSome_iff_eq_none, Table.isSome_get?, defines.own]
    exact Bool.false_ne_true
  rw [provider, absent, Option.getD_none]

theorem IsChecked.contains_method {theory : Theory} {log : Log}
    (checked : facts.IsChecked theory log) {method : String} {shape : MethodShape}
    (known : theory.method? facts.name method = some shape) :
    facts.methods.contains method := by
  rw [method?, checked.methods, Option.bind_some] at known
  rw [← Table.isSome_get?, known]
  rfl

end ClassFacts

namespace Session

/-- The classes that have been inferred. -/
def inferredClasses (session : Session) : List ClassFacts := session.classes.map (·.1)

/-- A class has compared its own method with that of a base. -/
structure Compares (session : Session) (theory : Theory) (method : String) (count : Nat)
    (owner base : ClassFacts) : Prop where
  isOwner : owner ∈ session.inferredClasses
  isInferred : base ∈ session.inferredClasses
  isBase : base.name ∈ owner.bases
  defines : owner.Defines method
  hasOwn : theory.HasMethod owner.name method count
  hasBase : theory.HasMethod base.name method count
  within : theory.IsMethod owner.method

/-- A method leads to that of another class: they come from one class, or the class that the first
one comes from has compared it with one that leads there. -/
inductive Leads (session : Session) (theory : Theory) (method : String) (count : Nat) :
    ClassFacts → ClassFacts → Prop where
  | same {first last : ClassFacts} (shared : first.provider method = last.provider method) :
      Leads session theory method count first last
  | compared {first owner base last : ClassFacts} (provides : first.provider method = owner.name)
      (compares : session.Compares theory method count owner base)
      (rest : Leads session theory method count base last) :
      Leads session theory method count first last

/-- The constraints of class definitions on methods hold. -/
def HoldsForMethods (session : Session) {theory : Theory} (model : Interpretation theory)
    (assigned : Assignment) : Prop :=
  ∀ facts ∈ session.inferredClasses, ∀ assertion ∈ session.log.hard, facts.States assertion →
    ∀ part ∈ assertion.parts, model.holds part assigned

end Session

namespace Interpretation

variable {theory : Theory} (model : Interpretation theory) (assigned : Assignment)

/-- The type of a parameter after the receiver. -/
def argType (className method : String) (count index : Nat) : Term :=
  model.eval assigned (.get (TypeSort.funcArg count (index + 2)) (.classAttr className method))

def resultType (className method : String) (count : Nat) : Term :=
  model.eval assigned (.get (TypeSort.funcResult count) (.classAttr className method))

/-- A method takes what another takes, and gives what it gives. -/
structure Substitutes (within : Term) (method : String) (count : Nat) (sub sup : String) :
    Prop where
  args : ∀ index, index + 1 < count → model.subtype within
    (model.argType assigned sup method count index) (model.argType assigned sub method count index)
  result : model.subtype within (model.resultType assigned sub method count)
    (model.resultType assigned sup method count)

/-- No type variable occurs in the types of a method. -/
structure HasGroundMethod (method : String) (count : Nat) (className : String) : Prop where
  args : ∀ index, index + 1 < count →
    theory.IsGround (model.argType assigned className method count index)
  result : theory.IsGround (model.resultType assigned className method count)

variable {model assigned} {method : String} {count : Nat} {within : Term}

/-- Methods of one type can stand for the same methods. -/
theorem Substitutes.congr {sub sup other another : String}
    (substitutes : model.Substitutes assigned within method count sub sup)
    (sameSub : model.eval assigned (.classAttr sub method) =
      model.eval assigned (.classAttr other method))
    (sameSup : model.eval assigned (.classAttr sup method) =
      model.eval assigned (.classAttr another method)) :
    model.Substitutes assigned within method count other another := by
  obtain ⟨args, result⟩ := substitutes
  simp only [argType, resultType, eval, sameSub, sameSup] at args result
  exact ⟨by simpa only [argType, eval] using args, by simpa only [resultType, eval] using result⟩

namespace SubtypeLaws

variable (laws : model.SubtypeLaws) (clear : theory.Unambiguous)
  (rooted : ∀ key ∈ theory.survey.sortClasses, theory.IsClass key)
  (isMethod : theory.IsMethod within)
include laws clear rooted isMethod

theorem substitutes_self {className : String}
    (ground : model.HasGroundMethod assigned method count className) :
    model.Substitutes assigned within method count className className := by
  have refl {t : Term} (ground : theory.IsGround t) : model.subtype within t t :=
    (laws.subtype_iff clear.toWellFormed rooted isMethod ground ground).mpr (.intro (.refl t))
  exact ⟨fun index inside => refl (ground.args index inside), refl ground.result⟩

/-- What can stand for a method elsewhere can do so here. -/
theorem substitutes_trans {first middle last : String} {other : Term}
    (isOther : theory.IsMethod other)
    (groundFirst : model.HasGroundMethod assigned method count first)
    (groundMiddle : model.HasGroundMethod assigned method count middle)
    (groundLast : model.HasGroundMethod assigned method count last)
    (left : model.Substitutes assigned other method count first middle)
    (right : model.Substitutes assigned within method count middle last) :
    model.Substitutes assigned within method count first last := by
  have structural {method s t : Term} (isMethod : theory.IsMethod method)
      (groundS : theory.IsGround s) (groundT : theory.IsGround t) :=
    laws.subtype_iff clear.toWellFormed rooted isMethod groundS groundT
  constructor
  · intro index inside
    have groundS := groundLast.args index inside
    have groundT := groundMiddle.args index inside
    have groundU := groundFirst.args index inside
    rw [structural isMethod groundS groundU]
    exact clear.structural_trans groundS.type groundT.type groundU.type
      ((structural isMethod groundS groundT).mp (right.args index inside))
      ((structural isOther groundT groundU).mp (left.args index inside))
  · rw [structural isMethod groundFirst.result groundLast.result]
    exact clear.structural_trans groundFirst.result.type groundMiddle.result.type
      groundLast.result.type
      ((structural isOther groundFirst.result groundMiddle.result).mp left.result)
      ((structural isMethod groundMiddle.result groundLast.result).mp right.result)

end SubtypeLaws

end Interpretation

namespace Session.Completes

variable {final : Session} {theory : Theory} {axioms : Axioms} {program : Program}
  (completes : final.Completes theory axioms program) {model : Interpretation theory}
  {assigned : Assignment} (holds : final.HoldsForMethods model assigned) {method : String}
  {count : Nat}
include completes

theorem isChecked (inferred : facts ∈ final.inferredClasses) :
    facts.IsChecked theory final.log := by
  obtain ⟨entry, member, rfl⟩ := mem_map.mp inferred
  exact completes.checked entry member

variable (listed : theory.survey.ListsMethods) (notInit : method ≠ "__init__")
include holds listed notInit

/-- A method has the type of the class it comes from. -/
theorem eval_provider (inferred : facts ∈ final.inferredClasses)
    (has : theory.HasMethod facts.name method count) :
    model.eval assigned (.classAttr facts.name method) =
      model.eval assigned (.classAttr (facts.provider method) method) := by
  have checked := completes.isChecked inferred
  unfold ClassFacts.provider
  cases inherited : facts.inherited.get? method with
  | none => rfl
  | some origin =>
    obtain ⟨shape, known, -⟩ := has
    have member := checked.members (hasInstanceAttr_of_method? listed known)
    have stated := member.inherited notInit (checked.contains_method known) inherited
    have same := holds facts inferred _ stated (.inheritance method origin) _ mem_cons_self
    exact holds_eq.mp same

/-- A class's own method can stand for those of its bases. -/
theorem substitutes_of_defines {base : String} (inferred : facts ∈ final.inferredClasses)
    (isBase : base ∈ facts.bases) (defines : facts.Defines method)
    (has : theory.HasMethod facts.name method count)
    (hasBase : theory.HasMethod base method count) :
    model.Substitutes assigned (model.eval assigned facts.method) method count facts.name base := by
  have checked := completes.isChecked inferred
  obtain ⟨shape, known, receives, rfl⟩ := has
  obtain ⟨baseShape, baseKnown, baseReceives, sameCount⟩ := hasBase
  have member := checked.members (hasInstanceAttr_of_method? listed known)
  have overrides := member.own notInit defines.own defines.bound base isBase (by simp [baseKnown])
  obtain ⟨args, result⟩ := overrides shape baseShape known baseKnown receives baseReceives
  rw [sameCount] at args result
  constructor
  · intro index inside
    have stated := holds facts inferred _ (args index inside)
      (.contravariance method base shape.args shape.args index) _ mem_cons_self
    exact holds_subtype.mp stated
  · have stated := holds facts inferred _ result
      (.covariance method base shape.args shape.args) _ mem_cons_self
    exact holds_subtype.mp stated

/-- A method can stand for those that it leads to. -/
theorem substitutes_of_leads (laws : model.SubtypeLaws) (clear : theory.Unambiguous)
    (rooted : ∀ key ∈ theory.survey.sortClasses, theory.IsClass key)
    {within : Term} (isMethod : theory.IsMethod within) {first last : ClassFacts}
    (leads : final.Leads theory method count first last)
    (ground : ∀ facts ∈ final.inferredClasses, final.Leads theory method count first facts →
      theory.HasMethod facts.name method count →
      model.HasGroundMethod assigned method count facts.name)
    (isFirst : first ∈ final.inferredClasses) (hasFirst : theory.HasMethod first.name method count)
    (isLast : last ∈ final.inferredClasses) (hasLast : theory.HasMethod last.name method count) :
    model.Substitutes assigned within method count first.name last.name := by
  have provided {facts : ClassFacts} (inferred : facts ∈ final.inferredClasses)
      (has : theory.HasMethod facts.name method count) :=
    completes.eval_provider holds listed notInit inferred has
  induction leads with
  | same shared =>
    have self := laws.substitutes_self clear rooted isMethod
      (ground _ isLast (.same shared) hasLast)
    refine self.congr ?_ rfl
    rw [provided isFirst hasFirst, provided isLast hasLast, shared]
  | @compared first owner base last provides compares rest ih =>
    have later {facts : ClassFacts} (leads : final.Leads theory method count base facts) :
        final.Leads theory method count first facts := .compared provides compares leads
    obtain ⟨isOwner, isBaseClass, isBase, defines, hasOwn, hasBase, isWithin⟩ := compares
    have toOwner : final.Leads theory method count first owner :=
      .same (provides.trans defines.provider_eq.symm)
    have step := completes.substitutes_of_defines holds listed notInit isOwner isBase defines
      hasOwn hasBase
    have isOther : theory.IsMethod (model.eval assigned owner.method) := by
      obtain ⟨name, known, is⟩ := isWithin
      rw [is]
      exact ⟨name, known, rfl⟩
    have fromOwner := laws.substitutes_trans clear rooted isMethod isOther
      (ground _ isOwner toOwner hasOwn) (ground _ isBaseClass (later (.same rfl)) hasBase)
      (ground _ isLast (later rest) hasLast) step
      (ih (fun facts inferred leads => ground facts inferred (later leads)) isBaseClass hasBase
        isLast hasLast)
    refine fromOwner.congr ?_ rfl
    rw [provided isFirst hasFirst, provides]

end Session.Completes

namespace Session

/-- A method can stand for that of a base if the class defines it, and has the same type if both
inherit it. Otherwise it is enough that the class it comes from has compared it on the way to the
base. -/
theorem inferred_methods_substitute {settings : Settings} {base : Option String}
    {program : Program} {funcParams classParams : TypeParams} {survey : Survey} {theory : Theory}
    {axioms : Axioms} {final : Session}
    (surveyed : Survey.ofProgram settings base program funcParams classParams = .ok survey)
    (built : Theory.ofSurvey settings survey = .ok theory)
    (stated : Axioms.ofTheory theory = .ok axioms)
    (inferred : (ofProgram theory axioms program).infer = (.ok (), final)) :
    (∀ {c}, .classDef c ∈ program.main.body → ∃ facts ∈ final.inferredClasses,
      facts.name = c.name ∧ facts.bases = (Inheritance.parents c).eraseDups ∧
      facts.method = Term.noMethod) ∧
    ∀ {model : Interpretation theory} {assigned}, final.HoldsForMethods model assigned →
    ∀ {c}, c ∈ final.inferredClasses → ∀ {parent}, parent ∈ c.bases →
    ∀ {method count}, method ≠ "__init__" → theory.HasMethod c.name method count →
      theory.HasMethod parent method count →
      (c.Defines method →
        model.Substitutes assigned (model.eval assigned c.method) method count c.name parent) ∧
      ∀ b ∈ final.inferredClasses, b.name = parent →
        (c.provider method = b.provider method →
          model.eval assigned (.classAttr c.name method) =
            model.eval assigned (.classAttr parent method)) ∧
        (model.Satisfies axioms.subtype →
          final.Leads theory method count c b →
          (∀ facts ∈ final.inferredClasses, final.Leads theory method count c facts →
            theory.HasMethod facts.name method count →
            model.HasGroundMethod assigned method count facts.name) →
          ∀ {within}, theory.IsMethod within →
          model.Substitutes assigned within method count c.name parent) := by
  have complete := Survey.ofProgram_isComplete surveyed
  have formed := ofSurvey_wellFormed complete built
  have rooted := isClass_of_isComplete complete built
  have listed := Survey.ofProgram_listsMethods surveyed
  have completes := completes_of_infer inferred
  obtain ⟨subtypes, -⟩ := Axioms.ofTheory_eq_ok stated
  obtain ⟨-, rfl, -⟩ := ofSurvey_eq_ok built
  constructor
  · intro c member
    obtain ⟨entry, kept, facts⟩ := completes.classes member
    exact ⟨entry.1, mem_map_of_mem kept, facts⟩
  · intro model assigned holds c isC parent isBase method count notInit hasC hasB
    constructor
    · intro defines
      exact completes.substitutes_of_defines holds listed notInit isC isBase defines hasC hasB
    · rintro b isB rfl
      refine ⟨fun shared => ?_, fun satisfied leads ground within isMethod => ?_⟩
      · rw [completes.eval_provider holds listed notInit isC hasC,
          completes.eval_provider holds listed notInit isB hasB, shared]
      · have clear := unambiguous subtypes formed model.datatype
        have laws := (satisfies_iff_subtypeLaws subtypes formed).mp satisfied
        exact completes.substitutes_of_leads holds listed notInit laws clear rooted isMethod leads
          ground isC hasC isB hasB

section Samples

/-- A program with its inference. -/
structure Outcome where
  program : Program
  survey : Survey
  theory : Theory
  axioms : Axioms
  final : Session

def Outcome.ofBody (body : List Stmt) : Except Fault Outcome := do
  let program ← Program.read {} body none
  let survey ← Survey.ofProgram {} none program {} {}
  let theory ← ofSurvey {} survey
  let axioms ← Axioms.ofTheory theory
  let _ ← (ofProgram theory axioms program).infer.1
  pure ⟨program, survey, theory, axioms, (ofProgram theory axioms program).infer.2⟩

theorem Outcome.ofBody_eq_ok {body : List Stmt} {outcome : Outcome}
    (done : ofBody body = .ok outcome) :
    Survey.ofProgram {} none outcome.program {} {} = .ok outcome.survey ∧
      ofSurvey {} outcome.survey = .ok outcome.theory ∧
      Axioms.ofTheory outcome.theory = .ok outcome.axioms ∧
      (ofProgram outcome.theory outcome.axioms outcome.program).infer =
        (.ok (), outcome.final) := by
  obtain ⟨_, -, done⟩ := bind_ok done
  obtain ⟨_, surveyed, done⟩ := bind_ok done
  obtain ⟨_, built, done⟩ := bind_ok done
  obtain ⟨_, stated, done⟩ := bind_ok done
  obtain ⟨⟨⟩, inferred, done⟩ := bind_ok done
  obtain rfl := pure_ok done
  exact ⟨surveyed, built, stated, Prod.ext inferred rfl⟩

/-- A method with one parameter after the receiver. -/
def taking (hint : String) : Stmt :=
  .functionDef ⟨{}, "f", ⟨[], [⟨some 1, "self", none⟩,
    ⟨some 1, "x", some (.name (some 1) hint .load)⟩], none, [], [], none, []⟩, [.pass {}], [], none,
    false⟩

/-- Three bases, the first of which overrides the second. -/
def threeBases : List Stmt :=
  let derived (name : String) (bases : List String) (body : List Stmt) : Stmt :=
    .classDef ⟨{}, name, bases.map fun base => .name (some 1) base .load, [], body, []⟩
  [derived "Base" [] [taking "int"], derived "Wider" ["Base"] [taking "float"],
    derived "Other" [] [taking "str"], derived "Leaf" ["Wider", "Base", "Other"] [.pass {}]]

/-- The values of the constants of a class, by numbers. -/
def valuesOf (className provider hint : String) (own initialiser : Nat) (receivers : List Nat) :
    List (String × Term) :=
  let instanceOf (className : String) := Term.atom ("class_" ++ className)
  let method := Term.con "func_2" [.num 0, instanceOf provider, .atom hint, .none]
  let start := Term.con "func_1" [.num 0, instanceOf className, .none]
  [("class_" ++ className ++ "_attr_f", method), ("func_" ++ toString own, method),
    ("class_" ++ className ++ "_attr___init__", start), ("func_" ++ toString initialiser, start)]
    ++ receivers.map fun number => ("func_arg_" ++ toString number, instanceOf className)

/-- All other constants stand for results, which are none. -/
def threeBasesValues : Table String Term :=
  ⟨valuesOf "Base" "Base" "int" 195 196 [197, 204]
    ++ valuesOf "Wider" "Wider" "float" 216 217 [218, 225]
    ++ valuesOf "Other" "Other" "str" 239 240 [241, 248]
    ++ valuesOf "Leaf" "Wider" "float" 260 261 [262]⟩

def Outcome.valuation (outcome : Outcome) : Valuation where
  sort := outcome.theory.sort
  typeVars := outcome.theory.typeVars
  assigned name := (threeBasesValues.get? name).getD .none
  below := [(.int, .float), (.none, .none)]

/-- The parameters of the method in the classes. -/
def parameters : List (String × String) :=
  [("Base", "int"), ("Wider", "float"), ("Other", "str"), ("Leaf", "float")]

/-- What can be computed of the sample. -/
@[mk_iff]
structure Outcome.IsThreeBases (outcome : Outcome) : Prop where
  datatype : outcome.theory.sort.IsDatatype
  computed : ∀ assertion ∈ outcome.final.log.hard.toList.drop outcome.axioms.log.hard.toList.length,
    ∀ part ∈ assertion.parts, outcome.valuation.truth? part = some true
  typed : ∀ value ∈ .none :: threeBasesValues.values, outcome.theory.sort.IsType value
  shapes : ∀ pair ∈ parameters, outcome.theory.method? pair.1 "f" = some ⟨2, [], 0⟩
  args : ∀ pair ∈ parameters,
    outcome.valuation.value? (.get (TypeSort.funcArg 2 2) (.classAttr pair.1 "f")) =
      some (.atom pair.2)
  results : ∀ pair ∈ parameters,
    outcome.valuation.value? (.get (TypeSort.funcResult 2) (.classAttr pair.1 "f")) = some .none
  named : ∀ facts ∈ outcome.final.inferredClasses, facts.name ∈ parameters.map (·.1)
  leaf : ∃ leaf ∈ outcome.final.inferredClasses, (leaf.name = "Leaf" ∧ "Other" ∈ leaf.bases) ∧
    ∃ base ∈ outcome.final.inferredClasses, base.name = "Base" ∧ base.name ∈ leaf.bases ∧
    ¬ leaf.Defines "f" ∧ leaf.provider "f" ≠ base.provider "f" ∧
    ∃ wider ∈ outcome.final.inferredClasses, leaf.provider "f" = wider.name ∧
      base.name ∈ wider.bases ∧ wider.Defines "f" ∧ wider.method = Term.noMethod
  ground : ∀ t ∈ .none :: parameters.map fun pair => .atom pair.2, outcome.theory.IsGround t
  /-- A number is below a more general one. -/
  int_float : (.plain "int", ["float"]) ∈ outcome.theory.survey.allClasses.entries
  /-- From texts the bases lead to no number. -/
  str_closed : ∀ entry ∈ outcome.theory.survey.allClasses.entries,
    entry.1.name ∈ ["str", "sequence", "object"] →
    ∀ base ∈ entry.2, base ∈ ["str", "sequence", "object"]

instance (outcome : Outcome) : Decidable outcome.IsThreeBases :=
  decidable_of_iff _ outcome.isThreeBases_iff.symm

theorem exists_threeBases :
    ∃ outcome, Outcome.ofBody threeBases = .ok outcome ∧ outcome.IsThreeBases := by
  decide +kernel

variable {outcome : Outcome} (done : Outcome.ofBody threeBases = .ok outcome)
  (sample : outcome.IsThreeBases)
include done sample

/-- All constraints hold in a model. -/
theorem exists_threeBases_model : ∃ model : Interpretation outcome.theory,
    model.Satisfies outcome.axioms.subtype ∧
    (∀ assertion ∈ outcome.final.log.hard, ∀ part ∈ assertion.parts,
      model.holds part outcome.valuation.assigned) ∧
    (∀ pair ∈ parameters,
      model.argType outcome.valuation.assigned pair.1 "f" 2 0 = .atom pair.2 ∧
      model.resultType outcome.valuation.assigned pair.1 "f" 2 = .none) ∧
    ¬ model.subtype Term.noMethod .str .float := by
  obtain ⟨surveyed, built, stated, inferred⟩ := Outcome.ofBody_eq_ok done
  obtain ⟨model, standard, structural⟩ := exists_isStandard_structural
    (Survey.ofProgram_isComplete surveyed) built rfl stated sample.datatype
  have below {s t : Term} (isS : s ∈ [Term.none, .int, .float, .str, .float])
      (isT : t ∈ [Term.none, .int, .float, .str, .float]) :=
    structural (sample.ground s isS) (sample.ground t isT)
  have fits : outcome.valuation.Fits model := by
    refine ⟨standard.select, standard.upper, ?_⟩
    intro pair member
    rcases mem_pair.mp member with rfl | rfl
    · refine (below (by decide) (by decide)).mpr (.intro ?_)
      exact .ancestor [] (.single ⟨_, _, sample.int_float, mem_singleton_self _, rfl⟩)
    · exact (below (by decide) (by decide)).mpr (.intro (.refl _))
  refine ⟨model, standard.satisfies, ?_, ?_, ?_⟩
  · exact standard.holds_of_le (completes_of_infer inferred).hasAxioms fits sample.computed
  · intro pair member
    exact ⟨fits.eval_eq _ (sample.args pair member), fits.eval_eq _ (sample.results pair member)⟩
  · rw [below (by decide) (by decide)]
    exact not_structuralSubtype_of_closed sample.str_closed (by decide) (by decide) (by decide)

omit done in
theorem Outcome.IsThreeBases.hasMethod {className : String}
    (listed : className ∈ parameters.map (·.1)) : outcome.theory.HasMethod className "f" 2 := by
  obtain ⟨pair, member, rfl⟩ := mem_map.mp listed
  exact ⟨_, sample.shapes pair member, rfl, rfl⟩

omit done in
theorem Outcome.IsThreeBases.hasGroundMethod {model : Interpretation outcome.theory}
    (types : ∀ pair ∈ parameters,
      model.argType outcome.valuation.assigned pair.1 "f" 2 0 = .atom pair.2 ∧
      model.resultType outcome.valuation.assigned pair.1 "f" 2 = .none)
    (inferred : facts ∈ outcome.final.inferredClasses) :
    model.HasGroundMethod outcome.valuation.assigned "f" 2 facts.name := by
  obtain ⟨pair, member, isName⟩ := mem_map.mp (sample.named facts inferred)
  rw [← isName]
  constructor
  · intro index inside
    obtain rfl : index = 0 := by omega
    rw [(types pair member).1]
    exact sample.ground _ (mem_cons_of_mem _ (mem_map_of_mem member))
  · rw [(types pair member).2]
    exact sample.ground _ mem_cons_self

omit done sample

/-- The inherited method can stand for that of the second base. -/
theorem leaf_substitutes_base : ∃ (outcome : Outcome) (model : Interpretation outcome.theory)
    (assigned : Assignment) (leaf base : ClassFacts), Outcome.ofBody threeBases = .ok outcome ∧
    leaf ∈ outcome.final.inferredClasses ∧ base ∈ outcome.final.inferredClasses ∧
    leaf.name = "Leaf" ∧ base.name = "Base" ∧ base.name ∈ leaf.bases ∧ ¬ leaf.Defines "f" ∧
    leaf.provider "f" ≠ base.provider "f" ∧ outcome.final.HoldsForMethods model assigned ∧
    model.Satisfies outcome.axioms.subtype ∧
    model.Substitutes assigned Term.noMethod "f" 2 leaf.name base.name := by
  obtain ⟨outcome, done, sample⟩ := exists_threeBases
  obtain ⟨surveyed, built, stated, inferred⟩ := Outcome.ofBody_eq_ok done
  obtain ⟨model, satisfied, holds, types, -⟩ := exists_threeBases_model done sample
  obtain ⟨leaf, isLeaf, ⟨leafName, -⟩, base, isBase, baseName, belowLeaf, notDefines, apart, wider,
    isWider, provided, belowWider, defines, within⟩ := sample.leaf
  have hasLeaf := sample.hasMethod (sample.named leaf isLeaf)
  have hasWider := sample.hasMethod (sample.named wider isWider)
  have hasBase := sample.hasMethod (sample.named base isBase)
  have isMethod := outcome.theory.isMethod_noMethod
  have holdsForMethods : outcome.final.HoldsForMethods model outcome.valuation.assigned :=
    fun _ _ assertion member _ => holds assertion member
  have compares : outcome.final.Compares outcome.theory "f" 2 wider base :=
    ⟨isWider, isBase, belowWider, defines, hasWider, hasBase, within ▸ isMethod⟩
  obtain ⟨-, substitutes⟩ := inferred_methods_substitute surveyed built stated inferred
  obtain ⟨-, inherits⟩ := substitutes holdsForMethods isLeaf belowLeaf (by decide) hasLeaf hasBase
  obtain ⟨-, led⟩ := inherits base isBase rfl
  exact ⟨outcome, model, _, leaf, base, done, isLeaf, isBase, leafName, baseName, belowLeaf,
    notDefines, apart, holdsForMethods, satisfied,
    led satisfied (.compared provided compares (.same rfl))
      (fun _ inferred _ _ => sample.hasGroundMethod types inferred) isMethod⟩

/-- It cannot stand for that of the third base. -/
theorem leaf_not_substitutes_other : ∃ (outcome : Outcome)
    (model : Interpretation outcome.theory) (assigned : Assignment),
    Outcome.ofBody threeBases = .ok outcome ∧
    (∃ leaf ∈ outcome.final.inferredClasses, leaf.name = "Leaf" ∧ "Other" ∈ leaf.bases) ∧
    outcome.theory.HasMethod "Leaf" "f" 2 ∧ outcome.theory.HasMethod "Other" "f" 2 ∧
    (∀ name, outcome.theory.sort.IsType (assigned name)) ∧
    (∀ assertion ∈ outcome.final.log.hard, ∀ part ∈ assertion.parts, model.holds part assigned) ∧
    ¬ model.Substitutes assigned Term.noMethod "f" 2 "Leaf" "Other" := by
  obtain ⟨outcome, done, sample⟩ := exists_threeBases
  obtain ⟨model, -, holds, types, notBelow⟩ := exists_threeBases_model done sample
  obtain ⟨leaf, isLeaf, isOther, -⟩ := sample.leaf
  refine ⟨outcome, model, outcome.valuation.assigned, done, ⟨leaf, isLeaf, isOther⟩,
    sample.hasMethod (by decide), sample.hasMethod (by decide), ?_, holds, ?_⟩
  · intro name
    change outcome.theory.sort.IsType ((threeBasesValues.get? name).getD .none)
    cases found : threeBasesValues.get? name with
    | none => exact sample.typed _ mem_cons_self
    | some value =>
      refine sample.typed _ (mem_cons_of_mem _ ?_)
      exact mem_map_of_mem (Table.mem_of_get? found)
  · intro substitutes
    have below := substitutes.args 0 (by decide)
    rw [(types ("Other", "str") (by decide)).1, (types ("Leaf", "float") (by decide)).1] at below
    exact notBelow below

end Samples

end Session

end TypeInference
