/- The types that a hint allows, given values of its type variables. -/

import TypeInference.Proofs.ConstraintFaults
import TypeInference.Proofs.HintReading
import TypeInference.Proofs.SessionGrowth

namespace TypeInference

open List Interpretation

namespace Hint

/-- A name is a built-in type, a plain class, a type variable or its value. -/
def Setting.Names (setting : Setting) (mode : VarMode) (value? : String → Option Term)
    (name : String) (t : Term) : Prop :=
  (name, t) ∈ primitives ∨ name ∉ primitives.map (·.1) ∧
    (name ∈ setting.theory.classNames ∧
        setting.theory.sort.accessors? ("class_" ++ name) = some [] ∧
        t = .atom ("class_" ++ name) ∨
      name ∉ setting.theory.classNames ∧
        (setting.instantiates mode name = .ok true ∧ value? name = some t ∨
          setting.instantiates mode name = .ok false ∧ setting.typeVar? name = .ok (some t)))

section

variable (setting : Setting) (mode : VarMode) (value? : String → Option Term)

mutual

/-- The types that a hint allows, given values. -/
def Allows : Hint → Term → Prop
  | .noneType, t => t = .none
  | .name text _, t => setting.Names mode value? (baseName text) t
  | .list element, t => ∃ s, t = .list s ∧ Allows element s
  | .set element, t => ∃ s, t = .set s ∧ Allows element s
  | .dict key value, t => ∃ k v, t = .dict k v ∧ Allows key k ∧ Allows value v
  | .typeOf object, t => ∃ s, t = .type s ∧ Allows object s
  | .optional inner, t => Allows inner t
  | .tuple components, t => ∃ ts, t = .con ("tuple_" ++ toString ts.length) ts ∧
      AllowsEach components ts
  | .callable params result, t => ∃ ts r,
      t = .con ("func_" ++ toString ts.length) (.num 0 :: (ts ++ [r])) ∧
      AllowsEach params ts ∧ Allows result r
  | .union options _, t => AllowsAny options t
  | .applied className (some args) _, t => ∃ ts, t = .con ("class_" ++ className) ts ∧
      AllowsEach args ts
  | .applied _ none _, _ | .invalid _, _ => False

def AllowsEach : List Hint → List Term → Prop
  | [], [] => True
  | hint :: hints, t :: ts => Allows hint t ∧ AllowsEach hints ts
  | _, _ => False

def AllowsAny : List Hint → Term → Prop
  | [], _ => False
  | hint :: hints, t => Allows hint t ∨ AllowsAny hints t

end

end

mutual

/-- The names in a hint, without the modules before them. -/
def names : Hint → List String
  | .name text _ => [baseName text]
  | .list inner | .set inner | .typeOf inner | .optional inner => names inner
  | .dict key value => names key ++ names value
  | .tuple parts | .union parts _ | .applied _ (some parts) _ => namesOfAll parts
  | .callable params result => namesOfAll params ++ names result
  | .noneType | .applied _ none _ | .invalid _ => []

def namesOfAll : List Hint → List String
  | [] => []
  | hint :: hints => names hint ++ namesOfAll hints

end

variable {setting : Setting} {hints : List Hint} {t : Term} {name : String} {mode : VarMode}
  {line : Nat}

theorem allowsEach_iff {value? : String → Option Term} {ts : List Term} :
    AllowsEach setting mode value? hints ts ↔
      Forall₂ (Allows setting mode value?) hints ts := by
  induction hints generalizing ts with
  | nil => cases ts <;> simp [AllowsEach]
  | cons hint hints ih => cases ts <;> simp [AllowsEach, ih]

theorem allowsAny_iff {value? : String → Option Term} :
    AllowsAny setting mode value? hints t ↔
      ∃ hint ∈ hints, Allows setting mode value? hint t := by
  induction hints with
  | nil => simp [AllowsAny]
  | cons hint hints ih => simp [AllowsAny, ih]

/-- A built-in type is allowed by its name only. -/
theorem allows_primitive_iff {value? : String → Option Term} {s : Term}
    (member : (name, s) ∈ primitives) :
    (Hint.name name line).Allows setting mode value? t ↔ t = s := by
  obtain ⟨named, found⟩ := primitives_find? _ member
  rw [Allows, Setting.Names, baseName_of_isIdentifier named,
    or_iff_left fun other => other.1 (mem_map_of_mem member)]
  constructor
  · intro also
    have same := (primitives_find? _ also).2.symm.trans found
    exact (Prod.mk.inj (Option.some.inj same)).2
  · rintro rfl
    exact member

theorem mem_namesOfAll : name ∈ namesOfAll hints ↔ ∃ hint ∈ hints, name ∈ names hint := by
  induction hints with
  | nil => simp [namesOfAll]
  | cons hint hints ih => simp [namesOfAll, ih]

/-- Constraints are added, and type variables keep their constants. -/
structure Progress.Leads (before after : Progress) : Prop where
  log : before.log ≤ after.log
  kept : ∀ {name constant}, before.instances.get? name = some constant →
    after.instances.get? name = some constant

namespace Progress.Leads

variable (progress : Progress)

theorem refl : progress.Leads progress := ⟨le_rfl, id⟩

theorem trans {before mid after : Progress} (first : before.Leads mid) (second : mid.Leads after) :
    before.Leads after :=
  ⟨first.log.trans second.log, fun known => second.kept (first.kept known)⟩

theorem size_le {before after : Progress} (leads : before.Leads after) :
    before.log.hard.size ≤ after.log.hard.size := by
  simpa using leads.log.hard.length_le

theorem ofLog {log : Log} (le : progress.log ≤ log) : progress.Leads { progress with log := log } :=
  ⟨le, id⟩

theorem ofInstance (new : progress.instances.get? name = none) (constant : Term) :
    progress.Leads { progress with instances := progress.instances.insert name constant } := by
  refine ⟨le_rfl, fun {other _} known => ?_⟩
  have differs : other ≠ name := by
    rintro rfl
    simp [new] at known
  exact (Table.get?_insert_of_ne _ _ differs).trans known

end Progress.Leads

/-- The end of a call, where all holds that it has asserted. -/
structure Ending (setting : Setting) where
  model : Interpretation setting.theory
  assigned : Assignment
  /-- The number of assertions before the call. -/
  start : Nat
  final : Progress
  holds : ∀ assertion ∈ final.log.hard.toList.drop start, ∀ part ∈ assertion.parts,
    model.holds part assigned

namespace Ending

variable (ending : Ending setting) {formula : Formula} {hint : Hint} {types : List Meaning}
  {message : String} {constant : Term}

def eval (t : Term) : Term := ending.model.eval ending.assigned t

/-- The value of the constant of a type variable. -/
def value? (name : String) : Option Term := (ending.final.instances.get? name).map ending.eval

/-- The constant has the value of one of the options. -/
def IsOption (name : String) (constant : Term) : Prop :=
  ∃ options, setting.vars.options.get? name = some options ∧
    (options = [] ∨ ∃ option ∈ options,
      (ofExpr option).Allows setting .mixed ending.value? (ending.eval constant))

/-- Each instantiated type variable has a constant. -/
def Covers (mode : VarMode) (names : List String) : Prop :=
  ∀ name ∈ names, name ∉ primitives.map (·.1) → name ∉ setting.theory.classNames →
    setting.instantiates mode name = .ok true → ∃ constant,
      ending.final.instances.get? name = some constant

/-- The hint has been read as a type that it allows. -/
structure Fits (mode : VarMode) (hint : Hint) (meaning : Meaning) : Prop where
  allows : ∀ {t}, meaning.term? = some t → hint.Allows setting mode ending.value? (ending.eval t)
  covers : ending.Covers mode hint.names

/-- A step establishes a fact. New constants are among their options. -/
structure Step (before after : Progress) (fact : Prop) : Prop where
  leads : before.Leads after
  ends : ending.start ≤ before.log.hard.size → after.Leads ending.final → fact ∧
    ∀ {name constant}, after.instances.get? name = some constant →
      before.instances.get? name = some constant ∨ ending.IsOption name constant

namespace Step

variable {ending} {before mid after : Progress} {first second : Prop}

theorem refl (progress : Progress) (fact : progress.Leads ending.final → first) :
    ending.Step progress progress first :=
  ⟨.refl progress, fun _ last => ⟨fact last, .inl⟩⟩

theorem trans (left : ending.Step before mid first) (right : ending.Step mid after second) :
    ending.Step before after (first ∧ second) := by
  refine ⟨left.leads.trans right.leads, fun started last => ?_⟩
  obtain ⟨isFirst, early⟩ := left.ends started (right.leads.trans last)
  obtain ⟨isSecond, late⟩ := right.ends (started.trans left.leads.size_le) last
  refine ⟨⟨isFirst, isSecond⟩, fun known => ?_⟩
  rcases late known with old | isOption
  · exact early old
  · exact .inr isOption

theorem imp (step : ending.Step before after first)
    (follows : after.Leads ending.final → first → second) : ending.Step before after second :=
  ⟨step.leads, fun started last => (step.ends started last).imp_left (follows last)⟩

/-- An assertion holds in the end. -/
theorem assert (progress : Progress) (message : String) (parts : List Formula) :
    ending.Step progress { progress with log := progress.log.assert message parts }
      (∀ part ∈ parts, ending.model.holds part ending.assigned) := by
  refine ⟨.ofLog progress (progress.log.le_assert message parts), fun started last => ⟨?_, .inl⟩⟩
  refine ending.holds ⟨message, parts⟩ ?_
  obtain ⟨later, is⟩ := last.log.hard
  have pushed : (progress.log.assert message parts).hard.toList =
      progress.log.hard.toList ++ [⟨message, parts⟩] := Array.toList_push
  rw [← is, pushed, append_assoc, drop_append_of_le_length (by simpa using started)]
  simp

end Step

variable {ending} {before after : Progress} {meaning : Meaning}

/-- A term can only be equal to what is read as a term. -/
theorem exists_of_holds_eq {a : Term} {type : Meaning}
    (stated : (Meaning.term a).eq type = .ok formula)
    (holds : ending.model.holds formula ending.assigned) :
    ∃ b, type.term? = some b ∧ ending.eval a = ending.eval b := by
  cases type with
  | term b | classObject _ b =>
    have is : Formula.eq a b = formula := Except.ok.inj stated
    exact ⟨b, rfl, holds_eq.mp (is ▸ holds)⟩
  | nothing =>
    have is : Formula.truth false = formula := Except.ok.inj stated
    rw [← is] at holds
    cases holds
  | _ => cases stated

/-- A constant that is said to be one of some types is. -/
theorem step_assertOneOf {result : Unit}
    (done : (do assert message [← oneOf constant types]).run before = (.ok result, after)) :
    ending.Step before after
      (∃ type ∈ types, ∃ b, type.term? = some b ∧ ending.eval constant = ending.eval b) := by
  obtain ⟨formula, mid, isFormula, done⟩ := run_bind_ok done
  obtain ⟨formulas, areFormulas, rfl⟩ := run_map_ok isFormula
  rw [run_mapM_lift] at areFormulas
  obtain ⟨stated, rfl⟩ := Prod.mk.inj areFormulas
  obtain rfl := (Prod.mk.inj done).2
  refine (Step.assert before message [.or formulas]).imp fun _ holds => ?_
  obtain ⟨formula, member, isTrue⟩ := holds_or.mp (holds _ (mem_singleton_self _))
  obtain ⟨type, inside, is⟩ := forall₂_exists_left (mapM_eq_ok_iff.mp stated) member
  exact ⟨type, inside, exists_of_holds_eq is isTrue⟩

variable (ending) in
/-- Of a type variable without options nothing is said. -/
theorem step_constant
    (done : (do
      if !types.isEmpty then assert message [← oneOf constant types]
      pure (Meaning.term constant)).run before = (.ok meaning, after)) :
    meaning = .term constant ∧ ending.Step before after (types = [] ∨
      ∃ type ∈ types, ∃ b, type.term? = some b ∧ ending.eval constant = ending.eval b) := by
  cases types with
  | nil =>
    obtain ⟨rfl, rfl⟩ := run_pure_ok done
    exact ⟨rfl, .refl _ fun _ => .inl rfl⟩
  | cons type types =>
    obtain ⟨formula, mid, isFormula, done⟩ := run_bind_ok done
    obtain ⟨⟨⟩, later, stated, done⟩ := run_bind_ok done
    obtain ⟨rfl, rfl⟩ := run_pure_ok done
    have said : ending.Step before later (∃ other ∈ type :: types, ∃ b,
        other.term? = some b ∧ ending.eval constant = ending.eval b) :=
      step_assertOneOf (run_bind_eq_ok_iff.mpr ⟨formula, mid, isFormula, stated⟩)
    exact ⟨rfl, said.imp fun _ => .inr⟩

theorem eval_primitive {entry : String × Term} (member : entry ∈ primitives) :
    ending.eval entry.2 = entry.2 := by
  rcases primitives_atom entry member with is | is
  all_goals
    rw [is]
    exact eval_con _ _ []

section

variable {mode : VarMode} {hint : Hint} {hints : List Hint} {meanings : List Meaning}
  {ts : List Term}

theorem Fits.of_allows (allows : hint.Allows setting mode ending.value? (ending.eval t))
    (covers : ending.Covers mode hint.names) : ending.Fits mode hint (.term t) :=
  ⟨fun isTerm => Option.some.inj isTerm ▸ allows, covers⟩

theorem allowsEach_of_fits (fit : Forall₂ (ending.Fits mode) hints meanings)
    (areTerms : AreTerms meanings ts) : AllowsEach setting mode ending.value? hints
      (ts.map ending.eval) := by
  rw [allowsEach_iff, forall₂_map_right_iff]
  exact forall₂_trans (fun _ _ _ fits isTerm => fits.allows isTerm) fit areTerms

theorem covers_of_fits (fit : Forall₂ (ending.Fits mode) hints meanings) :
    ending.Covers mode (namesOfAll hints) := by
  intro name member
  obtain ⟨hint, inside, isName⟩ := mem_namesOfAll.mp member
  obtain ⟨_, -, fits⟩ := forall₂_exists_right fit inside
  exact fits.covers name isName

end

/-- Options are read as types that they allow. -/
def ReadsOptions (ending : Ending setting) (readOptions : List Hint → Reading (List Meaning)) :
    Prop :=
  ∀ {options before types after}, (readOptions options).run before = (.ok types, after) →
    ending.Step before after (Forall₂ (ending.Fits .mixed) options types)

section

variable {readOptions : List Hint → Reading (List Meaning)}
  (reads : ending.ReadsOptions readOptions)
include reads

/-- The constant of a type variable stays, and is an option if new. -/
theorem step_instanceOf
    (done : (instanceOf setting readOptions name line).run before = (.ok meaning, after)) :
    ending.Step before after
      (∃ constant, meaning = .term constant ∧
        ending.final.instances.get? name = some constant) := by
  rw [instanceOf, run_get_bind] at done
  cases known : before.instances.get? name with
  | some constant =>
    rw [known] at done
    obtain ⟨rfl, rfl⟩ := run_pure_ok done
    exact .refl _ fun last => ⟨constant, rfl, last.kept known⟩
  | none =>
    rw [known] at done
    cases declared : setting.vars.options.get? name with
    | none =>
      rw [declared] at done
      exact absurd done run_throw_ne_ok
    | some options =>
      rw [declared] at done
      obtain ⟨constant, _, isFresh, done⟩ := run_bind_ok done
      obtain ⟨isConstant, rfl⟩ := Prod.mk.inj isFresh
      obtain ⟨⟨⟩, _, noted, done⟩ := run_bind_ok done
      obtain rfl := (Prod.mk.inj noted).2
      obtain ⟨types, mid, areTypes, done⟩ := run_bind_ok done
      obtain ⟨rfl, stated⟩ := ending.step_constant done
      have opened := (reads areTypes).trans stated
      have drawn : before.Leads { before with log := (before.log.fresh "generic").2 } :=
        .ofLog before (before.log.le_fresh "generic" rfl)
      have noted := drawn.trans
        (.ofInstance { before with log := (before.log.fresh "generic").2 } known constant)
      refine ⟨noted.trans opened.leads, fun started last => ?_⟩
      obtain ⟨⟨fit, isOne⟩, new⟩ := opened.ends (started.trans noted.size_le) last
      have isOption : ending.IsOption name constant := by
        refine ⟨options, declared, ?_⟩
        rw [ofExprs_eq_map, forall₂_map_left_iff] at fit
        rcases isOne with rfl | ⟨type, member, b, isTerm, same⟩
        · exact .inl (forall₂_nil_right_iff.mp fit)
        · obtain ⟨option, inside, fits⟩ := forall₂_exists_left fit member
          exact .inr ⟨option, inside, same ▸ fits.allows isTerm⟩
      refine ⟨⟨constant, rfl, (opened.leads.trans last).kept (Table.get?_insert_self ..)⟩, ?_⟩
      intro other value found
      rcases new found with early | isOther
      · by_cases same : other = name
        · subst same
          have isConstant := (Table.get?_insert_self ..).symm.trans early
          exact .inr (Option.some.inj isConstant ▸ isOption)
        · exact .inl ((Table.get?_insert_of_ne _ _ same).symm.trans early)
      · exact .inr isOther

/-- A name is read to a value that it allows. -/
theorem step_resolveName {text : String}
    (done : (resolveName setting readOptions mode text line).run before = (.ok meaning, after)) :
    ending.Step before after (ending.Fits mode (.name text line) meaning) := by
  have covers (covered : baseName text ∉ primitives.map (·.1) →
      baseName text ∉ setting.theory.classNames →
      setting.instantiates mode (baseName text) = .ok true →
      ∃ constant, ending.final.instances.get? (baseName text) = some constant) :
      ending.Covers mode (Hint.name text line).names := by
    intro name member
    obtain rfl := mem_singleton.mp member
    exact covered
  rcases run_resolveName_eq_ok done with ⟨t, member, rfl, rfl⟩ | ⟨notPrimitive,
    ⟨isClass, isType, rfl⟩ | ⟨notClass, ⟨isTrue, done⟩ | ⟨isFalse, t, isVar, rfl, rfl⟩⟩⟩
  · have isPrimitive := mem_map_of_mem (f := (·.1)) member
    refine .refl _ fun _ => .of_allows ?_ (covers fun not => absurd isPrimitive not)
    rw [eval_primitive member]
    exact .inl member
  · refine .refl _ fun _ => ⟨fun isTerm => ?_, covers fun _ not => absurd isClass not⟩
    obtain ⟨plain, rfl⟩ := classType_eq_ok isType isTerm
    exact .inr ⟨notPrimitive, .inl ⟨isClass, plain, eval_con _ _ []⟩⟩
  · refine (step_instanceOf reads done).imp fun _ found => ?_
    obtain ⟨constant, rfl, found⟩ := found
    refine .of_allows ?_ (covers fun _ _ _ => ⟨constant, found⟩)
    exact .inr ⟨notPrimitive, .inr ⟨notClass, .inl ⟨isTrue, congrArg _ found⟩⟩⟩
  · refine .refl _ fun _ => .of_allows ?_ (covers fun _ _ isTrue => ?_)
    · obtain ⟨id, rfl⟩ := exists_id_of_typeVar? isVar
      exact .inr ⟨notPrimitive, .inr ⟨notClass, .inr ⟨isFalse, isVar⟩⟩⟩
    · rw [isFalse] at isTrue
      cases isTrue

end

mutual

variable {readOptions : List Hint → Reading (List Meaning)}

/-- A hint is read to a value that it allows. -/
theorem step_resolveWith (reads : ending.ReadsOptions readOptions) (mode : VarMode) :
    (hint : Hint) →
    {before after : Progress} → {meaning : Meaning} →
    (resolveWith setting readOptions mode hint).run before = (.ok meaning, after) →
    ending.Step before after (ending.Fits mode hint meaning)
  | .noneType, _, _, _, done => by
    obtain ⟨rfl, rfl⟩ := run_pure_ok done
    refine .refl _ fun _ => ⟨fun isTerm => ?_, by simp [Covers, names]⟩
    obtain rfl := Option.some.inj isTerm
    exact eval_none _
  | .name text line, _, _, _, done => step_resolveName reads done
  | .list part, _, _, _, done | .set part, _, _, _, done | .typeOf part, _, _, _, done => by
    obtain ⟨inner, _, isInner, done⟩ := run_bind_ok done
    obtain ⟨rfl, s, isTerm, rfl⟩ := run_toTerm_eq_ok done
    exact (step_resolveWith reads mode part isInner).imp fun _ fits => .of_allows
      ⟨ending.eval s, eval_con _ _ _, fits.allows isTerm⟩ fits.covers
  | .dict key value, _, _, _, done => by
    obtain ⟨first, _, isFirst, done⟩ := run_bind_ok done
    obtain ⟨second, _, isSecond, done⟩ := run_bind_ok done
    obtain ⟨k, isOk, done⟩ := run_lift_bind_ok done
    obtain ⟨rfl, v, isValue, rfl⟩ := run_toTerm_eq_ok done
    have steps :=
      (step_resolveWith reads mode key isFirst).trans (step_resolveWith reads mode value isSecond)
    exact steps.imp fun _ fits => .of_allows
      ⟨ending.eval k, ending.eval v, eval_con _ _ _,
        fits.1.allows (term?_eq_some_iff.mp isOk), fits.2.allows isValue⟩
      (forall_mem_append.mpr ⟨fits.1.covers, fits.2.covers⟩)
  | .optional inner, _, _, _, done =>
    (step_resolveWith reads mode inner done).imp fun _ fits => ⟨fits.allows, fits.covers⟩
  | .tuple components, _, _, _, done => by
    obtain ⟨meanings, _, areMeanings, done⟩ := run_bind_ok done
    obtain ⟨rfl, ts, areTerms, -, rfl⟩ := run_tupleOf_eq_ok done
    refine (step_resolveAllWith reads mode components areMeanings).imp fun _ fit =>
      .of_allows ⟨ts.map ending.eval, ?_, allowsEach_of_fits fit areTerms⟩ (covers_of_fits fit)
    rw [length_map]
    exact eval_con _ _ ts
  | .callable params result, _, _, _, done => by
    obtain ⟨meanings, _, areMeanings, done⟩ := run_bind_ok done
    obtain ⟨returned, _, isReturned, done⟩ := run_bind_ok done
    obtain ⟨rfl, ts, r, areTerms, isTerm, -, rfl⟩ := run_functionOf_eq_ok done
    have steps := (step_resolveAllWith reads mode params areMeanings).trans
      (step_resolveWith reads mode result isReturned)
    refine steps.imp fun _ fit => .of_allows ⟨ts.map ending.eval, ending.eval r, ?_,
      allowsEach_of_fits fit.1 areTerms, fit.2.allows isTerm⟩
      (forall_mem_append.mpr ⟨covers_of_fits fit.1, fit.2.covers⟩)
    simp [eval, Interpretation.eval]
  | .union options line, _, _, _, done => by
    obtain ⟨meanings, mid, areMeanings, done⟩ := run_bind_ok done
    obtain ⟨constant, _, isFresh, done⟩ := run_bind_ok done
    obtain ⟨-, rfl⟩ := Prod.mk.inj isFresh
    obtain ⟨formula, _, isFormula, done⟩ := run_bind_ok done
    obtain ⟨⟨⟩, stated, rfl⟩ := run_map_ok done
    have steps := ((step_resolveAllWith reads mode options areMeanings).trans
      ⟨.ofLog mid (mid.log.le_fresh "union" rfl), fun _ _ => ⟨trivial, .inl⟩⟩).trans
      (step_assertOneOf (run_bind_eq_ok_iff.mpr ⟨formula, _, isFormula, stated⟩))
    refine steps.imp fun _ facts => ?_
    obtain ⟨⟨fit, -⟩, type, member, b, isTerm, same⟩ := facts
    obtain ⟨option, inside, fits⟩ := forall₂_exists_left fit member
    refine .of_allows (allowsAny_iff.mpr ⟨option, inside, ?_⟩) (covers_of_fits fit)
    exact same ▸ fits.allows isTerm
  | .applied className none line, _, _, _, done => by
    rw [resolveWith_applied] at done
    split at done
    · split at done <;> exact absurd done run_throw_ne_ok
    · exact absurd done run_throw_ne_ok
  | .applied className (some args) line, _, _, _, done => by
    rw [resolveWith_applied] at done
    split at done
    · split at done
      · obtain ⟨meanings, _, areMeanings, done⟩ := run_bind_ok done
        obtain ⟨rfl, ts, -, areTerms, -, -, -, rfl⟩ := run_classOf_eq_ok done
        exact (step_resolveAllWith reads mode args areMeanings).imp fun _ fit =>
          .of_allows ⟨ts.map ending.eval, eval_con _ _ ts,
            allowsEach_of_fits fit areTerms⟩ (covers_of_fits fit)
      · exact absurd done run_throw_ne_ok
    · exact absurd done run_throw_ne_ok
  | .invalid fault, _, _, _, done => absurd done run_throw_ne_ok

theorem step_resolveAllWith (reads : ending.ReadsOptions readOptions) (mode : VarMode) :
    (hints : List Hint) →
    {before after : Progress} → {meanings : List Meaning} →
    (resolveAllWith setting readOptions mode hints).run before = (.ok meanings, after) →
    ending.Step before after (Forall₂ (ending.Fits mode) hints meanings)
  | [], _, _, _, done => by
    obtain ⟨rfl, rfl⟩ := run_pure_ok done
    exact .refl _ fun _ => .nil
  | hint :: hints, _, _, _, done => by
    obtain ⟨first, _, isFirst, done⟩ := run_bind_ok done
    obtain ⟨others, areOthers, rfl⟩ := run_map_ok done
    have steps := (step_resolveWith reads mode hint isFirst).trans
      (step_resolveAllWith reads mode hints areOthers)
    exact steps.imp fun _ fits => .cons fits.1 fits.2

end

/-- Values that are read one after the other. -/
theorem step_mapM {α β : Type} {act : α → Reading β} {fact : α → β → Prop}
    (each : ∀ {value result before after}, (act value).run before = (.ok result, after) →
      ending.Step before after (fact value result))
    {values : List α} {results : List β}
    (done : (values.mapM act).run before = (.ok results, after)) :
    ending.Step before after (Forall₂ fact values results) := by
  induction values generalizing before results with
  | nil =>
    obtain ⟨rfl, rfl⟩ := run_pure_ok done
    exact .refl _ fun _ => .nil
  | cons value values ih =>
    rw [mapM_cons] at done
    obtain ⟨first, _, isFirst, done⟩ := run_bind_ok done
    obtain ⟨others, areOthers, rfl⟩ := run_map_ok done
    exact ((each isFirst).trans (ih areOthers)).imp fun _ facts => .cons facts.1 facts.2

/-- Reading keeps this at every depth. -/
theorem step_resolveTo (depth : Nat) (free : mode ≠ .fixed)
    (done : (resolveTo setting depth mode hint).run before = (.ok meaning, after)) :
    ending.Step before after (ending.Fits mode hint meaning) := by
  induction depth generalizing mode hint before meaning after with
  | zero => exact step_resolveWith (fun failed => absurd failed run_throw_ne_ok) mode hint done
  | succ depth ih =>
    have isMixed : mode.ofOptions = .mixed := by
      cases mode with
      | fixed => exact absurd rfl free
      | mixed | instantiated => rfl
    rw [resolveTo, isMixed] at done
    exact step_resolveWith (step_mapM (ih (by decide))) mode hint done

/-- What has been read is compared with a hint. -/
def Compares (ending : Ending setting) (arg : Meaning) (hint : Hint) (formula : Formula) : Prop :=
  ∃ meaning, arg.eq meaning = .ok formula ∧ ending.Fits .instantiated hint meaning

theorem step_compare {arg : Meaning}
    (done : (do arg.eq (← resolve setting .instantiated hint)).run before = (.ok formula, after)) :
    ending.Step before after (ending.Compares arg hint formula) := by
  obtain ⟨meaning, _, isMeaning, done⟩ := run_bind_ok done
  obtain ⟨stated, rfl⟩ := run_lift_ok done
  exact (step_resolveTo _ (by decide) isMeaning).imp fun _ fits => ⟨meaning, stated, fits⟩

/-- The hint allows the value of a term equated with it. -/
def Accords (ending : Ending setting) (t : Term) (hint : Hint) : Prop :=
  hint.Allows setting .instantiated ending.value? (ending.eval t) ∧
    ending.Covers .instantiated hint.names

/-- If the comparison holds, the value accords with the hint. -/
theorem accords_of_compares (compares : ending.Compares (.term t) hint formula)
    (holds : ending.model.holds formula ending.assigned) : ending.Accords t hint := by
  obtain ⟨meaning, stated, fits⟩ := compares
  obtain ⟨b, isTerm, same⟩ := exists_of_holds_eq stated holds
  exact ⟨same ▸ fits.allows isTerm, fits.covers⟩

end Ending

end Hint

end TypeInference
