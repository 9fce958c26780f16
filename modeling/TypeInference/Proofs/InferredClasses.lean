/- The classes of an inferred program are kept, and have been checked. -/

import TypeInference.Proofs.GenericClasses
import TypeInference.Proofs.ScopeChanges

namespace TypeInference

open List

theorem mem_insertName {name other : String} {names : List String} :
    other ∈ insertName name names ↔ other = name ∨ other ∈ names := by
  induction names with
  | nil => simp [insertName]
  | cons first names ih =>
    rw [insertName]
    split
    · simp only [mem_cons, ih]
      exact or_left_comm
    · simp only [mem_cons]

theorem mem_sortedNames {name : String} {names : List String} :
    name ∈ sortedNames names ↔ name ∈ names := by
  refine Iff.trans ?_ mem_eraseDups
  rw [sortedNames]
  induction names.eraseDups with
  | nil => rfl
  | cons first names ih => rw [foldr_cons, mem_insertName, ih, mem_cons]

namespace Survey

variable {settings : Settings} {members : List Stmt}

/-- Methods are attributes of a class, and these of its instances. -/
theorem nested_of_foldlM {found : Members}
    (done : members.foldlM (Members.add settings) {} = .ok found) :
    found.methods.keys ⊆ found.classAttrs ∧ found.classAttrs ⊆ found.instanceAttrs := by
  refine foldlM_invariant (fun members => members.methods.keys ⊆ members.classAttrs ∧
    members.classAttrs ⊆ members.instanceAttrs) done ⟨nil_subset _, nil_subset _⟩ ?_
  rintro stmt - before after ⟨methods, attrs⟩ added
  have widened (more : List String) : before.classAttrs ++ more ⊆ before.instanceAttrs ++ more :=
    append_subset.mpr ⟨List.Subset.trans attrs (subset_append_left ..), subset_append_right ..⟩
  unfold Members.add at added
  split at added
  · next f =>
    have listed (shape : MethodShape) :
        (before.methods.insert f.name shape).keys ⊆ before.classAttrs ++ [f.name] := by
      intro name member
      rcases Table.mem_keys_insert.mp member with rfl | old
      · exact mem_append_right _ (mem_singleton_self _)
      · exact mem_append_left _ (methods old)
    obtain ⟨decorators, -, added⟩ := bind_ok added
    split at added
    · exact pure_ok added ▸ ⟨listed _, widened _⟩
    · split at added
      · exact pure_ok added ▸ ⟨listed _, List.Subset.trans (widened _) (subset_append_left ..)⟩
      · exact pure_ok added ▸ ⟨listed _, widened _⟩
  · exact Except.ok.inj added ▸ ⟨List.Subset.trans methods (subset_append_left ..), widened _⟩
  · exact Except.ok.inj added ▸ ⟨methods, attrs⟩

/-- Methods of a class are attributes of its instances. -/
def ListsMethods (survey : Survey) : Prop :=
  ∀ className methods, survey.methods.get? className = some methods → ∀ name ∈ methods.keys,
    name ∈ (survey.instanceAttrs.get? className).getD []

theorem addClass_listsMethods {survey next : Survey} {c : ClassDef} (before : survey.ListsMethods)
    (done : addClass settings survey c members = .ok next) : next.ListsMethods := by
  obtain ⟨-, -, -, found, -, -, isFound, -, areMethods, areAttrs, -⟩ := addClass_eq_ok done
  intro className methods known name member
  rw [areMethods] at known
  rw [areAttrs]
  by_cases same : className = c.name
  · subst same
    rw [Table.get?_insert_self] at known ⊢
    obtain rfl := Option.some.inj known
    obtain ⟨methods, attrs⟩ := nested_of_foldlM isFound
    exact mem_sortedNames.mpr (attrs (methods member))
  · rw [Table.get?_insert_of_ne _ _ same] at known ⊢
    exact before className methods known name member

theorem ofProgram_listsMethods {base : Option String} {program : Program}
    {funcParams classParams : TypeParams} {survey : Survey}
    (done : ofProgram settings base program funcParams classParams = .ok survey) :
    survey.ListsMethods := by
  obtain ⟨_, withClasses, _, _, -, isClasses, -, rfl⟩ := ofProgram_eq_ok done
  obtain ⟨inheritance, -, done⟩ := bind_ok isClasses
  change withClasses.ListsMethods
  refine foldlM_invariant ListsMethods done (fun _ _ known => nomatch known) ?_
  exact fun c _ _ _ kept added => addClass_listsMethods kept added

end Survey

theorem Theory.hasInstanceAttr_of_method? {theory : Theory} (listed : theory.survey.ListsMethods)
    {className method : String} {shape : MethodShape}
    (known : theory.method? className method = some shape) :
    theory.hasInstanceAttr className method := by
  obtain ⟨methods, isClass, isMethod⟩ := Option.bind_eq_some_iff.mp known
  have member : method ∈ methods.keys := mem_map_of_mem (Table.mem_of_get? isMethod)
  exact contains_iff_mem.mpr (listed className methods isClass method member)

namespace Infer

/-- Declarations leave the statements of the scope. -/
theorem body_of_run_declarations {importer : Importer} {session after : Session}
    (done : (declarations importer).run session = (.ok (), after)) :
    after.here.body = session.here.body := by
  obtain ⟨functions, _, isFunctions, rest⟩ := run_bind_ok done
  obtain ⟨⟨⟩, _, noted, rest⟩ := run_bind_ok rest
  obtain rfl := (Prod.mk.inj noted).2
  have start := congrArg Scope.body (scopes_of_run_declaredScope isFunctions).1
  refine run_forM_invariant (fun state => state.here.body = session.here.body) rest start ?_
  intro entry _ before after kept step
  obtain ⟨scope, _, isScope, noted⟩ := run_bind_ok step
  obtain rfl := (Prod.mk.inj noted).2
  have same := congrArg Scope.body (scopes_of_run_declaredScope isScope).1
  exact same.trans kept

end Infer

namespace Session

variable (theory : Theory) (axioms : Axioms) (program : Program)

/-- An inference starts with the axioms and the program. -/
theorem ofProgram_start :
    let start := ofProgram theory axioms program
    start.theory = theory ∧ start.method = Term.noMethod ∧ axioms.log ≤ start.log ∧
      (∀ entry ∈ start.classes, entry.1.IsChecked theory start.log) ∧
      start.here.body = theory.survey.expand program.main.body := by
  obtain ⟨scope, log, is, opens⟩ := exists_ofProgram_eq theory axioms program
  rw [is]
  have noClass : (blank theory axioms program).classes = [] := rfl
  exact ⟨rfl, rfl, opens.grown, fun _ member => absurd (noClass ▸ member) not_mem_nil, opens.body⟩

variable {theory axioms program}

/-- What has been stated when an inference ends. -/
structure Completes (final : Session) (theory : Theory) (axioms : Axioms) (program : Program) :
    Prop where
  hasAxioms : axioms.log ≤ final.log
  checked : ∀ entry ∈ final.classes, entry.1.IsChecked theory final.log
  /-- The classes of the program have been inferred. -/
  classes : ∀ {c}, .classDef c ∈ program.main.body → ∃ entry ∈ final.classes,
    entry.1.name = c.name ∧ entry.1.bases = (Inheritance.parents c).eraseDups ∧
    entry.1.method = Term.noMethod

theorem completes_of_infer {final : Session}
    (done : (ofProgram theory axioms program).infer = (.ok (), final)) :
    final.Completes theory axioms program := by
  obtain ⟨isTheory, isMethod, hasAxioms, checked, isBody⟩ := ofProgram_start theory axioms program
  obtain ⟨⟨⟩, declared, isDeclared, rest⟩ := run_bind_ok done
  rw [run_get_bind, Infer.body_of_run_declarations isDeclared, isBody] at rest
  have grown := (Grows.le isDeclared).trans (Grows.le rest)
  have sameTheory := grown.theory.trans isTheory
  refine ⟨hasAxioms.trans grown.log, fun entry member => ?_, fun {c} member => ?_⟩
  · rcases grown.checked entry member with early | new
    · exact (checked entry early).mono grown.log
    · rwa [sameTheory] at new
  · obtain ⟨_, listed, same⟩ := Survey.exists_mem_expandTo _ member
    obtain ⟨⟨_, _, _, _, body, _⟩, rfl, isName, areBases⟩ := Stmt.exists_class_of_head same
    obtain ⟨start, finish, step, reached, left⟩ := Grows.exists_run_forM rest listed
    obtain ⟨value, _, inferred, last⟩ := run_bind_ok step
    obtain ⟨-, rfl⟩ := run_pure_ok last
    have each : ∀ step ∈ Stmt.inferEach Infer.importer body, Grows step :=
      Stmt.grows_inferEach inferInstance body
    obtain ⟨-, facts, object, kept, named, within, bases⟩ :=
      Infer.run_classDef_eq_ok (fun entry member => each entry.2 (of_mem_zip member).2) inferred
    refine ⟨(facts, object), left.classes _ kept, named.trans isName, ?_, ?_⟩
    · rw [bases]
      exact congrArg (fun bases => (((bases.filterMap Expr.id?).filter (· != "object")).eraseDups))
        areBases
    · rw [within, reached.method, (Grows.le isDeclared).method, isMethod]

end Session

end TypeInference
