/- What is read of the parts of a hint if the whole is read as a type. -/

import TypeInference.Proofs.Faults
import TypeInference.Proofs.HintForms

namespace TypeInference

open List

namespace Hint

variable {args : List Term} {meanings : List Meaning} {line : Nat}

theorem term?_eq_some_iff {meaning : Meaning} {t : Term} :
    meaning.toTerm = .ok t ↔ meaning.term? = some t := by
  unfold Meaning.toTerm
  split <;> simp_all

theorem exists_accessors_of_apply {sort : TypeSort} {name : String} {whole : Term}
    (done : sort.apply name args = .ok whole) : ∃ accessors, sort.accessors? name = some accessors ∧
      accessors ≠ [] ∧ accessors.length = args.length ∧ whole = .con name args := by
  unfold TypeSort.apply at done
  split at done
  · cases done
  · cases done
  · next accessors generic known =>
    split at done
    · next fits => exact ⟨accessors, known, generic, fits, (Except.ok.inj done).symm⟩
    · cases done

theorem primitives_atom : ∀ entry ∈ primitives, entry.2 = .tuple ∨ entry.2 = .atom entry.1 := by
  decide

theorem exists_id_of_typeVar? {setting : Setting} {name : String} {t : Term}
    (found : setting.typeVar? name = .ok (some t)) : ∃ id, t = .typeVar id := by
  unfold Setting.typeVar? at found
  split at found
  case h_3 => cases found
  all_goals
    obtain ⟨id, -, is⟩ := Option.map_eq_some_iff.mp (Except.ok.inj found)
    exact ⟨id, is.symm⟩

/-- What has been read are the given terms. -/
def AreTerms (meanings : List Meaning) (ts : List Term) : Prop :=
  Forall₂ (fun meaning t => meaning.term? = some t) meanings ts

section

variable {setting : Setting} {before after : Progress} {meaning : Meaning} {name : String}

theorem run_toTerm_eq_ok {inner : Meaning} {con : Term → Term}
    (done : (do pure (Meaning.term (con (← inner.toTerm))) : Reading Meaning).run before =
      (.ok meaning, after)) :
    before = after ∧ ∃ s, inner.term? = some s ∧ meaning = .term (con s) := by
  obtain ⟨s, isOk, done⟩ := run_lift_bind_ok done
  obtain ⟨rfl, rfl⟩ := run_pure_ok done
  exact ⟨rfl, s, term?_eq_some_iff.mp isOk, rfl⟩

theorem run_terms_eq_ok {ts : List Term} (done : (terms meanings).run before = (.ok ts, after)) :
    before = after ∧ AreTerms meanings ts := by
  rw [terms, run_mapM_lift] at done
  obtain ⟨each, rfl⟩ := Prod.mk.inj done
  exact ⟨rfl, (mapM_eq_ok_iff.mp each).imp fun _ _ => term?_eq_some_iff.mp⟩

theorem run_tupleOf_eq_ok {components : List Meaning}
    (done : (tupleOf setting components).run before = (.ok meaning, after)) :
    before = after ∧ ∃ ts, AreTerms components ts ∧ ts.length ≤ setting.theory.sort.maxTuple ∧
      meaning = .term (.con ("tuple_" ++ toString ts.length) ts) := by
  rw [tupleOf] at done
  split at done
  · obtain ⟨_, _, failed, -⟩ := run_bind_ok done
    exact absurd failed run_throw_ne_ok
  · obtain ⟨ts, _, areTerms, done⟩ := run_bind_ok done
    obtain ⟨whole, isWhole, rfl⟩ := run_map_ok done
    obtain ⟨rfl, each⟩ := run_terms_eq_ok areTerms
    obtain ⟨isTuple, rfl⟩ := run_lift_ok isWhole
    unfold TypeSort.tuple at isTuple
    split at isTuple
    · next fits =>
      exact ⟨rfl, ts, each, fits, congrArg Meaning.term (Except.ok.inj isTuple).symm⟩
    · cases isTuple

theorem run_functionOf_eq_ok {params : List Meaning} {result : Meaning}
    (done : (functionOf setting params result).run before = (.ok meaning, after)) :
    before = after ∧ ∃ ts r, AreTerms params ts ∧ result.term? = some r ∧
      ts.length ≤ setting.theory.sort.maxFunc ∧
      meaning = .term (.con ("func_" ++ toString ts.length) (.num 0 :: (ts ++ [r]))) := by
  rw [functionOf] at done
  split at done
  · obtain ⟨_, _, failed, -⟩ := run_bind_ok done
    exact absurd failed run_throw_ne_ok
  · obtain ⟨ts, _, areTerms, done⟩ := run_bind_ok done
    obtain ⟨r, _, isResult, done⟩ := run_bind_ok done
    obtain ⟨whole, isWhole, rfl⟩ := run_map_ok done
    obtain ⟨rfl, each⟩ := run_terms_eq_ok areTerms
    obtain ⟨isOk, rfl⟩ := run_lift_ok isResult
    obtain ⟨isFunction, rfl⟩ := run_lift_ok isWhole
    unfold TypeSort.func at isFunction
    split at isFunction
    · next fits =>
      exact ⟨rfl, ts, r, each, term?_eq_some_iff.mp isOk, fits,
        congrArg Meaning.term (Except.ok.inj isFunction).symm⟩
    · cases isFunction

theorem run_classOf_eq_ok {args : List Meaning}
    (done : (classOf setting name args).run before = (.ok meaning, after)) :
    before = after ∧ ∃ ts accessors, AreTerms args ts ∧
      setting.theory.sort.accessors? ("class_" ++ name) = some accessors ∧ accessors ≠ [] ∧
      accessors.length = ts.length ∧ meaning = .term (.con ("class_" ++ name) ts) := by
  rw [classOf] at done
  split at done
  · exact absurd done run_throw_ne_ok
  · obtain ⟨ts, _, areTerms, done⟩ := run_bind_ok done
    obtain ⟨whole, isWhole, rfl⟩ := run_map_ok done
    obtain ⟨rfl, each⟩ := run_terms_eq_ok areTerms
    obtain ⟨isApplied, rfl⟩ := run_lift_ok isWhole
    obtain ⟨accessors, known, generic, fits, is⟩ := exists_accessors_of_apply isApplied
    exact ⟨rfl, ts, accessors, each, known, generic, fits, congrArg Meaning.term is⟩

/-- A name is a primitive type, a class or a type variable. -/
theorem run_resolveName_eq_ok {readOptions} {mode : VarMode} {text : String}
    (done : (resolveName setting readOptions mode text line).run before = (.ok meaning, after)) :
    (∃ t, (baseName text, t) ∈ primitives ∧ meaning = .term t ∧ before = after) ∨
      baseName text ∉ primitives.map (·.1) ∧
        (baseName text ∈ setting.theory.classNames ∧
            setting.classType (baseName text) = .ok meaning ∧ before = after ∨
          baseName text ∉ setting.theory.classNames ∧
            (setting.instantiates mode (baseName text) = .ok true ∧
                (instanceOf setting readOptions (baseName text) line).run before =
                  (.ok meaning, after) ∨
              setting.instantiates mode (baseName text) = .ok false ∧ ∃ t,
                setting.typeVar? (baseName text) = .ok (some t) ∧ meaning = .term t ∧
                  before = after)) := by
  rw [resolveName] at done
  split at done
  · next entry type known =>
    obtain ⟨rfl, rfl⟩ := run_pure_ok done
    have isName : entry = baseName text := by simpa using find?_some known
    exact .inl ⟨type, isName ▸ mem_of_find?_eq_some known, rfl, rfl⟩
  · next unknown =>
    have notPrimitive : baseName text ∉ primitives.map (·.1) := by
      intro member
      obtain ⟨entry, inside, is⟩ := mem_map.mp member
      exact find?_eq_none.mp unknown entry inside (beq_iff_eq.mpr is)
    refine .inr ⟨notPrimitive, ?_⟩
    split at done
    · next isClass =>
      exact .inl ⟨contains_iff_mem.mp isClass, run_lift_ok done⟩
    · next notClass =>
      refine .inr ⟨mt contains_iff_mem.mpr notClass, ?_⟩
      obtain ⟨isInstance, isAsked, done⟩ := run_lift_bind_ok done
      cases isInstance with
      | true => exact .inl ⟨isAsked, done⟩
      | false =>
        obtain ⟨found, isVar, done⟩ := run_lift_bind_ok done
        cases found with
        | none => exact absurd done run_throw_ne_ok
        | some type =>
          obtain ⟨rfl, rfl⟩ := run_pure_ok done
          exact .inr ⟨isAsked, type, isVar, rfl, rfl⟩

/-- Only a class without type arguments is a term. -/
theorem classType_eq_ok {t : Term} (done : setting.classType name = .ok meaning)
    (isTerm : meaning.term? = some t) :
    setting.theory.sort.accessors? ("class_" ++ name) = some [] ∧ t = .atom ("class_" ++ name) := by
  unfold Setting.classType at done
  split at done
  · cases done
  · next plain =>
    obtain rfl := Except.ok.inj done
    exact ⟨plain, (Option.some.inj isTerm).symm⟩
  · obtain rfl := Except.ok.inj done
    cases isTerm

end

/-- The hint can be read as a type. -/
def Yields (setting : Setting) (hint : Hint) (t : Term) : Prop :=
  ∃ readOptions progress after meaning,
    (resolveWith setting readOptions .fixed hint).run progress = (.ok meaning, after) ∧
      meaning.term? = some t

namespace Yields

variable {setting : Setting} {hint : Hint} {hints : List Hint} {t : Term} {readOptions}
  {progress after : Progress} {meaning : Meaning}

theorem noneType (yields : Yields setting .noneType t) : t = .none := by
  obtain ⟨_, _, _, _, read, isTerm⟩ := yields
  obtain ⟨rfl, -⟩ := run_pure_ok read
  exact (Option.some.inj isTerm).symm

theorem not_invalid {fault : Fault} : ¬ Yields setting (.invalid fault) t := by
  rintro ⟨_, _, _, _, read, -⟩
  exact run_throw_ne_ok read

/-- No type variable is instantiated. -/
theorem name {text : String} (yields : Yields setting (.name text line) t) :
    (baseName text, t) ∈ primitives ∨ baseName text ∉ primitives.map (·.1) ∧
      (baseName text ∈ setting.theory.classNames ∧
          setting.theory.sort.accessors? ("class_" ++ baseName text) = some [] ∧
          t = .atom ("class_" ++ baseName text) ∨
        baseName text ∉ setting.theory.classNames ∧
          setting.typeVar? (baseName text) = .ok (some t)) := by
  obtain ⟨readOptions, progress, after, meaning, read, isTerm⟩ := yields
  rcases run_resolveName_eq_ok read with ⟨_, member, rfl, -⟩ | ⟨notPrimitive, ⟨isClass, isType, -⟩ |
    ⟨notClass, ⟨isTrue, -⟩ | ⟨-, _, isVar, rfl, -⟩⟩⟩
  · obtain rfl := Option.some.inj isTerm
    exact .inl member
  · exact .inr ⟨notPrimitive, .inl ⟨isClass, classType_eq_ok isType isTerm⟩⟩
  · cases isTrue
  · obtain rfl := Option.some.inj isTerm
    exact .inr ⟨notPrimitive, .inr ⟨notClass, isVar⟩⟩

/-- A hint around another one. -/
theorem of_bind_toTerm {con : Term → Term}
    (read : (do
      let arg ← resolveWith setting readOptions .fixed hint
      pure (Meaning.term (con (← arg.toTerm)))).run progress = (.ok meaning, after))
    (isTerm : meaning.term? = some t) : ∃ s, t = con s ∧ Yields setting hint s := by
  obtain ⟨arg, mid, isArg, read⟩ := run_bind_ok read
  obtain ⟨-, s, isTermArg, rfl⟩ := run_toTerm_eq_ok read
  exact ⟨s, (Option.some.inj isTerm).symm, readOptions, progress, mid, arg, isArg, isTermArg⟩

theorem list (yields : Yields setting (.list hint) t) :
    ∃ s, t = .list s ∧ Yields setting hint s := by
  obtain ⟨_, _, _, _, read, isTerm⟩ := yields
  exact of_bind_toTerm read isTerm

theorem set (yields : Yields setting (.set hint) t) : ∃ s, t = .set s ∧ Yields setting hint s := by
  obtain ⟨_, _, _, _, read, isTerm⟩ := yields
  exact of_bind_toTerm read isTerm

theorem typeOf (yields : Yields setting (.typeOf hint) t) :
    ∃ s, t = .type s ∧ Yields setting hint s := by
  obtain ⟨_, _, _, _, read, isTerm⟩ := yields
  exact of_bind_toTerm read isTerm

theorem dict {value : Hint} (yields : Yields setting (.dict hint value) t) :
    ∃ k v, t = .dict k v ∧ Yields setting hint k ∧ Yields setting value v := by
  obtain ⟨readOptions, progress, _, _, read, isTerm⟩ := yields
  obtain ⟨key, mid, isKey, read⟩ := run_bind_ok read
  obtain ⟨val, last, isValue, read⟩ := run_bind_ok read
  obtain ⟨k, _, isTermKey, read⟩ := run_bind_ok read
  obtain ⟨-, v, isTermValue, rfl⟩ := run_toTerm_eq_ok read
  have isTermKey := term?_eq_some_iff.mp (run_lift_ok isTermKey).1
  exact ⟨k, v, (Option.some.inj isTerm).symm,
    ⟨readOptions, progress, mid, key, isKey, isTermKey⟩,
    ⟨readOptions, mid, last, val, isValue, isTermValue⟩⟩

section

variable
  (read : (resolveAllWith setting readOptions .fixed hints).run progress = (.ok meanings, after))
include read

theorem of_resolveAllWith :
    Forall₂ (fun hint meaning => ∀ t, meaning.term? = some t → Yields setting hint t)
      hints meanings := by
  induction hints generalizing progress after meanings with
  | nil =>
    obtain ⟨rfl, -⟩ := run_pure_ok read
    exact .nil
  | cons hint hints ih =>
    obtain ⟨first, mid, isFirst, read⟩ := run_bind_ok read
    obtain ⟨others, areOthers, rfl⟩ := run_map_ok read
    exact .cons (fun t isTerm => ⟨readOptions, progress, mid, first, isFirst, isTerm⟩)
      (ih areOthers)

/-- Hints that are read together yield their terms. -/
theorem of_all {ts : List Term} (areTerms : AreTerms meanings ts) :
    Forall₂ (Yields setting) hints ts :=
  forall₂_trans (fun _ _ t yields isTerm => yields t isTerm) (of_resolveAllWith read) areTerms

end

theorem tuple (yields : Yields setting (.tuple hints) t) :
    ∃ ts, t = .con ("tuple_" ++ toString ts.length) ts ∧
      ts.length ≤ setting.theory.sort.maxTuple ∧ Forall₂ (Yields setting) hints ts := by
  obtain ⟨readOptions, progress, _, _, read, isTerm⟩ := yields
  obtain ⟨meanings, _, areMeanings, read⟩ := run_bind_ok read
  obtain ⟨-, ts, areTerms, fits, rfl⟩ := run_tupleOf_eq_ok read
  exact ⟨ts, (Option.some.inj isTerm).symm, fits, of_all areMeanings areTerms⟩

theorem callable {result : Hint} (yields : Yields setting (.callable hints result) t) :
    ∃ ts r, t = .con ("func_" ++ toString ts.length) (.num 0 :: (ts ++ [r])) ∧
      ts.length ≤ setting.theory.sort.maxFunc ∧ Forall₂ (Yields setting) hints ts ∧
      Yields setting result r := by
  obtain ⟨readOptions, progress, _, _, read, isTerm⟩ := yields
  obtain ⟨meanings, _, areMeanings, read⟩ := run_bind_ok read
  obtain ⟨returned, _, isReturned, read⟩ := run_bind_ok read
  obtain ⟨-, ts, r, areTerms, isTermResult, fits, rfl⟩ := run_functionOf_eq_ok read
  exact ⟨ts, r, (Option.some.inj isTerm).symm, fits, of_all areMeanings areTerms, readOptions, _, _,
    returned, isReturned, isTermResult⟩

variable {name : String} {e : Expr}

/-- A class with arguments yields itself with theirs. -/
theorem applied {args : Option (List Hint)} (yields : Yields setting (.applied name args line) t) :
    name ∈ setting.theory.classNames ∧ ∃ hints ts accessors, args = some hints ∧
      setting.theory.sort.accessors? ("class_" ++ name) = some accessors ∧ accessors ≠ [] ∧
      accessors.length = ts.length ∧ t = .con ("class_" ++ name) ts ∧
      Forall₂ (Yields setting) hints ts := by
  obtain ⟨readOptions, progress, _, meaning, read, isTerm⟩ := yields
  rw [resolveWith_applied] at read
  split at read
  · next isClass =>
    refine ⟨contains_iff_mem.mp isClass, ?_⟩
    split at read
    · cases args with
      | none => exact absurd read run_throw_ne_ok
      | some hints =>
        obtain ⟨meanings, _, areMeanings, read⟩ := run_bind_ok read
        obtain ⟨-, ts, accessors, areTerms, known, generic, fits, rfl⟩ := run_classOf_eq_ok read
        exact ⟨hints, ts, accessors, rfl, known, generic, fits, (Option.some.inj isTerm).symm,
          of_all areMeanings areTerms⟩
    · exact absurd read run_throw_ne_ok
  · exact absurd read run_throw_ne_ok

theorem union (yields : Yields setting (.union hints line) t) :
    ∃ constant, t = .const constant := by
  obtain ⟨readOptions, progress, _, meaning, read, isTerm⟩ := yields
  obtain ⟨meanings, _, -, read⟩ := run_bind_ok read
  obtain ⟨constant, _, isFresh, read⟩ := run_bind_ok read
  obtain ⟨_, _, -, read⟩ := run_bind_ok read
  obtain ⟨_, -, rfl⟩ := run_map_ok read
  obtain rfl := Option.some.inj isTerm
  obtain ⟨isConstant, -⟩ := Prod.mk.inj isFresh
  exact ⟨_, (Except.ok.inj isConstant).symm⟩

/-- Only a hint with the name of a class yields it with arguments. -/
theorem exists_applied (nonempty : args ≠ [])
    (yields : Yields setting hint (.con ("class_" ++ name) args)) :
    (∃ own line, hint = .applied name own line) ∨
      ∃ inner, hint = .optional inner ∧ Yields setting inner (.con ("class_" ++ name) args) := by
  have differs {other : String} {others : List Term} (away : ¬ "class_".toList <+: other.toList) :
      Term.con ("class_" ++ name) args ≠ .con other others := by
    intro same
    exact append_ne away _ (Term.con.inj same).1
  cases hint with
  | noneType => exact absurd yields.noneType (differs (by decide))
  | invalid fault => exact absurd yields not_invalid
  | optional inner => exact .inr ⟨inner, rfl, yields⟩
  | list element =>
    obtain ⟨_, is, -⟩ := yields.list
    exact absurd is (differs (by decide))
  | set element =>
    obtain ⟨_, is, -⟩ := yields.set
    exact absurd is (differs (by decide))
  | typeOf object =>
    obtain ⟨_, is, -⟩ := yields.typeOf
    exact absurd is (differs (by decide))
  | dict key value =>
    obtain ⟨_, _, is, -⟩ := yields.dict
    exact absurd is (differs (by decide))
  | tuple components =>
    obtain ⟨_, is, -⟩ := yields.tuple
    exact absurd is (differs (by simp))
  | callable params result =>
    obtain ⟨_, _, is, -⟩ := yields.callable
    exact absurd is (differs (by simp))
  | union options line =>
    obtain ⟨_, is⟩ := yields.union
    cases is
  | applied className own line =>
    obtain ⟨-, _, _, _, -, -, -, -, is, -⟩ := yields.applied
    have same : name = className := (String.append_right_inj _).mp (Term.con.inj is).1
    exact .inl ⟨own, line, by rw [same]⟩
  | name text line =>
    exfalso
    rcases yields.name with primitive | ⟨-, ⟨-, -, is⟩ | ⟨-, isVar⟩⟩
    · rcases primitives_atom _ primitive with is | is <;> exact nonempty (Term.con.inj is).2
    · exact nonempty (Term.con.inj is).2
    · obtain ⟨_, is⟩ := exists_id_of_typeVar? isVar
      exact nonempty (Term.con.inj is).2

theorem notForm_of_ofExpr {args : Option (List Hint)} (is : ofExpr e = .applied name args line) :
    name ∉ formNames := by
  rw [ofExpr.eq_def] at is
  split at is <;> try cases is
  split at is
  all_goals cases is
  all_goals
    simp only [formNames, mem_cons, not_mem_nil, or_false, not_or]
    exact ⟨‹_›, ‹_›, ‹_›, ‹_›, ‹_›, ‹_›, ‹_›, ‹_›⟩

theorem exists_ofExpr_of_optional {inner : Hint} (is : ofExpr e = .optional inner) :
    ∃ index, inner = ofExpr index ∧ sizeOf index < sizeOf e := by
  rw [ofExpr.eq_def] at is
  split at is <;> try cases is
  split at is
  all_goals cases is
  refine ⟨_, rfl, ?_⟩
  simp only [Expr.subscript.sizeOf_spec]
  omega

/-- No class with arguments is called like a form. -/
theorem notForm (nonempty : args ≠ [])
    (yields : Yields setting (ofExpr e) (.con ("class_" ++ name) args)) : name ∉ formNames := by
  obtain ⟨bound, small⟩ : ∃ bound, sizeOf e < bound := ⟨_, Nat.lt_succ_self _⟩
  induction bound generalizing e with
  | zero => exact absurd small (Nat.not_lt_zero _)
  | succ bound ih =>
    rcases yields.exists_applied nonempty with ⟨own, line, is⟩ | ⟨inner, is, inside⟩
    · exact notForm_of_ofExpr is
    · obtain ⟨index, rfl, smaller⟩ := exists_ofExpr_of_optional is
      exact ih inside (by omega)

end Yields

end Hint

end TypeInference
