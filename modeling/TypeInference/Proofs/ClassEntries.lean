/- The keys and bases under which a survey knows the classes of its program. -/

import TypeInference.Proofs.Classes

namespace TypeInference

open List Table

variable {name : String} {c : ClassDef} {classes : List ClassDef}

namespace Survey

variable {bases : List String} {settings : Settings} {survey : Survey}
  {next : Survey} {key : ClassKey}

theorem keyOf_name (params : TypeParams) (name : String) : (keyOf params name).name = name := by
  unfold keyOf
  split <;> rfl

variable {other : String} {base : Expr} {treated : List ClassDef}

theorem keyOf_eq_plain_iff {params : TypeParams} :
    keyOf params name = .plain other ↔ params.get? name = none ∧ name = other := by
  unfold keyOf
  split
  · next listed => simp [listed]
  · next none => simp [none]

/-- The bases of a class: besides the root, those that it inherits from. -/
structure AreBases (c : ClassDef) (bases : List String) : Prop where
  mem_parents_iff : ∀ {base}, base ∈ Inheritance.parents c ↔ base ∈ bases ∧ base ≠ "object"

theorem id?_of_isGenericBase (generic : isGenericBase base = .ok true) : base.id? = none := by
  cases base with
  | name line id usage => simp [isGenericBase] at generic
  | _ => rfl

/-- If no base is a class, all of them list type parameters. -/
theorem isGenericBase_of_splitBases {bases genericBases : List Expr}
    (done : splitBases bases = .ok ([], genericBases)) (member : base ∈ bases) :
    isGenericBase base = .ok true := by
  obtain ⟨marked, isMarked, is⟩ := bind_ok done
  obtain ⟨⟨other, generic⟩, inside, here⟩ :=
    forall₂_exists_right (mapM_eq_ok_iff.mp isMarked) member
  obtain ⟨mark, isMark, same⟩ := bind_ok here
  obtain ⟨rfl, rfl⟩ := Prod.ext_iff.mp (pure_ok same)
  have real := (Prod.ext_iff.mp (pure_ok is)).1
  have all : ∀ entry ∈ marked, entry.2 = true := by
    simpa [filter_eq_nil_iff] using real
  exact all _ inside ▸ isMark

theorem mapM_nameOf_eq {bases : List Expr} {names : List String}
    (done : bases.mapM nameOf = .ok names) : names = bases.filterMap Expr.id? := by
  have each := mapM_eq_ok_iff.mp done
  clear done
  induction each with
  | nil => rfl
  | @cons base name bases names here _ ih =>
    unfold nameOf at here
    split at here
    · next id isName => rw [filterMap_cons_some isName, ← ih, Except.ok.inj here]
    · simp at here

theorem areBases {realBases genericBases : List Expr}
    (split : splitBases c.bases = .ok (realBases, genericBases))
    (derived : realBases = [] ∧ bases = ["object"] ∨
      realBases ≠ [] ∧ c.bases.mapM nameOf = .ok bases) : AreBases c bases := by
  rcases derived with ⟨rfl, rfl⟩ | ⟨-, named⟩
  · have unnamed : c.bases.filterMap Expr.id? = [] := by
      rw [filterMap_eq_nil_iff]
      intro base member
      exact id?_of_isGenericBase (isGenericBase_of_splitBases split member)
    refine ⟨?_⟩
    simp [Inheritance.parents, unnamed]
  · refine ⟨?_⟩
    simp [Inheritance.parents, mapM_nameOf_eq named]

/-- No two classes have one name. A class may be listed twice. -/
def NamesAreDistinct (classes : List ClassDef) : Prop :=
  ∀ c ∈ classes, ∀ d ∈ classes, c.name = d.name → c = d

/-- A survey that knows exactly the given classes, each under its key. -/
structure Knows (survey : Survey) (classes : List ClassDef) : Prop where
  entry : ∀ c ∈ classes, ∃ bases, AreBases c bases ∧
    survey.classBases.get? (keyOf survey.classParams c.name) = some bases
  only : ∀ {key bases}, (key, bases) ∈ survey.classBases.entries →
    ∃ c ∈ classes, key = keyOf survey.classParams c.name ∧ AreBases c bases
  params : ∀ c ∈ classes, ∀ {real base rest listed},
    splitBases c.bases = .ok (real, base :: rest) → listedParams base = .ok listed →
    survey.classParams.get? c.name = some listed
  named : ∀ c ∈ classes, c.name ∈ survey.instanceAttrs.keys

/-- One class more: what was known of the others stays. -/
theorem Knows.addClass {members : List Stmt} (knows : survey.Knows treated)
    (distinct : ∀ d ∈ treated, d.name = c.name → d = c)
    (done : addClass settings survey c members = .ok next) : next.Knows (treated ++ [c]) := by
  obtain ⟨realBases, genericBases, bases, _, split, derived, -, isBases, -, isAttrs, -, -,
    isParams⟩ := addClass_eq_ok done
  have kept (d : ClassDef) (member : d ∈ treated) :
      next.classParams.get? d.name = survey.classParams.get? d.name := by
    rcases isParams with ⟨same, -⟩ | ⟨base, rest, listed, rfl, isListed, is⟩
    · rw [same]
    · by_cases again : d.name = c.name
      · obtain rfl := distinct d member again
        rw [is, get?_insert_self, knows.params d member split isListed]
      · rw [is, get?_insert_of_ne _ _ again]
  refine ⟨?_, ?_, ?_, ?_⟩
  · intro d member
    by_cases again : d.name = c.name
    · refine ⟨bases, ?_, ?_⟩
      · rcases mem_append.mp member with before | last
        · exact distinct d before again ▸ areBases split derived
        · exact mem_singleton.mp last ▸ areBases split derived
      · rw [isBases, again, get?_insert_self]
    · have before : d ∈ treated := by
        refine (mem_append.mp member).resolve_right fun last => again ?_
        rw [mem_singleton.mp last]
      obtain ⟨own, areOwn, found⟩ := knows.entry d before
      refine ⟨own, areOwn, ?_⟩
      have other : keyOf next.classParams d.name ≠ keyOf next.classParams c.name := by
        intro same
        have names := congrArg ClassKey.name same
        rw [keyOf_name, keyOf_name] at names
        exact again names
      rw [isBases, get?_insert_of_ne _ _ other, keyOf, kept d before]
      exact found
  · intro key others entry
    rw [isBases] at entry
    rcases mem_entries_insert entry with new | old
    · obtain ⟨rfl, rfl⟩ := Prod.mk.inj new
      exact ⟨c, mem_append_right _ mem_cons_self, rfl, areBases split derived⟩
    · obtain ⟨d, member, isKey, areOwn⟩ := knows.only old
      exact ⟨d, mem_append_left _ member, by rw [isKey, keyOf, keyOf, kept d member], areOwn⟩
  · intro d member real base rest listed ofD isListed
    rcases mem_append.mp member with before | last
    · rw [kept d before, knows.params d before ofD isListed]
    · obtain rfl := mem_singleton.mp last
      obtain ⟨-, rfl⟩ := Prod.ext_iff.mp (Except.ok.inj (split.symm.trans ofD))
      rcases isParams with ⟨-, none⟩ | ⟨other, others, params, same, isOther, is⟩
      · simp at none
      · obtain ⟨rfl, -⟩ := List.cons.inj same
        obtain rfl := Except.ok.inj (isListed.symm.trans isOther)
        rw [is, get?_insert_self]
  · intro d member
    rw [isAttrs, mem_keys_insert]
    rcases mem_append.mp member with before | last
    · exact .inr (knows.named d before)
    · exact .inl (congrArg ClassDef.name (mem_singleton.mp last))

/-- A whole run, by induction on the classes that are left. -/
theorem Knows.foldlM {rest : List ClassDef} {members : Survey → ClassDef → List Stmt}
    (knows : survey.Knows treated) (distinct : NamesAreDistinct (treated ++ rest))
    (done : rest.foldlM (fun survey c => Survey.addClass settings survey c (members survey c))
      survey = .ok next) : next.Knows (treated ++ rest) := by
  induction rest generalizing treated survey with
  | nil =>
    obtain rfl := pure_ok done
    rwa [append_nil]
  | cons c rest ih =>
    obtain ⟨middle, first, done⟩ := bind_ok done
    have apart (d : ClassDef) (member : d ∈ treated) (same : d.name = c.name) : d = c :=
      distinct d (mem_append_left _ member) c (by simp) same
    rw [append_cons] at distinct ⊢
    exact ih (knows.addClass apart first) distinct done

theorem addClasses_knows (empty : survey.classBases = {}) (distinct : NamesAreDistinct classes)
    (done : survey.addClasses settings classes = .ok next) : next.Knows classes := by
  obtain ⟨inheritance, -, done⟩ := bind_ok done
  have start : Knows { survey with
      inheritance := inheritance
      additions := addMembers inheritance classes } [] := by
    refine ⟨by simp, ?_, by simp, by simp⟩
    intro key bases entry
    simp [empty] at entry
  exact start.foldlM distinct done

/-- The classes of a program and of the declarations that it uses. -/
def classesOf (program : Program) : Except Fault (List ClassDef) := do
  let selection ← Library.standard.selectAll (namesUsed program.nodes)
  pure (classDefs (program.nodes ++ declaredNodes Library.standard selection))

/-- The survey of a program follows inheritance and knows its classes, if their names differ. -/
theorem ofProgram_knows {base : Option String} {program : Program}
    {funcParams classParams : TypeParams}
    (done : ofProgram settings base program funcParams classParams = .ok survey) :
    ∃ classes inheritance, classesOf program = .ok classes ∧
      Inheritance.ofClasses classes = .ok inheritance ∧
      ∃ before : Survey, survey = before.completeClasses ∧
        (NamesAreDistinct classes → before.Knows classes) := by
  obtain ⟨selection, _, _, _, selected, isClasses, -, is⟩ := ofProgram_eq_ok done
  obtain ⟨inheritance, inherited, -⟩ := bind_ok isClasses
  refine ⟨_, inheritance, bind_eq_ok_iff.mpr ⟨selection, selected, rfl⟩, inherited, _, is,
    fun distinct => ?_⟩
  obtain ⟨entry, only, params, named⟩ := addClasses_knows rfl distinct isClasses
  exact ⟨entry, only, params, named⟩

/-- A base of a class as a class of the type sort. -/
def sortBase (base : String) : String := if base == "object" then base else "class_" ++ base

def sortKey (key : ClassKey) : ClassKey := (sortClass key []).1

theorem class_append_injective (same : "class_" ++ name = "class_" ++ other) : name = other := by
  have letters := congrArg String.toList same
  simpa [String.ext_iff] using letters

theorem sortKey_injective {other : ClassKey} (same : sortKey key = sortKey other) :
    key = other := by
  cases key with
  | plain name =>
    cases other with
    | plain otherName => exact congrArg _ (class_append_injective (ClassKey.plain.inj same))
    | generic otherName accessors => simp [sortKey, sortClass] at same
  | generic name accessors =>
    cases other with
    | plain otherName => simp [sortKey, sortClass] at same
    | generic otherName otherAccessors =>
      obtain ⟨names, rfl⟩ := ClassKey.generic.inj same
      rw [class_append_injective names]

theorem sortBase_eq_iff {base : String} :
    sortBase base = "class_" ++ name ↔ base ≠ "object" ∧ base = name := by
  unfold sortBase
  by_cases root : base = "object"
  · simp only [root, ne_eq, not_true_eq_false, false_and, iff_false]
    exact (append_ne (by decide) name).symm
  · rw [if_neg (by simpa using root)]
    exact ⟨fun same => ⟨root, class_append_injective same⟩, fun same => same.2 ▸ rfl⟩

/-- A class with such a name is a class of the program. -/
theorem exists_own_of_mem (entry : (key, bases) ∈ survey.completeClasses.allClasses.entries)
    (named : key.name = "class_" ++ name) :
    ∃ own others, (own, others) ∈ survey.classBases.entries ∧ isAliasedType own.name = false ∧
      key = sortKey own ∧ bases = others.map sortBase := by
  have member := mem_of_mem_ofList entry
  simp only [mem_append, mem_map, mem_filter] at member
  have starts : "class_".toList <+: key.name.toList := by simp [named]
  rcases member with ((builtin | ⟨length, -, is⟩) | ⟨args, -, is⟩) | ⟨⟨own, others⟩, listed, is⟩
  · have away : ∀ entry ∈ builtinClasses, ¬ "class_".toList <+: entry.1.name.toList := by decide
    exact absurd starts (away _ builtin)
  · obtain ⟨rfl, -⟩ := Prod.ext_iff.mp is
    simp [tupleClass_name] at starts
  · obtain ⟨rfl, -⟩ := Prod.ext_iff.mp is
    simp [functionClass_name] at starts
  · obtain ⟨rfl, rfl⟩ := Prod.ext_iff.mp is
    exact ⟨own, others, listed.1, by simpa using listed.2, rfl, rfl⟩

/-- The table has the built-in classes as they are listed. -/
theorem mem_allClasses_of_builtin (survey : Survey) (builtin : (key, bases) ∈ builtinClasses) :
    (key, bases) ∈ survey.completeClasses.allClasses.entries := by
  have listed : key ∈ survey.completeClasses.allClasses.keys := by
    rw [allClasses_completeClasses, mem_keys_ofList]
    simp only [map_append, mem_append]
    exact .inl (.inl (.inl (mem_map_of_mem builtin)))
  obtain ⟨⟨same, others⟩, entry, isKey⟩ := mem_map.mp listed
  obtain rfl : same = key := isKey
  have once : ∀ first ∈ builtinClasses, ∀ second ∈ builtinClasses,
      first.1 = second.1 → first.2 = second.2 := by decide
  have away : ∀ entry ∈ builtinClasses, ¬ "tuple_".toList <+: entry.1.name.toList ∧
      ¬ "func_".toList <+: entry.1.name.toList ∧ ¬ "class_".toList <+: entry.1.name.toList := by
    decide
  obtain ⟨notTuple, notFunction, notOwn⟩ := away _ builtin
  have known := isSortClass_of_mem entry
  generalize isOther : same = other at known
  cases known with
  | builtin member =>
    subst isOther
    have same : bases = others := once _ builtin _ member rfl
    exact same ▸ entry
  | tuple length => simp [isOther, tupleClass_name] at notTuple
  | function args => simp [isOther, functionClass_name] at notFunction
  | own key bases => simp [isOther, sortClass_name] at notOwn

section Entries

variable {survey : Survey} {classes : List ClassDef} (knows : survey.Knows classes)
include knows

/-- A plain class of the type sort with the name of one of the program is that class. -/
theorem Knows.of_mem
    (entry : (.plain ("class_" ++ name), bases) ∈ survey.completeClasses.allClasses.entries) :
    ∃ c ∈ classes, c.name = name ∧ isAliasedType name = false ∧
      survey.classParams.get? name = none ∧
      ∃ own, AreBases c own ∧ bases = own.map sortBase := by
  obtain ⟨key, own, listed, notAliased, isKey, isBases⟩ := exists_own_of_mem entry rfl
  obtain rfl : .plain name = key := sortKey_injective isKey
  obtain ⟨c, member, isClass, areBases⟩ := knows.only listed
  obtain ⟨none, rfl⟩ := keyOf_eq_plain_iff.mp isClass.symm
  exact ⟨c, member, rfl, notAliased, none, own, areBases, isBases⟩

theorem Knows.exists_mem (distinct : NamesAreDistinct classes) (member : c ∈ classes)
    (notAliased : isAliasedType c.name = false) :
    ∃ own, AreBases c own ∧ (sortKey (keyOf survey.classParams c.name), own.map sortBase) ∈
      survey.completeClasses.allClasses.entries := by
  obtain ⟨bases, -, found⟩ := knows.entry c member
  have listed : sortKey (keyOf survey.classParams c.name) ∈ survey.completeClasses.sortClasses := by
    refine mem_sortClasses_iff.mpr (.inr (.inr (.inr (mem_map_of_mem ?_))))
    refine mem_filter.mpr ⟨mem_map_of_mem (mem_of_get? found), ?_⟩
    simp [keyOf_name, notAliased]
  have named : (sortKey (keyOf survey.classParams c.name)).name = "class_" ++ _ :=
    sortClass_name (keyOf survey.classParams c.name) []
  rcases mem_cons.mp listed with root | inside
  · rw [root] at named
    exact absurd named.symm (append_ne (by decide) _)
  · obtain ⟨⟨key, own⟩, entry, isKey⟩ := mem_map.mp inside
    obtain rfl : key = _ := isKey
    obtain ⟨other, others, ofOther, -, sameKey, rfl⟩ := exists_own_of_mem entry named
    obtain ⟨d, isClass, isOther, areBases⟩ := knows.only ofOther
    have sameName : c.name = d.name := by
      have names := congrArg ClassKey.name ((sortKey_injective sameKey).trans isOther)
      rwa [keyOf_name, keyOf_name] at names
    obtain rfl := distinct c member d isClass sameName
    exact ⟨others, areBases, entry⟩

end Entries

end Survey

namespace Inheritance

theorem mem_of_get?_bases {found : List String} (isFound : (bases classes).get? name = some found) :
    ∃ c ∈ classes, c.name = name ∧ parents c = found := by
  have entry := mem_of_mem_ofList (mem_of_get? isFound)
  obtain ⟨c, member, is⟩ := mem_map.mp entry
  exact ⟨c, member, Prod.mk.inj is⟩

theorem get?_bases (distinct : Survey.NamesAreDistinct classes) (member : c ∈ classes) :
    (bases classes).get? c.name = some (parents c) := by
  have known : c.name ∈ (bases classes).keys := by
    refine mem_keys_ofList.mpr ?_
    rw [map_map]
    exact mem_map_of_mem member
  obtain ⟨⟨name, found⟩, entry, isName⟩ := mem_map.mp known
  obtain ⟨d, isClass, is⟩ := mem_map.mp (mem_of_mem_ofList entry)
  obtain ⟨rfl, rfl⟩ := Prod.mk.inj is
  obtain rfl := distinct d isClass c member isName
  exact (get?_eq_some_iff (nodup_keys_ofList _)).mpr entry

/-- If inheritance can be followed, then each class has an order. -/
theorem exists_linearize {inheritance : Inheritance} (done : ofClasses classes = .ok inheritance)
    (member : c ∈ classes) : ∃ order, (bases classes).linearize c.name = .ok order := by
  refine foldlM_reaches (fun _ => ∃ order, (bases classes).linearize c.name = .ok order) done
    member ?_ ?_
  · intro before after added
    obtain ⟨order, isOrder, -⟩ := bind_ok added
    exact ⟨order, isOrder⟩
  · intro other _ before after kept _
    exact kept

end Inheritance

end TypeInference
