/- The methods and attributes that a survey lists for a class. -/

import TypeInference.Proofs.RepeatedClasses

namespace TypeInference

open List Stmt

variable {c d : ClassDef} {classes ancestors line : List ClassDef} {name attr : String}
  {stmt : Stmt} {order : List String}

namespace Stmt

/-- What a statement in the body of a class makes an attribute of the class. -/
def attributes : Stmt → List String
  | .functionDef f => [f.name]
  | .assign _ targets _ => targets.filterMap Expr.id?
  | _ => []

theorem attributes_eq_of_head {other : Stmt} (same : other.head = stmt.head) :
    other.attributes = stmt.attributes := by
  have head (stmt : Stmt) : stmt.head.attributes = stmt.attributes := by cases stmt <;> rfl
  rw [← head, same, head]

theorem mem_attributes_of_methodName? (is : stmt.methodName? = some attr) :
    attr ∈ stmt.attributes := by
  cases stmt with
  | functionDef f => exact mem_singleton.mpr (Option.some.inj is).symm
  | _ => cases is

theorem mem_attributes_of_assignedName? (is : stmt.assignedName? = some attr) :
    attr ∈ stmt.attributes := by
  unfold assignedName? at is
  split at is
  · obtain rfl := Option.some.inj is
    exact mem_cons_self
  · cases is

end Stmt

namespace Inheritance

variable {nameOf : Stmt → Option String}

/-- The definitions of a name in the first of some classes that has one. -/
def definitionsAlong (nameOf : Stmt → Option String) (line : List ClassDef) (name : String) :
    List Stmt :=
  ((line.find? (defines nameOf name)).map fun d => definitions nameOf name d.body).getD []

theorem mem_definitionsAlong_iff :
    stmt ∈ definitionsAlong nameOf line name ↔
      nameOf stmt = some name ∧ ∃ d, line.find? (defines nameOf name) = some d ∧ stmt ∈ d.body := by
  unfold definitionsAlong definitions
  cases line.find? (defines nameOf name) with
  | none => simp
  | some d => simp [and_comm]

/-- If a class of a line defines a name, the first such class gives a definition. -/
theorem exists_mem_definitionsAlong (member : d ∈ line) (inside : stmt ∈ d.body)
    (is : nameOf stmt = some name) : ∃ other, other ∈ definitionsAlong nameOf line name := by
  have here : defines nameOf name d = true := any_eq_true.mpr ⟨stmt, inside, beq_iff_eq.mpr is⟩
  obtain ⟨e, found⟩ := Option.isSome_iff_exists.mp (find?_isSome.mpr ⟨d, member, here⟩)
  have given : defines nameOf name e = true := find?_some found
  obtain ⟨other, inside, is⟩ := any_eq_true.mp given
  exact ⟨other, mem_definitionsAlong_iff.mpr ⟨beq_iff_eq.mp is, e, found, inside⟩⟩

theorem mem_line_gather_iff :
    stmt ∈ c.body ++ gather nameOf c.body [] ancestors ∧ nameOf stmt = some name ↔
      stmt ∈ definitionsAlong nameOf (c :: ancestors) name := by
  have all := @definitions_gather nameOf name c.body ancestors []
  have same : definitions nameOf name (c.body ++ gather nameOf c.body [] ancestors) =
      definitionsAlong nameOf (c :: ancestors) name := by
    rw [all, append_nil, definitionsAlong]
    by_cases here : defines nameOf name c = true
    · rw [if_neg (definitions_ne_nil_iff.mpr here), find?_cons_of_pos here]
      rfl
    · rw [if_pos (Decidable.not_not.mp (mt definitions_ne_nil_iff.mp here)), find?_cons_of_neg here]
  rw [← same, definitions, mem_filter, beq_iff_eq]

/-- The classes in the order of a class are it and its ancestors. -/
theorem Ancestors.mem_iff (are : Ancestors classes name order ancestors)
    (found : (named classes).get? name = some c) :
    d ∈ c :: ancestors ↔
      ∃ other, (bases classes).IsAncestor name other ∧ (named classes).get? other = some d := by
  have above := Bases.mem_linearizeWithin_iff are.1
  have listed : d ∈ ancestors ↔
      ∃ other ∈ order.filter (· ≠ name), (named classes).get? other = some d := by
    rw [← mem_map, are.2]
    simp
  rw [mem_cons, listed]
  constructor
  · rintro (rfl | ⟨other, member, is⟩)
    · exact ⟨name, .refl, found⟩
    · exact ⟨other, (above other).mp (mem_of_mem_filter member), is⟩
  · rintro ⟨other, isAncestor, is⟩
    by_cases same : other = name
    · subst same
      exact .inl (Option.some.inj (is.symm.trans found))
    · exact .inr ⟨other, mem_filter.mpr ⟨(above other).mpr isAncestor, decide_eq_true same⟩, is⟩

theorem Ancestors.exists_get? (are : Ancestors classes name order ancestors)
    (found : (named classes).get? name = some c) {parent : String} (member : parent ∈ order) :
    ∃ d, (named classes).get? parent = some d := by
  by_cases same : parent = name
  · exact ⟨c, same ▸ found⟩
  · have listed : (named classes).get? parent ∈ ancestors.map some := are.2 ▸ mem_map_of_mem
      (mem_filter.mpr ⟨member, decide_eq_true same⟩)
    obtain ⟨d, -, is⟩ := mem_map.mp listed
    exact ⟨d, is.symm⟩

/-- What a class has as an attribute, given its ancestors. -/
inductive HasAttribute (c : ClassDef) (ancestors : List ClassDef) : String → Prop
  | initialiser : HasAttribute c ancestors "__init__"
  | own {attr : String} {stmt : Stmt} : stmt ∈ c.body → attr ∈ stmt.attributes →
      HasAttribute c ancestors attr
  | method {attr : String} {d : ClassDef} : d ∈ ancestors →
      defines methodName? attr d = true → HasAttribute c ancestors attr
  | assigned {attr first : String} {stmt : Stmt} :
      stmt ∈ definitionsAlong assignedName? (c :: ancestors) first →
      attr ∈ stmt.attributes → HasAttribute c ancestors attr

/-- An assignment binds another target first, which a class before binds first, too. -/
def IsHidden (c : ClassDef) (ancestors : List ClassDef) (attr : String) : Prop :=
  ∃ d ∈ ancestors, ∃ site first targets value, .assign site (first :: targets) value ∈ d.body ∧
    attr ∈ targets.filterMap Expr.id? ∧ ∀ name, first.id? = some name →
      (c :: ancestors).find? (defines assignedName? name) ≠ some d

theorem HasAttribute.exists_stmt (has : HasAttribute c ancestors attr) :
    attr = "__init__" ∨ ∃ d ∈ c :: ancestors, ∃ stmt ∈ d.body, attr ∈ stmt.attributes := by
  cases has with
  | initialiser => exact .inl rfl
  | own inside makes => exact .inr ⟨c, mem_cons_self, _, inside, makes⟩
  | @method _ d member here =>
    obtain ⟨stmt, inside, is⟩ := any_eq_true.mp here
    exact .inr ⟨d, mem_cons_of_mem _ member, stmt, inside,
      mem_attributes_of_methodName? (beq_iff_eq.mp is)⟩
  | assigned along makes =>
    obtain ⟨-, d, found, inside⟩ := mem_definitionsAlong_iff.mp along
    exact .inr ⟨d, mem_of_find?_eq_some found, _, inside, makes⟩

/-- An attribute of the line is one of the class, unless it is hidden. -/
theorem hasAttribute_or_isHidden (member : d ∈ c :: ancestors) (inside : stmt ∈ d.body)
    (makes : attr ∈ stmt.attributes) :
    HasAttribute c ancestors attr ∨ IsHidden c ancestors attr := by
  rcases mem_cons.mp member with rfl | above
  · exact .inl (.own inside makes)
  cases stmt with
  | functionDef f =>
    obtain rfl := mem_singleton.mp makes
    exact .inl (.method above (any_eq_true.mpr ⟨_, inside, beq_iff_eq.mpr rfl⟩))
  | assign site targets value =>
    cases targets with
    | nil => cases makes
    | cons first targets =>
      have named {name : String} (is : first.id? = some name) :
          (assign site (first :: targets) value).assignedName? = some name := by
        cases first with
        | name line id usage => exact is
        | _ => cases is
      by_cases isFirst : first.id? = some attr
      · obtain ⟨other, along⟩ := exists_mem_definitionsAlong member inside (named isFirst)
        exact .inl (.assigned along
          (mem_attributes_of_assignedName? (mem_definitionsAlong_iff.mp along).1))
      · by_cases taken : ∃ name, first.id? = some name ∧
            (c :: ancestors).find? (defines assignedName? name) = some d
        · obtain ⟨name, is, found⟩ := taken
          exact .inl (.assigned (mem_definitionsAlong_iff.mpr ⟨named is, d, found, inside⟩) makes)
        · refine .inr ⟨d, above, site, first, targets, value, inside, ?_, fun name is found =>
            taken ⟨name, is, found⟩⟩
          obtain ⟨target, isTarget, is⟩ := mem_filterMap.mp makes
          rcases mem_cons.mp isTarget with rfl | later
          · exact absurd is isFirst
          · exact mem_filterMap.mpr ⟨target, later, is⟩
  | _ => cases makes

theorem Stmt.eq_of_mem_attributes {first : String} (makes : attr ∈ stmt.attributes)
    (is : stmt.methodName? = some first) : first = attr := by
  cases stmt with
  | functionDef f => exact (Option.some.inj is).symm.trans (mem_singleton.mp makes).symm
  | _ => cases is

/-- What a class has by its text, by inheritance and by its initialiser. -/
theorem hasAttribute_iff {members : List Stmt}
    (are : ∀ stmt, stmt ∈ members ↔ stmt ∈ c.body ++ inheritedFrom c ancestors ∨
      stmt ∈ c.missingInitialiser (c.body ++ inheritedFrom c ancestors)) :
    (∃ stmt ∈ members, attr ∈ stmt.attributes) ↔ HasAttribute c ancestors attr := by
  have inLine {nameOf : Stmt → Option String} {stmt : Stmt}
      (member : stmt ∈ gather nameOf c.body [] ancestors) :
      ∃ first, stmt ∈ definitionsAlong nameOf (c :: ancestors) first := by
    obtain ⟨first, is⟩ := Option.isSome_iff_exists.mp
      (isSome_of_mem_gather (fun _ none => absurd none not_mem_nil) stmt member)
    exact ⟨first, mem_line_gather_iff.mp ⟨mem_append_right _ member, is⟩⟩
  have text {stmt : Stmt} : stmt ∈ c.body ++ inheritedFrom c ancestors ↔
      stmt ∈ c.body ++ gather methodName? c.body [] ancestors ∨
        stmt ∈ c.body ++ gather assignedName? c.body [] ancestors := by
    simp only [inheritedFrom, mem_append]
    tauto
  constructor
  · rintro ⟨stmt, member, makes⟩
    rcases (are stmt).mp member with given | new
    · simp only [inheritedFrom, mem_append] at given
      rcases given with own | method | assigned
      · exact .own own makes
      · obtain ⟨first, along⟩ := inLine method
        obtain ⟨is, d, found, inside⟩ := mem_definitionsAlong_iff.mp along
        obtain rfl := Stmt.eq_of_mem_attributes makes is
        rcases mem_cons.mp (mem_of_find?_eq_some found) with rfl | above
        · exact .own inside makes
        · exact .method above (any_eq_true.mpr ⟨stmt, inside, beq_iff_eq.mpr is⟩)
      · obtain ⟨first, along⟩ := inLine assigned
        exact .assigned along makes
    · rw [ClassDef.missingInitialiser] at new
      split at new
      · cases new
      · obtain rfl := mem_singleton.mp new
        exact mem_singleton.mp makes ▸ .initialiser
  · intro has
    cases has with
    | initialiser =>
      by_cases given : ClassDef.hasInitialiser (c.body ++ inheritedFrom c ancestors) = true
      · obtain ⟨stmt, member, is⟩ := any_eq_true.mp given
        refine ⟨stmt, (are stmt).mpr (.inl member), ?_⟩
        cases stmt with
        | functionDef f => exact mem_singleton.mpr (beq_iff_eq.mp is).symm
        | _ => cases is
      · refine ⟨.functionDef c.defaultInitialiser, (are _).mpr (.inr ?_), mem_cons_self⟩
        rw [ClassDef.missingInitialiser, if_neg given]
        exact mem_cons_self
    | own inside makes =>
      exact ⟨_, (are _).mpr (.inl (mem_append_left _ inside)), makes⟩
    | method above here =>
      obtain ⟨stmt, inside, is⟩ := any_eq_true.mp here
      obtain ⟨other, along⟩ := exists_mem_definitionsAlong
        (mem_cons_of_mem c above) inside (beq_iff_eq.mp is)
      obtain ⟨member, is⟩ := mem_line_gather_iff.mpr along
      exact ⟨other, (are _).mpr (.inl (text.mpr (.inl member))),
        mem_attributes_of_methodName? is⟩
    | assigned along makes =>
      exact ⟨_, (are _).mpr (.inl (text.mpr (.inr (mem_line_gather_iff.mpr along).1))), makes⟩

end Inheritance

namespace Survey

open Inheritance

variable {settings : Settings} {survey next : Survey}

theorem classAttrs_of_foldlM {members : List Stmt} {start found : Members}
    (done : members.foldlM (Members.add settings) start = .ok found) :
    found.classAttrs = start.classAttrs ++ members.flatMap attributes := by
  induction members generalizing start with
  | nil => rw [← pure_ok done, flatMap_nil, append_nil]
  | cons stmt members ih =>
    obtain ⟨after, added, done⟩ := bind_ok done
    rw [ih done, flatMap_cons, ← append_assoc]
    unfold Members.add at added
    split at added
    · obtain ⟨decorators, -, added⟩ := bind_ok added
      split at added
      · exact pure_ok added ▸ rfl
      · split at added <;> exact pure_ok added ▸ rfl
    · exact Except.ok.inj added ▸ rfl
    · next notMethod notAssigned =>
      rw [← Except.ok.inj added, attributes, append_nil]
      · exact notMethod
      · exact notAssigned

/-- Of classes with one name, the attributes of the last one are listed. -/
theorem exists_classAttrs_of_foldlM {treated : List ClassDef}
    (done : treated.foldlM (fun survey c => addClass settings survey c
      (survey.expand (c.body ++ (survey.additions.get? c.site.label).getD []))) survey = .ok next)
    (found : (named treated).get? name = some c) :
    ∃ attrs, next.classAttrs.get? name = some attrs ∧ ∀ attr, attr ∈ attrs ↔
      ∃ stmt ∈ c.body ++ additionsOf survey.additions c, attr ∈ stmt.attributes := by
  induction treated using List.reverseRecOn generalizing next with
  | nil => cases found
  | append_singleton treated d ih =>
    rw [foldlM_append] at done
    obtain ⟨before, first, done⟩ := bind_ok done
    obtain ⟨after, added, rfl⟩ := map_ok done
    have kept : before.additions = survey.additions := by
      refine foldlM_invariant (fun next => next.additions = survey.additions) first rfl ?_
      intro c _ before after kept added
      obtain ⟨_, _, _, _, -, -, -, -, -, -, keeps, -⟩ := addClass_eq_ok added
      exact keeps.additions.trans kept
    obtain ⟨_, _, _, members, -, -, isFound, -, -, -, -, is, -⟩ := addClass_eq_ok added
    rw [named_concat] at found
    rw [is]
    by_cases same : name = d.name
    · subst same
      obtain rfl := Option.some.inj ((Table.get?_insert_self ..).symm.trans found)
      refine ⟨_, Table.get?_insert_self .., fun attr => ?_⟩
      rw [mem_sortedNames, classAttrs_of_foldlM isFound, nil_append, mem_flatMap, kept]
      constructor
      · rintro ⟨result, expanded, makes⟩
        obtain ⟨stmt, member, expanded⟩ := mem_expandTo_iff.mp expanded
        rw [attributes_eq_of_head (head_of_mem_expandTo expanded)] at makes
        exact ⟨stmt, member, makes⟩
      · rintro ⟨stmt, member, makes⟩
        obtain ⟨result, expanded, same⟩ := exists_mem_expandTo _ member
        exact ⟨result, expanded, attributes_eq_of_head same ▸ makes⟩
    · rw [Table.get?_insert_of_ne _ _ same] at found ⊢
      exact ih first found

/-- The attributes listed for a class are those that it has by its order. -/
theorem exists_hasAttribute (labels : HaveLabels classes)
    (done : survey.addClasses settings classes = .ok next)
    (found : (named classes).get? name = some c) :
    ∃ order ancestors attrs, Ancestors classes name order ancestors ∧
      next.classAttrs.get? name = some attrs ∧
      ∀ attr, attr ∈ attrs ↔ HasAttribute c ancestors attr := by
  obtain ⟨inheritance, inherited, done⟩ := bind_ok done
  obtain ⟨order, ancestors, are, given⟩ := exists_ancestors inherited found
  obtain ⟨attrs, isListed, listed⟩ := exists_classAttrs_of_foldlM done found
  obtain ⟨member, rfl⟩ := name_of_get?_named found
  refine ⟨order, ancestors, attrs, are, isListed, fun attr => ?_⟩
  rw [listed, additionsOf_addMembers labels inheritance member, bodyOf, given]
  refine hasAttribute_iff fun stmt => ?_
  have listed := Nat.ne_of_gt (occurrences_pos member)
  simp [mem_replicate, listed, or_assoc]

end Survey

open Inheritance Survey in
/-- A class has the methods of its ancestors and what their assignments bind first. It has what an
assignment binds later if no class before binds the same name first. -/
theorem ancestors_share_attributes {files : Files} {body : List Stmt}
    {known : Option (String × String)} {program : Program} {settings : Settings}
    {base : Option String} {funcParams classParams : TypeParams} {survey : Survey}
    (read : Program.read files body known = .ok program)
    (surveyed : Survey.ofProgram settings base program funcParams classParams = .ok survey) :
    ∃ classes, classesOf program = .ok classes ∧
      ∀ {name c}, (named classes).get? name = some c → ∃ order ancestors attrs,
        Ancestors classes name order ancestors ∧ survey.classAttrs.get? name = some attrs ∧
        (∀ attr, attr ∈ attrs ↔ HasAttribute c ancestors attr) ∧
        ∀ parent ∈ order, ∃ inherited, survey.classAttrs.get? parent = some inherited ∧
          ∀ attr ∈ inherited, attr ∈ attrs ∨ IsHidden c ancestors attr := by
  obtain ⟨selection, withClasses, _, _, selected, isClasses, -, rfl⟩ := ofProgram_eq_ok surveyed
  have listed : classesOf program = .ok (classDefs _) :=
    bind_eq_ok_iff.mpr ⟨selection, selected, rfl⟩
  have each {name : String} {c : ClassDef} (found : (named (classDefs _)).get? name = some c) :=
    exists_hasAttribute (haveLabels (Program.isClosed_of_read read) listed) isClasses found
  refine ⟨_, listed, fun {name c} found => ?_⟩
  obtain ⟨order, ancestors, attrs, are, isListed, has⟩ := each found
  refine ⟨order, ancestors, attrs, are, isListed, has, fun parent isParent => ?_⟩
  have above := (Bases.mem_linearizeWithin_iff are.1 parent).mp isParent
  obtain ⟨p, isFound⟩ := are.exists_get? found isParent
  obtain ⟨_, others, inherited, areOthers, isInherited, hasParent⟩ := each isFound
  refine ⟨inherited, isInherited, fun attr member => ?_⟩
  rcases ((hasParent attr).mp member).exists_stmt with rfl | ⟨d, inLine, stmt, inside, makes⟩
  · exact .inl ((has _).mpr .initialiser)
  · obtain ⟨other, isAncestor, is⟩ := (areOthers.mem_iff isFound).mp inLine
    have inLine := (are.mem_iff found).mpr ⟨other, above.trans isAncestor, is⟩
    exact (hasAttribute_or_isHidden inLine inside makes).imp_left (has attr).mpr

namespace Inheritance.Chained

/-- A class with an assignment to two names, of which one below assigns the first. -/
def body : List Stmt :=
  [.classDef (Diamond.inheriting "P" [] [.assign {}
      [.name none "a" .store, .name none "b" .store] (.literal none .none)]),
    .classDef (Diamond.inheriting "C" ["P"] [Diamond.assignment 0 "a"])]

theorem exists_surveyed : ∃ program, Program.read {} body none = .ok program ∧
    ∃ survey, Survey.ofProgram {} none program {} {} = .ok survey ∧
    ∃ classes, Survey.classesOf program = .ok classes ∧ ((named classes).get? "C").isSome ∧
    (bases classes).linearize "C" = .ok ["C", "P"] ∧
    "b" ∈ (survey.classAttrs.get? "P").getD [] ∧ "a" ∈ (survey.classAttrs.get? "C").getD [] ∧
    "b" ∉ (survey.classAttrs.get? "C").getD [] := by
  decide +kernel

end Inheritance.Chained

open Inheritance in
/-- The later target of a chained assignment hides an attribute. -/
theorem chained_hides_later_target : ∃ program survey classes c ancestors,
    Program.read {} Chained.body none = .ok program ∧
    Survey.ofProgram {} none program {} {} = .ok survey ∧
    Survey.classesOf program = .ok classes ∧ Ancestors classes "C" ["C", "P"] ancestors ∧
    HasAttribute c ancestors "a" ∧ IsHidden c ancestors "b" := by
  obtain ⟨program, read, survey, surveyed, _, listed, isClass, isOrder, above, own, lost⟩ :=
    Chained.exists_surveyed
  obtain ⟨classes, isListed, each⟩ := ancestors_share_attributes read surveyed
  obtain rfl := Except.ok.inj (listed.symm.trans isListed)
  obtain ⟨c, found⟩ := Option.isSome_iff_exists.mp isClass
  obtain ⟨order, ancestors, attrs, are, isOwn, has, fromParents⟩ := each found
  obtain rfl := Except.ok.inj (isOrder.symm.trans are.1)
  obtain ⟨inherited, isInherited, shared⟩ := fromParents "P" (by decide)
  rw [isOwn, Option.getD_some] at own lost
  rw [isInherited, Option.getD_some] at above
  exact ⟨program, survey, _, c, ancestors, read, surveyed, listed, are, (has "a").mp own,
    (shared "b" above).resolve_left lost⟩

/-- A class lacks an attribute of its base, as it assigns the target before it. -/
theorem chained_lacks_later_target : ∃ program survey classes,
    Program.read {} Inheritance.Chained.body none = .ok program ∧
    Survey.ofProgram {} none program {} {} = .ok survey ∧
    Survey.classesOf program = .ok classes ∧
    (Inheritance.bases classes).linearize "C" = .ok ["C", "P"] ∧
    "b" ∈ (survey.classAttrs.get? "P").getD [] ∧
    "b" ∉ (survey.classAttrs.get? "C").getD [] := by
  obtain ⟨program, read, survey, surveyed, classes, listed, -, isOrder, above, -, lost⟩ :=
    Inheritance.Chained.exists_surveyed
  exact ⟨program, survey, classes, read, surveyed, listed, isOrder, above, lost⟩

end TypeInference
