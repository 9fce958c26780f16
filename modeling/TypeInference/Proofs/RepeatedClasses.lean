/- What a class has beyond its text, once for each time that it is listed. -/

import TypeInference.Proofs.ClassEntries
import TypeInference.Proofs.MeasuredArities

namespace TypeInference

open List Library ClassDef Survey

variable {c : ClassDef} {classes : List ClassDef} {inheritance : Inheritance} {name : String}

namespace Inheritance

/-- What a class inherits from its ancestors in order. -/
def inheritedFrom (c : ClassDef) (ancestors : List ClassDef) : List Stmt :=
  gather Stmt.methodName? c.body [] ancestors ++ gather Stmt.assignedName? c.body [] ancestors

/-- The ancestors of a class in its order. -/
def Ancestors (classes : List ClassDef) (name : String) (order : List String)
    (ancestors : List ClassDef) : Prop :=
  (bases classes).linearize name = .ok order ∧
    (order.filter (· ≠ name)).map (named classes).get? = ancestors.map some

theorem named_concat (classes : List ClassDef) (c : ClassDef) :
    named (classes ++ [c]) = (named classes).insert c.name c := by
  rw [named, map_append, Table.ofList, Table.union, foldl_append]
  rfl

/-- Of classes with one name, the last one counts. -/
theorem exists_ancestors_of_foldlM {treated : List ClassDef} {start : Inheritance}
    (done : treated.foldlM (addClass classes) start = .ok inheritance)
    (found : (named treated).get? name = some c) :
    ∃ order ancestors, Ancestors classes name order ancestors ∧
      inheritance.membersOf name = inheritedFrom c ancestors := by
  induction treated using List.reverseRecOn generalizing inheritance with
  | nil => cases found
  | append_singleton treated d ih =>
    rw [foldlM_append] at done
    obtain ⟨before, first, done⟩ := bind_ok done
    obtain ⟨after, added, rfl⟩ := map_ok done
    obtain ⟨order, start, gathered, isOrder, noMethods, noAttributes, isGathered, rfl⟩ :=
      addClass_eq_give added
    rw [named_concat] at found
    by_cases same : name = d.name
    · subst same
      obtain rfl := Option.some.inj ((Table.get?_insert_self ..).symm.trans found)
      obtain ⟨ancestors, areAncestors, methods, attributes, -⟩ :=
        inheritAll_eq_ok (fun found => (name_of_get?_named found).2) isGathered
      refine ⟨order, ancestors, ⟨isOrder, areAncestors⟩, ?_⟩
      rw [membersOf_give_self, methods, attributes, noMethods, noAttributes, inheritedFrom]
    · rw [membersOf_give_of_ne before gathered same]
      exact ih first ((Table.get?_insert_of_ne _ _ same).symm.trans found)

theorem exists_ancestors (done : ofClasses classes = .ok inheritance)
    (found : (named classes).get? name = some c) :
    ∃ order ancestors, Ancestors classes name order ancestors ∧
      inheritance.membersOf name = inheritedFrom c ancestors :=
  exists_ancestors_of_foldlM done found

end Inheritance

namespace Survey

/-- What a class has beyond its text. -/
def additionsOf (additions : Table Nat (List Stmt)) (c : ClassDef) : List Stmt :=
  (additions.get? c.site.label).getD []

/-- How often a class is listed. -/
def occurrences (classes : List ClassDef) (c : ClassDef) : Nat :=
  classes.countP (·.site.label == c.site.label)

/-- The label of a class tells which one it is. -/
def HaveLabels (classes : List ClassDef) : Prop :=
  ∀ c ∈ classes, ∀ d ∈ classes, d.site.label = c.site.label → d = c

theorem occurrences_cons_self (classes : List ClassDef) (c : ClassDef) :
    occurrences (c :: classes) c = occurrences classes c + 1 :=
  countP_cons_of_pos (beq_self_eq_true _)

variable {d : ClassDef} {program : Program} {known : Option (String × String)}

theorem occurrences_cons_of_ne (classes : List ClassDef) (different : d.site.label ≠ c.site.label) :
    occurrences (d :: classes) c = occurrences classes c :=
  countP_cons_of_neg (by simpa using different)

theorem additionsOf_insert_self (table : Table Nat (List Stmt)) (c : ClassDef)
    (members : List Stmt) : additionsOf (table.insert c.site.label members) c = members := by
  rw [additionsOf, Table.get?_insert_self, Option.getD_some]

theorem additionsOf_insert_of_ne (table : Table Nat (List Stmt)) (members : List Stmt)
    (different : d.site.label ≠ c.site.label) :
    additionsOf (table.insert d.site.label members) c = additionsOf table c := by
  rw [additionsOf, Table.get?_insert_of_ne _ _ (Ne.symm different), additionsOf]

section Listed

variable (same : ∀ d ∈ classes, d.site.label = c.site.label → d = c) (table : Table Nat (List Stmt))
include same

/-- Each time a class is listed, it inherits again. -/
theorem additionsOf_inherited (inheritance : Inheritance) :
    additionsOf (classes.foldl (fun table c => table.insert c.site.label
      ((table.get? c.site.label).getD [] ++ inheritance.membersOf c.name)) table) c =
      additionsOf table c ++
        (List.replicate (occurrences classes c) (inheritance.membersOf c.name)).flatten := by
  induction classes generalizing table with
  | nil => exact (append_nil _).symm
  | cons d classes ih =>
    rw [foldl_cons, ih fun d member => same d (mem_cons_of_mem _ member)]
    by_cases here : d.site.label = c.site.label
    · obtain rfl := same d mem_cons_self here
      rw [additionsOf_insert_self, occurrences_cons_self, replicate_succ, flatten_cons,
        append_assoc, additionsOf]
    · rw [additionsOf_insert_of_ne _ _ here, occurrences_cons_of_ne _ here]

/-- A listed class gets an initialiser at most once. -/
theorem additionsOf_initialised :
    additionsOf (classes.foldl (fun table c =>
      let members := (table.get? c.site.label).getD []
      table.insert c.site.label (members ++ c.missingInitialiser (c.body ++ members))) table) c =
      additionsOf table c ++ if occurrences classes c = 0 then [] else
        c.missingInitialiser (c.body ++ additionsOf table c) := by
  induction classes generalizing table with
  | nil => exact (append_nil _).symm
  | cons d classes ih =>
    rw [foldl_cons, ih fun d member => same d (mem_cons_of_mem _ member)]
    by_cases here : d.site.label = c.site.label
    · obtain rfl := same d mem_cons_self here
      have again (members : List Stmt) : d.missingInitialiser
          (d.body ++ (members ++ d.missingInitialiser (d.body ++ members))) = [] := by
        unfold missingInitialiser
        split
        · next has => rw [append_nil, if_pos has]
        · rw [← append_assoc, hasInitialiser_append]
          exact if_pos (Bool.or_true _)
      rw [additionsOf_insert_self, occurrences_cons_self, if_neg (Nat.succ_ne_zero _), again,
        ite_self, append_nil, additionsOf]
    · rw [additionsOf_insert_of_ne _ _ here, occurrences_cons_of_ne _ here]

end Listed

theorem occurrences_pos (member : c ∈ classes) : 0 < occurrences classes c :=
  countP_pos_iff.mpr ⟨c, member, beq_self_eq_true _⟩

/-- What a class has beyond its text. -/
theorem additionsOf_addMembers (labels : HaveLabels classes) (inheritance : Inheritance)
    (member : c ∈ classes) :
    additionsOf (addMembers inheritance classes) c =
      (List.replicate (occurrences classes c) (inheritance.membersOf c.name)).flatten ++
        c.missingInitialiser (inheritance.bodyOf c) := by
  have listed := Nat.ne_of_gt (occurrences_pos member)
  rw [addMembers, additionsOf_initialised (labels c member),
    additionsOf_inherited (labels c member), if_neg listed]
  change List.flatten _ ++ missingInitialiser c (c.body ++ List.flatten _) = _
  have same : hasInitialiser (c.body ++ (List.replicate (occurrences classes c)
      (inheritance.membersOf c.name)).flatten) =
        hasInitialiser (inheritance.bodyOf c) := by
    rw [Inheritance.bodyOf]
    simp [hasInitialiser, any_flatten, listed]
  rw [missingInitialiser, missingInitialiser, same]

/-- What is surveyed is in a declaration, the program or a file. -/
theorem mem_walkFrom_of_mem {names : List String} {selection : Selection} {node : Node}
    (isClosed : program.IsClosed known)
    (selected : standard.selectAll names = .ok selection)
    (member : node ∈ program.nodes ++ declaredNodes standard selection) :
    node ∈ Node.walkFrom (modules.map .module ++ program.sources.roots program.main) := by
  have library {module : Module} (isLibrary : module ∈ standard.libraries.values)
      (inside : node ∈ (Node.module module).walk) :=
    mem_walkFrom_modules (mem_cons_of_mem _ (mem_append_right _ isLibrary)) inside
  refine Node.mem_walkFrom_append.mpr ?_
  rcases mem_append.mp member with own | declared
  · rcases isClosed.placed node own with ⟨module, isLibrary, inside⟩ | inside
    · exact .inl (library isLibrary inside)
    · exact .inr inside
  · refine .inl ?_
    rcases mem_declaredNodes_iff.mp declared with
      ⟨stmt, isDeclared, inside⟩ | ⟨_, module, -, found, inside⟩
    · have below {module : Module} (isModule : module ∈ modules)
          (inBody : stmt ∈ module.body) := mem_walkFrom_modules isModule (Node.walk_subset
            (Node.ofStmts_subset_walk module (mem_map_of_mem inBody)) inside)
      rcases mem_append.mp (mem_declarations selected isDeclared) with isFunction | rest
      · exact below mem_cons_self isFunction
      · obtain ⟨module, isMethods, inBody⟩ := mem_flatMap.mp rest
        exact below (mem_cons_of_mem _ (mem_append_left _ isMethods)) inBody
    · exact library (mem_map_of_mem (Table.mem_of_get? found)) inside

/-- The classes of a program have labels of their own. -/
theorem haveLabels (isClosed : program.IsClosed known) (listed : classesOf program = .ok classes) :
    HaveLabels classes := by
  obtain ⟨selection, selected, rfl⟩ := map_ok listed
  intro c member d isOther same
  have place {c : ClassDef} (member : c ∈ classDefs _) :=
    mem_walkFrom_of_mem isClosed selected (mem_classDefs_iff.mp member)
  exact Stmt.classDef.inj ((labelled_modules.append isClosed.labelled).apart
    (place isOther) (place member) same)

end Survey

open Inheritance Survey in
/-- A class gets what it inherits as often as it is listed, and an initialiser once. So it has each
inherited statement once exactly if it is listed once or inherits nothing. -/
theorem members_added_as_often_as_listed {files : Files} {body : List Stmt}
    {known : Option (String × String)} {program : Program} {settings : Settings}
    {base : Option String} {funcParams classParams : TypeParams} {survey : Survey}
    (read : Program.read files body known = .ok program)
    (surveyed : ofProgram settings base program funcParams classParams = .ok survey) :
    ∃ classes inheritance, classesOf program = .ok classes ∧
      Inheritance.ofClasses classes = .ok inheritance ∧
      (∀ {name c}, (named classes).get? name = some c → ∃ order ancestors,
        Ancestors classes name order ancestors ∧
        inheritance.membersOf name = inheritedFrom c ancestors) ∧
      ∀ c ∈ classes,
        additionsOf survey.additions c =
          (List.replicate (occurrences classes c) (inheritance.membersOf c.name)).flatten ++
            c.missingInitialiser (inheritance.bodyOf c) ∧
        (additionsOf survey.additions c =
          inheritance.membersOf c.name ++ c.missingInitialiser (inheritance.bodyOf c) ↔
            occurrences classes c = 1 ∨ inheritance.membersOf c.name = []) := by
  obtain ⟨selection, selected, isUsed, isMeasured⟩ := isMeasured_of_ofProgram surveyed
  obtain ⟨inheritance, inherited, additions⟩ := isMeasured.additions
  have listed : classesOf program = .ok (classDefs _) :=
    bind_eq_ok_iff.mpr ⟨selection, isUsed ▸ selected, rfl⟩
  have labels := haveLabels (Program.isClosed_of_read read) listed
  refine ⟨_, inheritance, listed, inherited, exists_ancestors inherited, fun c member => ?_⟩
  have all := additionsOf_addMembers labels inheritance member
  rw [← additions] at all
  refine ⟨all, ?_⟩
  rw [all, append_cancel_right_eq]
  constructor
  · intro same
    have length := congrArg List.length same
    simp only [length_flatten, map_replicate, sum_replicate_nat] at length
    rcases Nat.eq_zero_or_pos (inheritance.membersOf c.name).length with none | some
    · exact .inr (length_eq_zero_iff.mp none)
    · exact .inl (Nat.eq_of_mul_eq_mul_right some (length.trans (Nat.one_mul _).symm))
  · rintro (once | none)
    · rw [once, replicate_one, flatten_singleton]
    · rw [none, flatten_replicate_nil]

namespace Inheritance.Repeated

/-- A file with a class that inherits an attribute. -/
def files : Files where
  bodies := .ofList [("m.py", [.classDef (Diamond.inheriting "A" [] [Diamond.assignment 0 "x"]),
    .classDef (Diamond.inheriting "B" ["A"] [])])]

/-- A program that imports the file twice. -/
def body : List Stmt := List.replicate 2 (.importModules {} [⟨none, "m", none⟩])

/-- The class is listed twice and inherits twice. -/
theorem exists_surveyed : ∃ program, Program.read files body none = .ok program ∧
    ∃ survey, ofProgram {} none program {} {} = .ok survey ∧
    ∃ classes, classesOf program = .ok classes ∧
    ∃ b ∈ classes, occurrences classes b = 2 ∧
    (additionsOf survey.additions b).map Stmt.assignedName? = [some "x", some "x", none] := by
  decide +kernel

end Inheritance.Repeated

open Inheritance in
/-- Members are added twice if a class is listed twice. -/
theorem repeated_adds_members_twice : ∃ program survey classes b, ∃ inheritance : Inheritance,
    Program.read Repeated.files Repeated.body none = .ok program ∧
    ofProgram {} none program {} {} = .ok survey ∧
    classesOf program = .ok classes ∧ b ∈ classes ∧ inheritance.membersOf b.name ≠ [] ∧
    additionsOf survey.additions b =
      (List.replicate 2 (inheritance.membersOf b.name)).flatten ++
        b.missingInitialiser (inheritance.bodyOf b) := by
  obtain ⟨program, read, survey, surveyed, _, listed, b, member, twice, names⟩ :=
    Repeated.exists_surveyed
  obtain ⟨classes, inheritance, isListed, -, -, each⟩ :=
    members_added_as_often_as_listed read surveyed
  obtain rfl := Except.ok.inj (listed.symm.trans isListed)
  have added := (each b member).1
  rw [twice] at added
  refine ⟨program, survey, _, b, inheritance, read, surveyed, listed, member, fun none => ?_, added⟩
  rw [added, none, flatten_replicate_nil, nil_append, missingInitialiser] at names
  split at names <;> cases names

/-- A class that is imported twice inherits twice. -/
theorem imported_twice_inherits_twice : ∃ program survey classes b,
    Program.read Inheritance.Repeated.files Inheritance.Repeated.body none = .ok program ∧
    ofProgram {} none program {} {} = .ok survey ∧
    classesOf program = .ok classes ∧ b ∈ classes ∧
    (additionsOf survey.additions b).map Stmt.assignedName? =
      [some "x", some "x", none] := by
  obtain ⟨program, read, survey, surveyed, classes, listed, b, member, -, names⟩ :=
    Inheritance.Repeated.exists_surveyed
  exact ⟨program, survey, classes, b, read, surveyed, listed, member, names⟩

end TypeInference
