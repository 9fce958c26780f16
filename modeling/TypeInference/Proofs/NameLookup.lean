/- Names are looked up, tested for and deleted in the scopes around a place, where the three pass
over different ones, and below a scope. -/

import Mathlib.Data.Nat.Find
import Mathlib.Tactic.IntervalCases
import TypeInference.Proofs.Table
import TypeInference.Scope.Chain

namespace TypeInference

open List

def Scope.unbind (scope : Scope) (name : String) : Scope :=
  { scope with types := scope.types.erase name }

namespace Chain

variable {chain outer : Chain} {scope : Scope} {name : String} {place : Nat} {inFunction : Bool}
  {type : Meaning}

/-- What the scope at a place binds a name to. -/
def boundAt (chain : Chain) (place : Nat) (name : String) : Option Meaning :=
  chain[place]?.bind (·.types.get? name)

/-- A scope binds a name and, if a class, has no function inside. -/
def SeesFrom (inFunction : Bool) (chain : Chain) (name : String) (place : Nat) : Prop :=
  ∃ scope, chain[place]? = some scope ∧ scope.types.contains name = true ∧
    (scope.isClass = true →
      inFunction = false ∧ ∀ inner ∈ chain.take (place + 1), inner.isFunction = false)

/-- The first place at which a name is seen. -/
def FindsFrom (inFunction : Bool) (chain : Chain) (name : String) (place : Nat) : Prop :=
  SeesFrom inFunction chain name place ∧ ∀ inner < place, ¬ SeesFrom inFunction chain name inner

theorem seesFrom_zero : SeesFrom inFunction (scope :: outer) name 0 ↔
    scope.types.contains name = true ∧
      ¬ (scope.isClass && (inFunction || scope.isFunction)) = true := by
  simp [SeesFrom, or_iff_not_imp_left]

theorem seesFrom_succ : SeesFrom inFunction (scope :: outer) name (place + 1) ↔
    SeesFrom (inFunction || scope.isFunction) outer name place := by
  simp [SeesFrom, and_assoc]

theorem findsFrom_cons : FindsFrom inFunction (scope :: outer) name place ↔
    place = 0 ∧ SeesFrom inFunction (scope :: outer) name 0 ∨
    ∃ further, place = further + 1 ∧ ¬ SeesFrom inFunction (scope :: outer) name 0 ∧
      FindsFrom (inFunction || scope.isFunction) outer name further := by
  cases place with
  | zero => simp [FindsFrom]
  | succ further =>
    simp only [FindsFrom, seesFrom_succ, Nat.forall_lt_succ_left]
    grind

/-- A lookup gives the binding at the first place where it is seen. -/
theorem findFrom_eq_some_iff : chain.findFrom inFunction name = some type ↔
    ∃ place, FindsFrom inFunction chain name place ∧
      chain.boundAt place name = some type := by
  induction chain generalizing inFunction with
  | nil => simp [findFrom, FindsFrom, SeesFrom]
  | cons scope outer ih =>
    have bound := Table.isSome_get? scope.types name
    have further : (∃ place, FindsFrom inFunction (scope :: outer) name place ∧
        boundAt (scope :: outer) place name = some type) ↔
        SeesFrom inFunction (scope :: outer) name 0 ∧ scope.types.get? name = some type ∨
        ¬ SeesFrom inFunction (scope :: outer) name 0 ∧
          findFrom (inFunction || scope.isFunction) outer name = some type := by
      simp only [findsFrom_cons, ih]
      constructor
      · rintro ⟨_, ⟨rfl, seen⟩ | ⟨place, rfl, unseen, finds⟩, is⟩
        · exact .inl ⟨seen, is⟩
        · exact .inr ⟨unseen, place, finds, is⟩
      · rintro (⟨seen, is⟩ | ⟨unseen, place, finds, is⟩)
        · exact ⟨0, .inl ⟨rfl, seen⟩, is⟩
        · exact ⟨place + 1, .inr ⟨place, rfl, unseen, finds⟩, is⟩
    rw [further, findFrom, seesFrom_zero, ← bound]
    cases scope.types.get? name <;> grind

theorem boundAt_eq_none_iff : chain.boundAt place name = none ↔
    ∀ scope, chain[place]? = some scope → scope.types.contains name = false := by
  simp [boundAt, Option.bind_eq_none_iff, ← Table.isSome_get?]

/-- A deletion takes the name from the innermost scope with it. -/
theorem delete_eq_ok (here : chain[place]? = some scope) (bound : scope.types.contains name = true)
    (innermost : ∀ inner < place, chain.boundAt inner name = none) :
    chain.delete name = .ok (chain.modify place (·.unbind name)) := by
  induction chain generalizing place with
  | nil => cases here
  | cons own outer ih =>
    rw [delete]
    cases place with
    | zero =>
      obtain rfl := Option.some.inj here
      rw [if_pos bound]
      rfl
    | succ further =>
      have unbound := boundAt_eq_none_iff.mp (innermost 0 (Nat.succ_pos _)) own rfl
      rw [if_neg (by simp [unbound]), ih here fun inner before =>
        innermost (inner + 1) (Nat.succ_lt_succ before)]
      rfl

theorem exists_first {holds : Nat → Prop} (some : ∃ place, holds place) :
    ∃ first, holds first ∧ ∀ inner < first, ¬ holds inner := by
  classical
  exact ⟨Nat.find some, Nat.find_spec some, fun _ => Nat.find_min some⟩

theorem find_eq_ok_iff : chain.find name = .ok type ↔
    ∃ place, FindsFrom false chain name place ∧ chain.boundAt place name = some type := by
  rw [← findFrom_eq_some_iff, find, find?]
  cases chain.findFrom false name <;> simp

theorem binds_iff : chain.binds name = true ↔
    ∃ scope ∈ chain, scope.types.contains name = true ∧ scope.isClass = false := by
  simp [binds]

/-- What the test tells to be bound is found. -/
theorem exists_findsFrom (bound : chain.binds name = true) :
    ∃ place, FindsFrom false chain name place := by
  obtain ⟨scope, member, isBound, plain⟩ := binds_iff.mp bound
  obtain ⟨place, here⟩ := getElem?_of_mem member
  exact exists_first ⟨place, scope, here, isBound, fun isClass => absurd isClass (by simp [plain])⟩

/-- A name is looked up at the first place where it is seen. The test and the deletion agree with
that exactly if a scope that is no class binds the name, too, and no scope further in does. -/
theorem lookup_test_deletion_agree_iff (chain : Chain) (name : String) :
    (∀ type, chain.find name = .ok type ↔ ∃ place, FindsFrom false chain name place ∧
      chain.boundAt place name = some type) ∧
    (((chain.binds name = true ↔ ∃ type, chain.find name = .ok type) ∧
        ∀ place, FindsFrom false chain name place →
          chain.delete name = .ok (chain.modify place (·.unbind name))) ↔
      ∀ place, FindsFrom false chain name place →
        (∃ scope ∈ chain, scope.types.contains name = true ∧ scope.isClass = false) ∧
        ∀ inner < place, chain.boundAt inner name = none) := by
  have found {place : Nat} (finds : FindsFrom false chain name place) :
      ∃ type, chain.find name = .ok type := by
    obtain ⟨scope, here, bound, -⟩ := finds.1
    rw [← Table.isSome_get?] at bound
    obtain ⟨type, is⟩ := Option.isSome_iff_exists.mp bound
    exact ⟨type, find_eq_ok_iff.mpr ⟨place, finds, by rw [boundAt, here, Option.bind_some, is]⟩⟩
  refine ⟨fun _ => find_eq_ok_iff, fun ⟨test, deletes⟩ place finds => ?_, fun agree => ⟨?_, ?_⟩⟩
  · refine ⟨binds_iff.mp (test.mpr (found finds)), ?_⟩
    by_contra some
    -- The innermost binding is another one, and it is the one that is deleted.
    obtain ⟨first, isFirst, earlier⟩ := exists_first (not_forall.mp some)
    obtain ⟨before, bound⟩ := Classical.not_imp.mp isFirst
    simp only [boundAt_eq_none_iff, not_forall, Bool.not_eq_false] at bound
    obtain ⟨scope, here, isBound⟩ := bound
    have innermost : ∀ inner < first, chain.boundAt inner name = none := fun inner within =>
      not_not.mp (earlier inner within) (Nat.lt_trans within before)
    obtain ⟨own, isOwn, seen, -⟩ := finds.1
    have same :=
      Except.ok.inj ((delete_eq_ok here isBound innermost).symm.trans (deletes place finds))
    have kept : own = own.unbind name := by
      have := congrArg (·[place]?) same
      simpa [getElem?_modify, isOwn, Nat.ne_of_lt before] using this
    rw [kept, Scope.unbind, ← Table.isSome_get?, Table.get?_erase_self] at seen
    cases seen
  · refine ⟨fun bound => ?_, fun ⟨type, is⟩ => ?_⟩
    · obtain ⟨place, finds⟩ := exists_findsFrom bound
      exact found finds
    · obtain ⟨place, finds, -⟩ := find_eq_ok_iff.mp is
      exact binds_iff.mpr (agree place finds).1
  · intro place finds
    obtain ⟨scope, here, bound, -⟩ := finds.1
    exact delete_eq_ok here bound (agree place finds).2

/-- From within a method, a name of its class and of the module is that of the module. -/
def inMethod : Chain :=
  [{ isFunction := true },
    { isClass := true, types := ⟨[("x", .term .int), ("y", .term .int)]⟩ },
    { types := ⟨[("x", .term .str)]⟩ }]

/-- In a class, a name of its own is found but not told to be bound. In a method, another binding is
deleted than the one that is found. -/
theorem inMethod_lookups_disagree :
    find (inMethod.drop 1) "y" = .ok (.term .int) ∧ binds (inMethod.drop 1) "y" = false ∧
    inMethod.find "x" = .ok (.term .str) ∧ FindsFrom false inMethod "x" 2 ∧
    inMethod.delete "x" = .ok (inMethod.modify 1 (·.unbind "x")) := by
  refine ⟨rfl, rfl, rfl, ⟨⟨_, rfl, rfl, nofun⟩, fun inner before => ?_⟩, rfl⟩
  rintro ⟨scope, here, bound, away⟩
  interval_cases inner <;> cases here
  · cases bound
  · exact absurd ((away rfl).2 _ mem_cons_self) (by decide)

end Chain

namespace Scope

variable {scope : Scope} {name : String} {type : Meaning}

/-- A scope comes before its children, with all below each of them in turn. -/
theorem preorder_eq (scope : Scope) :
    scope.preorder = scope :: scope.children.flatMap preorder := by
  have all (scopes : List Scope) : preorderAll scopes = scopes.flatMap preorder := by
    induction scopes with
    | nil => rfl
    | cons scope scopes ih => rw [preorderAll, ih, flatMap_cons]
  obtain ⟨_, _, _, _, _, _, _, _, _, _, _, _, children⟩ := scope
  rw [preorder, all]

mutual

theorem bindsBelow_eq_any : (scope : Scope) →
    scope.bindsBelow name = scope.preorder.any (·.types.contains name)
  | ⟨_, _, _, _, _, _, _, _, _, _, _, _, children⟩ => by
    rw [bindsBelow, preorder, any_cons, anyBindsBelow_eq_any children]

theorem anyBindsBelow_eq_any : (scopes : List Scope) →
    anyBindsBelow scopes name = (preorderAll scopes).any (·.types.contains name)
  | [] => rfl
  | scope :: scopes => by
    rw [anyBindsBelow, preorderAll, any_append, bindsBelow_eq_any scope,
      anyBindsBelow_eq_any scopes]

end

mutual

theorem findBelow?_eq_findSome? : (scope : Scope) →
    scope.findBelow? name = scope.preorder.findSome? (·.types.get? name)
  | ⟨_, _, _, types, _, _, _, _, _, _, _, _, children⟩ => by
    rw [findBelow?, preorder, findSome?_cons, findInBelow?_eq_findSome? children]
    dsimp only
    cases types.get? name <;> rfl

theorem findInBelow?_eq_findSome? : (scopes : List Scope) →
    findInBelow? scopes name = (preorderAll scopes).findSome? (·.types.get? name)
  | [] => rfl
  | scope :: scopes => by
    rw [findInBelow?, preorderAll, findSome?_append, findBelow?_eq_findSome? scope,
      findInBelow?_eq_findSome? scopes]
    cases scope.preorder.findSome? (·.types.get? name) <;> rfl

end

theorem findBelow_eq_ok_iff :
    scope.findBelow name = .ok type ↔ scope.findBelow? name = some type := by
  unfold findBelow
  cases scope.findBelow? name <;> simp

/-- A name is told to be bound below a scope exactly if its type is found there. The type is that in
the first scope with the name, each scope being before its children and these in their order. -/
theorem test_below_iff_found_first (scope : Scope) (name : String) :
    (scope.bindsBelow name = true ↔ ∃ type, scope.findBelow name = .ok type) ∧
    (∀ type, scope.findBelow name = .ok type ↔ ∃ before first after,
      scope.preorder = before ++ first :: after ∧ first.types.get? name = some type ∧
        ∀ earlier ∈ before, earlier.types.contains name = false) ∧
    scope.preorder = scope :: scope.children.flatMap preorder := by
  have found (type : Meaning) : scope.findBelow name = .ok type ↔
      ∃ before first after, scope.preorder = before ++ first :: after ∧
        first.types.get? name = some type ∧
        ∀ earlier ∈ before, earlier.types.contains name = false := by
    rw [findBelow_eq_ok_iff, findBelow?_eq_findSome?, findSome?_eq_some_iff]
    simp only [← Table.isSome_get?, Option.isSome_eq_false_iff, Option.isNone_iff_eq_none]
  refine ⟨?_, found, preorder_eq scope⟩
  simp only [findBelow_eq_ok_iff, ← Option.isSome_iff_exists, findBelow?_eq_findSome?,
    bindsBelow_eq_any, findSome?_isSome_iff, any_eq_true, Table.isSome_get?]

end Scope

end TypeInference
