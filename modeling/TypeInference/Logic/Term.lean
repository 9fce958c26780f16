/- The terms of the logic in which constraints are stated. -/

namespace TypeInference

/-- A term denotes a type, a whole number or a method. -/
inductive Term where
  | const (name : String)
  | num (value : Int)
  /-- The method that is being looked at. -/
  | method (name : String)
  | con (name : String) (args : List Term)
  | get (accessor : String) (whole : Term)
  | subst (whole what replacement : Term)
  | upper (var : Term)
  /-- The number that a fixed-width value stands for. -/
  | toInt (width : String) (whole : Term)
deriving Repr, Inhabited

namespace Term

mutual

def beq : Term → Term → Bool
  | const a, const b => a == b
  | num a, num b => a == b
  | method a, method b => a == b
  | con a as, con b bs => a == b && beqList as bs
  | get a s, get b t => a == b && beq s t
  | subst a b c, subst d e f => beq a d && beq b e && beq c f
  | upper a, upper b => beq a b
  | toInt a s, toInt b t => a == b && beq s t
  | _, _ => false

def beqList : List Term → List Term → Bool
  | [], [] => true
  | a :: as, b :: bs => beq a b && beqList as bs
  | _, _ => false

end

instance : BEq Term := ⟨beq⟩

mutual

theorem beq_refl : (a : Term) → beq a a = true
  | const _ | num _ | method _ => by simp [beq]
  | con _ as => by simp [beq, beqList_refl as]
  | get _ s => by simp [beq, beq_refl s]
  | subst a b c => by simp [beq, beq_refl a, beq_refl b, beq_refl c]
  | upper a => by simp [beq, beq_refl a]
  | toInt _ s => by simp [beq, beq_refl s]

theorem beqList_refl : (as : List Term) → beqList as as = true
  | [] => rfl
  | a :: as => by simp [beqList, beq_refl a, beqList_refl as]

end

mutual

theorem eq_of_beq : {a b : Term} → beq a b = true → a = b
  | const _, b, same => by cases b <;> simp_all [beq]
  | num _, b, same => by cases b <;> simp_all [beq]
  | method _, b, same => by cases b <;> simp_all [beq]
  | con _ as, b, same => by
    cases b with
    | con name bs =>
      simp only [beq, Bool.and_eq_true, beq_iff_eq] at same
      rw [same.1, eq_of_beqList same.2]
    | _ => simp [beq] at same
  | get _ s, b, same => by
    cases b with
    | get name t =>
      simp only [beq, Bool.and_eq_true, beq_iff_eq] at same
      rw [same.1, eq_of_beq same.2]
    | _ => simp [beq] at same
  | subst a b c, t, same => by
    cases t with
    | subst d e f =>
      simp only [beq, Bool.and_eq_true] at same
      rw [eq_of_beq same.1.1, eq_of_beq same.1.2, eq_of_beq same.2]
    | _ => simp [beq] at same
  | upper a, b, same => by
    cases b with
    | upper c => rw [eq_of_beq (a := a) (b := c) same]
    | _ => simp [beq] at same
  | toInt _ s, b, same => by
    cases b with
    | toInt name t =>
      simp only [beq, Bool.and_eq_true, beq_iff_eq] at same
      rw [same.1, eq_of_beq same.2]
    | _ => simp [beq] at same

theorem eq_of_beqList : {as bs : List Term} → beqList as bs = true → as = bs
  | [], [], _ => rfl
  | a :: as, b :: bs, same => by
    simp only [beqList, Bool.and_eq_true] at same
    rw [eq_of_beq same.1, eq_of_beqList same.2]
  | [], _ :: _, same => by simp [beqList] at same
  | _ :: _, [], same => by simp [beqList] at same

end

instance : LawfulBEq Term where
  eq_of_beq := eq_of_beq
  rfl := beq_refl _

instance : DecidableEq Term := fun a b =>
  if same : a == b then .isTrue (eq_of_beq same)
  else .isFalse fun equal => same (equal ▸ beq_refl a)

def atom (name : String) : Term := con name []

def object : Term := atom "object"
def none : Term := atom "none"
def complex : Term := atom "complex"
def float : Term := atom "float"
def int : Term := atom "int"
def bool : Term := atom "bool"
def sequence : Term := atom "sequence"
def str : Term := atom "str"
def bytes : Term := atom "bytes"
def tuple : Term := atom "tuple"

def type (instance_ : Term) : Term := con "type" [instance_]

def list (element : Term) : Term := con "list" [element]
def set (element : Term) : Term := con "set" [element]
def dict (key value : Term) : Term := con "dict" [key, value]

variable (t : Term)

def typeArg : Term := get "type_arg_0" t
def listArg : Term := get "list_arg_0" t
def setArg : Term := get "set_arg_0" t
def dictKey : Term := get "dict_arg_0" t
def dictValue : Term := get "dict_arg_1" t

def typeVar (id : String) : Term := atom ("tv" ++ id)

/-- An integer type of fixed width, signed if its mark is `i`. -/
def fixed (mark : String) (width : Nat) : Term := atom (mark ++ toString width)

def classAttr (className attr : String) : Term :=
  const ("class_" ++ className ++ "_attr_" ++ attr)

def noMethod : Term := method "none"

end Term

end TypeInference
