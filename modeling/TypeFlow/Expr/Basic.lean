import TypeFlow.Double.Basic
import TypeFlow.Primitive

/-!
# Expressions

The programs that are analysed: literals, primitives, identifiers, calls, functions, definitions,
records and field loads.

Main definitions:

- `Expr`: the expression tree.
- `Expr.call`: a call as a program writes it, where a conditional on an identifier narrows it.
-/

namespace TypeFlow

/-- An expression of the analysed language. -/
inductive Expr
  /-- The literal `0`, which is nil. -/
  | nil
  | int (value : Int64)
  | float (value : Double)
  | text (value : String)
  | prim (primitive : Primitive)
  | ident (name : String)
  | apply (fn : Expr) (args : List Expr)
  /-- A function.  If `widen` is off its parameters keep the constants of its callers. -/
  | lambda (params : List String) (body : Expr) (widen : Bool)
  | letIn (name : String) (definition body : Expr)
  | record (fields : List (String × Expr))
  | field (record : Expr) (label : String)

instance : Inhabited Expr := ⟨.nil⟩

namespace Expr

/-! ## Equality -/

mutual

/-- The expressions are equal. -/
def beq : Expr → Expr → Bool
  | nil, nil => true
  | int a, int b => a == b
  | float a, float b => a == b
  | text a, text b => a == b
  | prim a, prim b => a == b
  | ident a, ident b => a == b
  | apply f as, apply g bs => beq f g && beqList as bs
  | lambda ps e w, lambda qs e' w' => ps == qs && beq e e' && w == w'
  | letIn x d e, letIn y d' e' => x == y && beq d d' && beq e e'
  | record fs, record gs => beqFields fs gs
  | field e l, field e' l' => beq e e' && l == l'
  | _, _ => false
  termination_by structural a => a

/-- The expressions are equal in turn. -/
def beqList : List Expr → List Expr → Bool
  | [], [] => true
  | a :: as, b :: bs => beq a b && beqList as bs
  | _, _ => false
  termination_by structural as => as

/-- The labels and expressions are equal in turn. -/
def beqFields : List (String × Expr) → List (String × Expr) → Bool
  | [], [] => true
  | a :: as, b :: bs => beqField a b && beqFields as bs
  | _, _ => false
  termination_by structural as => as

/-- The label and the expression are equal. -/
def beqField : String × Expr → String × Expr → Bool
  | (l, a), (k, b) => l == k && beq a b
  termination_by structural a => a

end

mutual

private theorem beq_iff_eq : ∀ a b : Expr, a.beq b = true ↔ a = b
  | nil, b => by cases b <;> simp [beq]
  | int _, b => by cases b <;> simp [beq]
  | float _, b => by cases b <;> simp [beq]
  | text _, b => by cases b <;> simp [beq]
  | prim _, b => by cases b <;> simp [beq]
  | ident _, b => by cases b <;> simp [beq]
  | apply f as, b => by
    cases b with
    | apply g bs => simp [beq, beq_iff_eq f g, beqList_iff_eq as bs]
    | _ => simp [beq]
  | lambda ps e w, b => by
    cases b with
    | lambda qs e' w' => simp [beq, beq_iff_eq e e', and_assoc]
    | _ => simp [beq]
  | letIn x d e, b => by
    cases b with
    | letIn y d' e' => simp [beq, beq_iff_eq d d', beq_iff_eq e e', and_assoc]
    | _ => simp [beq]
  | record fs, b => by
    cases b with
    | record gs => simp [beq, beqFields_iff_eq fs gs]
    | _ => simp [beq]
  | field e l, b => by
    cases b with
    | field e' l' => simp [beq, beq_iff_eq e e']
    | _ => simp [beq]

private theorem beqList_iff_eq : ∀ as bs : List Expr, beqList as bs = true ↔ as = bs
  | [], bs => by cases bs <;> simp [beqList]
  | a :: as, bs => by
    cases bs with
    | nil => simp [beqList]
    | cons b bs => simp [beqList, beq_iff_eq a b, beqList_iff_eq as bs]

private theorem beqFields_iff_eq : ∀ as bs : List (String × Expr), beqFields as bs = true ↔ as = bs
  | [], bs => by cases bs <;> simp [beqFields]
  | a :: as, bs => by
    cases bs with
    | nil => simp [beqFields]
    | cons b bs => simp [beqFields, beqField_iff_eq a b, beqFields_iff_eq as bs]

private theorem beqField_iff_eq : ∀ a b : String × Expr, beqField a b = true ↔ a = b
  | (l, a), (k, b) => by simp [beqField, beq_iff_eq a b]

end

instance : DecidableEq Expr := fun a b => decidable_of_iff _ (beq_iff_eq a b)

/-! ## Calls -/

/-- The true branch of a conditional on an identifier, where the identifier is known not to be
nil: a function of the identifier, called with its part that is not nil. -/
def guarded (name : String) (branch : Expr) : Expr :=
  apply (lambda [name] branch false) [apply (prim .notNil) [ident name]]

/-- A call as a program writes it.  A conditional on a bare identifier guards its true branch. -/
def call (fn : Expr) (args : List Expr) : Expr :=
  match fn, args with
  | prim .cond, ident name :: branch :: rest =>
    apply fn (ident name :: guarded name branch :: rest)
  | _, _ => apply fn args

end Expr

end TypeFlow
