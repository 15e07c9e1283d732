import TypeFlow.Forest.Basic
import TypeFlow.Proofs.FlowOrder

/-!
# What is known of a type accumulates

As a forest changes, what is known of a class never gets less.  An error stays one; a base type falls
in the order of flows; a function keeps its arity and may gain identities and nil; a record may gain
sites and nil, and may be closed; a wrapper becomes a type that has nil among its values.  Anything
may turn out to be an error, and only a variable may become any other kind.

Main definitions:

- `Kind.Accrues`: the second kind says at least as much as the first.

Main results:

- `Kind.Accrues.trans`: what was said once is never taken back.
- `Kind.accrues_orNil`: a type that takes nil in says as much as before.
-/

namespace TypeFlow

namespace Kind

/-! ## Kinds that say more -/

/-- The second kind says at least as much as the first. -/
inductive Accrues : Kind → Kind → Prop
  | var (k : Kind) : Accrues .var k
  /-- Anything may turn out to be an error, and an error can only stay one. -/
  | error {k : Kind} (hlink : k.isLink = false) (cause : TypeError) : Accrues k (.error cause)
  | base {flow flow' : Flow} (h : flow.covers flow' = true) : Accrues (.base flow) (.base flow')
  | function {args args' : List TermId} {ret ret' : TermId} {fids fids' : IdSet} {nil nil' : Bool}
      (hargs : args'.length = args.length) (hfids : ∀ x ∈ fids, x ∈ fids')
      (hnil : nil = true → nil' = true) :
      Accrues (.function args ret fids nil) (.function args' ret' fids' nil')
  | record {fields fields' : Fields TermId none} {sites sites' : IdSet}
      {isOpen isOpen' nil nil' : Bool} (hsites : ∀ x ∈ sites, x ∈ sites')
      (hopen : isOpen' = true → isOpen = true) (hnil : nil = true → nil' = true) :
      Accrues (.record fields sites isOpen nil) (.record fields' sites' isOpen' nil')
  /-- A wrapper may become a base type, a function or a record that has nil among its values. -/
  | nilable {inner : TermId} {k : Kind} (h : k.mayNil = true) : Accrues (.nilable inner) k

namespace Accrues

variable {k k' k'' : Kind}

/-- A kind that is no link accrues to itself. -/
theorem refl (h : k.isLink = false) : k.Accrues k := by
  cases k with
  | var => exact .var _
  | base flow => exact .base flow.covers_self
  | nilable inner => exact .nilable rfl
  | function args ret fids nil => exact .function rfl (fun _ hx => hx) id
  | record fields sites isOpen nil => exact .record (fun _ hx => hx) id id
  | error cause => exact .error rfl cause
  | link t => cases h

/-- Nil stays among the values of a type of which more is known, unless that is an error. -/
theorem mayNil (h : k.Accrues k') (hnil : k.mayNil = true) :
    k'.mayNil = true ∨ ∃ cause, k' = .error cause := by
  cases h with
  | var k => cases hnil
  | error hlink cause => exact Or.inr ⟨cause, rfl⟩
  | base h => exact Or.inl (Flow.mayNil_of_covers h hnil)
  | function hargs hfids h => exact Or.inl (h hnil)
  | record hsites hopen h => exact Or.inl (h hnil)
  | nilable h => exact Or.inl h

/-- What was said once is never taken back. -/
theorem trans (h : k.Accrues k') (h' : k'.Accrues k'') : k.Accrues k'' := by
  cases h with
  | var k => exact .var _
  | error hlink cause =>
    cases h' with
    | error _ cause' => exact .error hlink cause'
  | base h =>
    cases h' with
    | error _ cause => exact .error rfl cause
    | base h' => exact .base (Flow.covers_trans h h')
  | function hargs hfids hnil =>
    cases h' with
    | error _ cause => exact .error rfl cause
    | function hargs' hfids' hnil' =>
      exact .function (hargs'.trans hargs) (fun x hx => hfids' x (hfids x hx)) fun hn =>
        hnil' (hnil hn)
  | record hsites hopen hnil =>
    cases h' with
    | error _ cause => exact .error rfl cause
    | record hsites' hopen' hnil' =>
      exact .record (fun x hx => hsites' x (hsites x hx)) (fun ho => hopen (hopen' ho)) fun hn =>
        hnil' (hnil hn)
  | nilable h =>
    rcases h'.mayNil h with hnil | ⟨cause, rfl⟩
    · exact .nilable hnil
    · exact .error rfl cause

/-- Only a variable may become one. -/
theorem eq_var (h : k.Accrues k') (hvar : k' = .var) : k = .var := by
  subst hvar
  cases h with
  | var => rfl
  | nilable h => cases h

/-- Only a variable or a wrapper may become a function, and functions keep their arity. -/
theorem arity?_eq_some (h : k.Accrues k') (hvar : k ≠ .var) (hnilable : k.isNilable = false) {n : Nat}
    (hn : k'.arity? = some n) : k.arity? = some n := by
  cases h with
  | var => exact absurd rfl hvar
  | error => cases hn
  | base => cases hn
  | function hargs hfids hnil => rw [← hn, Kind.arity?, Kind.arity?, hargs]
  | record => cases hn
  | nilable => cases hnilable

/-- An error stays one. -/
theorem isError (h : k.Accrues k') (herror : k.isError = true) : k'.isError = true := by
  cases h with
  | error => rfl
  | _ => cases herror

end Accrues

/-- Which terms the children are is not among what is known of a type. -/
theorem accrues_setChild {k : Kind} {slot : Slot} {child : TermId} (h : k.isLink = false) :
    k.Accrues (k.setChild slot child) := by
  cases k with
  | nilable inner => cases slot <;> exact .nilable rfl
  | function args ret fids nil =>
    cases slot with
    | arg i => exact .function List.length_set (fun _ hx => hx) id
    | _ => exact .function rfl (fun _ hx => hx) id
  | record fields sites isOpen nil => cases slot <;> exact .record (fun _ hx => hx) id id
  | _ => cases slot <;> exact .refl h

/-- Allowing nil is an accrual. -/
theorem accrues_orNil {k : Kind} (h : k.isLink = false) : k.Accrues k.orNil := by
  cases k with
  | base flow => exact .base flow.covers_orNil
  | function args ret fids nil => exact .function rfl (fun _ hx => hx) fun _ => rfl
  | record fields sites isOpen nil => exact .record (fun _ hx => hx) id fun _ => rfl
  | _ => exact .refl h

end Kind

end TypeFlow
