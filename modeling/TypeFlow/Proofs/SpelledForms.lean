import TypeFlow.Proofs.Readers
import TypeFlow.Proofs.WrittenDoubles

/-!
# Expressions as texts spell them

Whatever is read from a text has names that are names, numbers that are not negative, texts without
quotes, and no definition that fields are loaded from.  Only a guarded conditional has parts that no
text spells.

Main definitions:

- `Expr.subterms`: an expression and all expressions in it.
- `Expr.isGuard`: a conditional on an identifier, whose true branch is guarded.
- `Expr.Spelled`: what is at the top of an expression is as a text spells it.

Main results:

- `Expr.spelled_of_parse`: every part of a program without guards is spelled.
-/

namespace TypeFlow

namespace Expr

mutual

/-- The expression and all expressions in it. -/
def subterms : Expr → List Expr
  | apply fn args => apply fn args :: (subterms fn ++ subtermsOfArgs args)
  | lambda params body widen => lambda params body widen :: subterms body
  | letIn name definition body => letIn name definition body :: (subterms definition ++ subterms body)
  | record fields => record fields :: subtermsOfFields fields
  | field rec label => field rec label :: subterms rec
  | nil => [nil]
  | int c => [int c]
  | float x => [float x]
  | text s => [text s]
  | prim p => [prim p]
  | ident x => [ident x]
  termination_by structural e => e

/-- The expressions in a list of arguments. -/
def subtermsOfArgs : List Expr → List Expr
  | [] => []
  | e :: rest => subterms e ++ subtermsOfArgs rest
  termination_by structural es => es

/-- The expressions in the fields of a record. -/
def subtermsOfFields : List (String × Expr) → List Expr
  | [] => []
  | e :: rest => subtermsOfField e ++ subtermsOfFields rest
  termination_by structural es => es

/-- The expressions in one field. -/
def subtermsOfField : String × Expr → List Expr
  | (_, e) => subterms e
  termination_by structural e => e

end

/-- A property holds of the expression and of all expressions in it. -/
def All (P : Expr → Prop) (e : Expr) : Prop := ∀ sub ∈ e.subterms, P sub

section All

variable {P : Expr → Prop}

private theorem forall_mem_subtermsOfArgs {es : List Expr} :
    (∀ sub ∈ subtermsOfArgs es, P sub) ↔ ∀ e ∈ es, e.All P := by
  induction es with
  | nil => simp [subtermsOfArgs]
  | cons e rest ih =>
    rw [subtermsOfArgs, List.forall_mem_append, ih, List.forall_mem_cons]
    rfl

private theorem forall_mem_subtermsOfFields {es : List (String × Expr)} :
    (∀ sub ∈ subtermsOfFields es, P sub) ↔ ∀ e ∈ es, e.2.All P := by
  induction es with
  | nil => simp [subtermsOfFields]
  | cons e rest ih =>
    obtain ⟨label, e⟩ := e
    rw [subtermsOfFields, List.forall_mem_append, ih, List.forall_mem_cons]
    rfl

/-- What holds throughout an application holds of it, of its function and of its arguments. -/
theorem all_apply {fn : Expr} {args : List Expr} :
    (apply fn args).All P ↔ P (apply fn args) ∧ fn.All P ∧ ∀ e ∈ args, e.All P := by
  simp only [All, subterms, List.forall_mem_cons, List.forall_mem_append, forall_mem_subtermsOfArgs]

/-- What holds throughout a lambda holds of it and throughout its body. -/
theorem all_lambda {params : List String} {body : Expr} {widen : Bool} :
    (lambda params body widen).All P ↔ P (lambda params body widen) ∧ body.All P := by
  simp only [All, subterms, List.forall_mem_cons]

/-- What holds throughout a binding holds of it, and throughout what is bound and the body. -/
theorem all_letIn {name : String} {definition body : Expr} :
    (letIn name definition body).All P ↔
      P (letIn name definition body) ∧ definition.All P ∧ body.All P := by
  simp only [All, subterms, List.forall_mem_cons, List.forall_mem_append]

/-- What holds throughout a record holds of it and throughout its fields. -/
theorem all_record {fields : List (String × Expr)} :
    (record fields).All P ↔ P (record fields) ∧ ∀ e ∈ fields, e.2.All P := by
  simp only [All, subterms, List.forall_mem_cons, forall_mem_subtermsOfFields]

/-- What holds throughout a field access holds of it and throughout the record. -/
theorem all_field {rec : Expr} {label : String} :
    (field rec label).All P ↔ P (field rec label) ∧ rec.All P := by
  simp only [All, subterms, List.forall_mem_cons]

/-- What holds of an expression and of all in it holds of the expression. -/
theorem All.top {e : Expr} (h : e.All P) : P e := by
  apply h
  cases e <;> simp [subterms]

end All

/-- A conditional on an identifier with a true branch. -/
def isGuard : Expr → Bool
  | apply (prim .cond) (ident _ :: _ :: _) => true
  | _ => false

/-- A definition. -/
def isLet : Expr → Bool
  | letIn _ _ _ => true
  | _ => false

open Parse (IsName)

/-- What is at the top of the expression is as a text spells it. -/
def Spelled : Expr → Prop
  | nil | apply _ _ => True
  | int c => 0 < c.toInt
  | float x => x.isNegative = false
  | text s => '"' ∉ s.toList
  | prim p => p ≠ .notNil
  | ident x => IsName x ∧ Primitive.ofName? x = none
  | lambda params _ widen => (∀ x ∈ params, IsName x) ∧ widen = true
  | letIn x _ _ => IsName x
  | record fields => ∀ e ∈ fields, IsName e.1
  | field rec label => rec.isLet = false ∧ IsName label

/-- If no conditional in the expression is guarded, it is spelled throughout. -/
def SpelledUnlessGuarded (e : Expr) : Prop := e.All (isGuard · = false) → e.All Spelled

/-- A call that is no guard is the plain call. -/
theorem call_of_not_isGuard {fn : Expr} {args : List Expr} (h : (apply fn args).isGuard = false) :
    call fn args = apply fn args := by
  unfold call
  split
  · cases h
  · rfl

/-- A call that guards nothing is the plain call. -/
theorem call_of_unguarded {fn : Expr} {args : List Expr} (h : (call fn args).isGuard = false) :
    call fn args = apply fn args := by
  unfold call at h ⊢
  split
  · cases h
  · rfl

end Expr

namespace Parse

open TypeFlow.Expr (SpelledUnlessGuarded)

/-! ## Signs and literals -/

private theorem next_eq_ok {c d : Cursor} {o : Option Char}
    (h : next c = ExceptT.mk (some (.ok (o, d)))) : o = d.rest.head? ∧ d.rest = trim c.rest := by
  cases h
  exact ⟨rfl, rfl⟩

private theorem takeRun_eq_ok {kind : Char → Bool} {c d : Cursor} {run : List Char}
    (h : takeRun kind c = ExceptT.mk (some (.ok (run, d)))) :
    run = c.rest.takeWhile kind ∧ d.rest = c.rest.dropWhile kind := by
  cases h
  exact ⟨rfl, rfl⟩

private theorem nextSome_eq_ok {c d : Cursor} {x : Char}
    (h : nextSome c = ExceptT.mk (some (.ok (x, d)))) :
    d.rest.head? = some x ∧ d.rest = trim c.rest := by
  obtain ⟨o, d', ho, h⟩ := bind_eq_ok.1 h
  obtain ⟨rfl, hrest⟩ := next_eq_ok ho
  cases hhead : d'.rest.head? with
  | none =>
    rw [hhead] at h
    cases h
  | some y =>
    rw [hhead] at h
    obtain ⟨rfl, rfl⟩ := pure_eq_ok.1 h
    exact ⟨hhead, hrest⟩

private theorem yields_name : Yields name fun x _ => IsName x := by
  intro c x d h
  obtain ⟨o, c', ho, h⟩ := bind_eq_ok.1 h
  obtain ⟨rfl, -⟩ := next_eq_ok ho
  cases hhead : c'.rest.head? with
  | none =>
    rw [hhead] at h
    cases h
  | some y =>
    rw [hhead] at h
    dsimp only at h
    split at h
    · rename_i hstarts
      obtain ⟨run, d', hrun, h⟩ := bind_eq_ok.1 h
      obtain ⟨rfl, -⟩ := takeRun_eq_ok hrun
      obtain ⟨rfl, -⟩ := pure_eq_ok.1 h
      obtain ⟨tail, htail⟩ := List.head?_eq_some_iff.1 hhead
      have hgoes : continuesName y = true := by simp [continuesName, hstarts]
      refine ⟨⟨y, tail.takeWhile continuesName, ?_, hstarts⟩, ?_⟩
      · simp [htail, hgoes]
      · intro z hz
        rw [String.toList_ofList] at hz
        exact List.mem_takeWhile_imp (p := continuesName) hz
    · cases h

private theorem yields_quotedText : Yields quotedText fun e _ => SpelledUnlessGuarded e ∧ e.isLet = false := by
  refine yields_bind (yields_any _) fun _ _ _ => ?_
  have hrun : Yields (takeRun (· != '"')) fun content _ => '"' ∉ content := by
    intro c run d h hmem
    obtain ⟨rfl, -⟩ := takeRun_eq_ok h
    have := List.mem_takeWhile_imp (p := (· != '"')) hmem
    simp at this
  refine yields_bind hrun fun content _ hcontent => ?_
  refine yields_bind (yields_any _) fun o _ _ => ?_
  cases o with
  | none => exact yields_bind (yields_any _) fun _ _ _ => yields_throw _
  | some y =>
    refine yields_bind (yields_any _) fun _ _ _ => yields_pure fun t => ⟨fun _ => ?_, rfl⟩
    intro sub hsub
    obtain rfl := List.mem_singleton.1 hsub
    simpa [Expr.Spelled] using hcontent

private theorem fractionFollows_eq_ok {c d : Cursor} {b : Bool}
    (h : fractionFollows c = ExceptT.mk (some (.ok (b, d)))) :
    b = startsFraction c.rest ∧ d = c := by
  rw [fractionFollows_apply] at h
  cases h
  exact ⟨rfl, rfl⟩

/-- A run of digits that does not start with a zero is not zero. -/
theorem decimalValue_pos {c : Char} {digits : List Char} (hdigit : c.isDigit = true)
    (hzero : c ≠ '0') : 0 < decimalValue (c :: digits) := by
  have hc : '0'.toNat < c.toNat := by
    have hle : '0'.toNat ≤ c.toNat := by
      simp only [Char.isDigit, Bool.and_eq_true, decide_eq_true_eq] at hdigit
      exact hdigit.1
    refine Nat.lt_of_le_of_ne hle fun h => hzero (Char.toNat_inj.1 h.symm)
  have := decimalValue_append [c] digits
  have hhead : 0 < decimalValue [c] := by
    simp only [decimalValue, List.foldl]
    omega
  rw [List.singleton_append] at this
  rw [this]
  exact Nat.add_pos_left (Nat.mul_pos hhead (Nat.pow_pos (by decide))) _

private theorem spelled_leaf {e : Expr} (hsub : e.subterms = [e]) (h : e.Spelled) :
    SpelledUnlessGuarded e := by
  intro _ sub hmem
  rw [hsub, List.mem_singleton] at hmem
  rwa [hmem]

/-- Digits are read as a double that is not negative or, if their number is positive, as an
integer. -/
theorem spelled_digits {c d : Cursor} {start : Nat} {e : Expr}
    (hpos : startsFraction (c.rest.dropWhile Char.isDigit) = false →
      0 < decimalValue (c.rest.takeWhile Char.isDigit))
    (h : digits start c = ExceptT.mk (some (.ok (e, d)))) :
    SpelledUnlessGuarded e ∧ e.isLet = false := by
  obtain ⟨whole, c₁, hwhole, h⟩ := bind_eq_ok.1 h
  obtain ⟨rfl, hrest⟩ := takeRun_eq_ok hwhole
  obtain ⟨b, c₂, hb, h⟩ := bind_eq_ok.1 h
  obtain ⟨rfl, rfl⟩ := fractionFollows_eq_ok hb
  split at h
  · obtain ⟨-, c₃, -, h⟩ := bind_eq_ok.1 h
    obtain ⟨fraction, c₄, -, h⟩ := bind_eq_ok.1 h
    obtain ⟨rfl, -⟩ := pure_eq_ok.1 h
    exact ⟨spelled_leaf rfl (Double.isNegative_ofDecimal _ _), rfl⟩
  · rename_i hnone
    dsimp only at h
    split at h
    · rename_i hroom
      obtain ⟨rfl, -⟩ := pure_eq_ok.1 h
      refine ⟨spelled_leaf rfl ?_, rfl⟩
      change 0 < (Int64.ofNat _).toInt
      rw [Int64.toInt_ofNat_of_lt hroom]
      rw [hrest, Bool.not_eq_true] at hnone
      exact_mod_cast hpos hnone
    · cases h

/-- A number is read as nil, a double that is not negative or a positive integer. -/
theorem spelled_number {c d : Cursor} {x : Char} {e : Expr} (hx : c.rest.head? = some x)
    (hdigit : x.isDigit = true) (h : number c = ExceptT.mk (some (.ok (e, d)))) :
    SpelledUnlessGuarded e ∧ e.isLet = false := by
  obtain ⟨start, c₁, hstart, h⟩ := bind_eq_ok.1 h
  obtain ⟨first, c₂, hfirst, h⟩ := bind_eq_ok.1 h
  cases hstart
  obtain ⟨rfl, rfl⟩ : first = c.rest.head? ∧ c₂ = c := by
    cases hfirst
    exact ⟨rfl, rfl⟩
  obtain ⟨rest, hrest⟩ := List.head?_eq_some_iff.1 hx
  split at h
  · obtain ⟨-, c₃, -, h⟩ := bind_eq_ok.1 h
    obtain ⟨b, c₄, hb, h⟩ := bind_eq_ok.1 h
    obtain ⟨rfl, rfl⟩ := fractionFollows_eq_ok hb
    split at h
    · rename_i hfraction
      refine spelled_digits (fun hnone => ?_) h
      rw [(dropWhile_of_startsFraction hfraction).2, hfraction] at hnone
      cases hnone
    · obtain ⟨rfl, -⟩ := pure_eq_ok.1 h
      exact ⟨spelled_leaf rfl trivial, rfl⟩
  · rename_i hzero
    refine spelled_digits (fun _ => ?_) h
    rw [hrest, List.takeWhile_cons_of_pos hdigit]
    refine decimalValue_pos hdigit fun e => hzero ?_
    rw [hx, e]

/-! ## Compound forms -/

section Forms

variable {part : ParseM Expr} {fuel : Nat}

private theorem yields_arguments (hpart : Yields part fun e _ => SpelledUnlessGuarded e) :
    Yields (arguments part fuel) fun es _ => ∀ e ∈ es, SpelledUnlessGuarded e := by
  induction fuel with
  | zero => exact yields_cutOff
  | succ fuel ih =>
    refine yields_bind (yields_any _) fun c _ _ => yields_ite (fun _ => ?_) fun _ => ?_
    · exact yields_bind (yields_any _) fun _ _ _ => yields_pure fun _ => by simp
    · refine yields_bind hpart fun e _ he => yields_bind ih fun rest _ hrest => yields_pure fun _ => ?_
      exact List.forall_mem_cons.2 ⟨he, hrest⟩

private theorem yields_callForm (hpart : Yields part fun e _ => SpelledUnlessGuarded e) :
    Yields (callForm part) fun e _ => SpelledUnlessGuarded e ∧ e.isLet = false := by
  refine yields_bind (yields_any _) fun _ _ _ => yields_bind hpart fun fn _ hfn => ?_
  refine yields_bind (yields_any _) fun _ _ _ => yields_bind (yields_arguments hpart) fun args _ hargs => ?_
  refine yields_pure fun _ => ⟨fun hall => ?_, ?_⟩
  · have hplain : Expr.call fn args = .apply fn args := Expr.call_of_unguarded hall.top
    rw [hplain] at hall ⊢
    obtain ⟨-, hfn', hargs'⟩ := Expr.all_apply.1 hall
    exact Expr.all_apply.2 ⟨trivial, hfn hfn', fun e he => hargs e he (hargs' e he)⟩
  · unfold Expr.call
    split <;> rfl

private theorem yields_parameters : Yields (parameters fuel) fun xs _ => ∀ x ∈ xs, IsName x := by
  induction fuel with
  | zero => exact yields_cutOff
  | succ fuel ih =>
    refine yields_bind (yields_any _) fun c _ _ => yields_ite (fun _ => ?_) fun _ => ?_
    · exact yields_bind (yields_any _) fun _ _ _ => yields_pure fun _ => by simp
    · refine yields_bind yields_name fun x _ hx => yields_bind ih fun rest _ hrest => ?_
      exact yields_pure fun _ => List.forall_mem_cons.2 ⟨hx, hrest⟩

private theorem yields_functionForm (hpart : Yields part fun e _ => SpelledUnlessGuarded e) :
    Yields (functionForm part) fun e _ => SpelledUnlessGuarded e ∧ e.isLet = false := by
  refine yields_bind (yields_any _) fun _ _ _ => yields_bind (yields_any _) fun _ _ _ => ?_
  refine yields_bind yields_parameters fun params _ hparams => yields_bind (yields_any _) fun c _ _ => ?_
  refine yields_ite (fun _ => ?_) fun _ => ?_
  · refine yields_bind (yields_any _) fun _ _ _ => yields_bind hpart fun body _ hbody => ?_
    refine yields_bind (yields_any _) fun _ _ _ => yields_pure fun _ => ⟨fun hall => ?_, rfl⟩
    exact Expr.all_lambda.2 ⟨⟨hparams, rfl⟩, hbody (Expr.all_lambda.1 hall).2⟩
  · exact yields_bind (yields_any _) fun _ _ _ => yields_throw _

private theorem yields_entries (hpart : Yields part fun e _ => SpelledUnlessGuarded e) :
    Yields (entries part fuel) fun es _ => ∀ e ∈ es, IsName e.1 ∧ SpelledUnlessGuarded e.2 := by
  induction fuel with
  | zero => exact yields_cutOff
  | succ fuel ih =>
    refine yields_bind (yields_any _) fun c _ _ => yields_ite (fun _ => ?_) fun _ => ?_
    · exact yields_bind (yields_any _) fun _ _ _ => yields_pure fun _ => by simp
    · refine yields_bind yields_name fun label _ hlabel => yields_bind (yields_any _) fun _ _ _ => ?_
      refine yields_bind hpart fun e _ he => yields_bind (yields_any _) fun c _ _ => ?_
      have hrest : Yields (entries part fuel >>= fun rest => pure ((label, e) :: rest))
          fun es _ => ∀ e ∈ es, IsName e.1 ∧ SpelledUnlessGuarded e.2 := by
        refine yields_bind ih fun rest _ hrest => yields_pure fun _ => ?_
        exact List.forall_mem_cons.2 ⟨⟨hlabel, he⟩, hrest⟩
      exact yields_ite (fun _ => yields_bind (yields_any _) fun _ _ _ => hrest) fun _ => hrest

private theorem yields_recordForm (hpart : Yields part fun e _ => SpelledUnlessGuarded e) :
    Yields (recordForm part) fun e _ => SpelledUnlessGuarded e ∧ e.isLet = false := by
  refine yields_bind (yields_any _) fun _ _ _ => yields_bind (yields_any _) fun _ _ _ => ?_
  refine yields_bind (yields_any _) fun _ _ _ => yields_bind (yields_entries hpart) fun es _ hes => ?_
  refine yields_pure fun _ => ⟨fun hall => Expr.all_record.2 ⟨fun e he => (hes e he).1, ?_⟩, rfl⟩
  exact fun e he => (hes e he).2 ((Expr.all_record.1 hall).2 e he)

/-- No field is loaded from what follows. -/
def LoadsNothing (rest : List Char) : Prop := (trim rest).head? ≠ some '.'

/-- A primitive that a name of a program stands for can be named. -/
theorem ne_notNil_of_ofName? {x : String} {p : Primitive} (hx : IsName x)
    (h : Primitive.ofName? x = some p) : p ≠ .notNil := by
  rintro rfl
  have hfound := List.find?_some (p := fun p : Primitive => p.name == x) h
  have hname : Primitive.notNil.name = x := beq_iff_eq.1 hfound
  obtain ⟨c, rest, hc, hstarts⟩ := hx.starts
  rw [← hname] at hc
  cases hc
  exact absurd hstarts (by decide)

private theorem yields_namedForm
    (hpart : Yields part fun e rest => SpelledUnlessGuarded e ∧ LoadsNothing rest) :
    Yields (namedForm part) fun e rest =>
      SpelledUnlessGuarded e ∧ (e.isLet = true → LoadsNothing rest) := by
  refine yields_bind yields_name fun x _ hx => yields_bind (yields_any _) fun c _ _ => ?_
  refine yields_ite (fun _ => ?_) fun _ => ?_
  · refine yields_bind (yields_any _) fun _ _ _ => yields_bind hpart fun definition _ hdefinition => ?_
    refine yields_bind (yields_any _) fun _ _ _ => ?_
    intro c e d h
    obtain ⟨body, c', hbody, h⟩ := bind_eq_ok.1 h
    obtain ⟨rfl, rfl⟩ := pure_eq_ok.1 h
    obtain ⟨hspelled, hloads⟩ := hpart _ _ _ hbody
    refine ⟨fun hall => ?_, fun _ => hloads⟩
    obtain ⟨-, hdefinition', hbody'⟩ := Expr.all_letIn.1 hall
    exact Expr.all_letIn.2 ⟨hx, hdefinition.1 hdefinition', hspelled hbody'⟩
  · cases hprim : Primitive.ofName? x with
    | some p =>
      refine yields_pure fun _ => ⟨spelled_leaf rfl ?_, fun h => nomatch h⟩
      exact ne_notNil_of_ofName? hx hprim
    | none => exact yields_pure fun _ => ⟨spelled_leaf rfl ⟨hx, hprim⟩, fun h => nomatch h⟩

private theorem yields_atom (hpart : Yields part fun e rest => SpelledUnlessGuarded e ∧ LoadsNothing rest) :
    Yields (atom part) fun e rest =>
      SpelledUnlessGuarded e ∧ (e.isLet = true → LoadsNothing rest) := by
  have hspelled : Yields part fun e _ => SpelledUnlessGuarded e := hpart.mono fun _ _ h => h.1
  have hplain : ∀ {m : ParseM Expr}, (Yields m fun e _ => SpelledUnlessGuarded e ∧ e.isLet = false) →
      Yields m fun e rest => SpelledUnlessGuarded e ∧ (e.isLet = true → LoadsNothing rest) :=
    fun h => h.mono fun e _ h => ⟨h.1, fun hlet => absurd (h.2.symm.trans hlet) Bool.false_ne_true⟩
  intro c e d h
  obtain ⟨x, c', hx, h⟩ := bind_eq_ok.1 h
  obtain ⟨hhead, -⟩ := nextSome_eq_ok hx
  split at h
  · rename_i hdigit
    have hnumber := spelled_number hhead hdigit h
    exact ⟨hnumber.1, fun hlet => absurd (hnumber.2.symm.trans hlet) Bool.false_ne_true⟩
  revert h
  refine (yields_ite (fun _ => hplain yields_quotedText) fun _ => ?_) c' e d
  refine yields_ite (fun _ => hplain (yields_callForm hspelled)) fun _ => ?_
  refine yields_ite (fun _ => hplain (yields_functionForm hspelled)) fun _ => ?_
  refine yields_ite (fun _ => hplain (yields_recordForm hspelled)) fun _ => ?_
  refine yields_ite (fun _ => yields_namedForm hpart) fun _ => ?_
  exact yields_bind (yields_any _) fun _ _ _ => yields_throw _

/-- A field is loaded only where one follows, and a definition is followed by none. -/
theorem spelled_loads {c d : Cursor} {e e' : Expr} (he : SpelledUnlessGuarded e)
    (hlet : e.isLet = true → LoadsNothing c.rest)
    (h : loads fuel e c = ExceptT.mk (some (.ok (e', d)))) :
    SpelledUnlessGuarded e' ∧ LoadsNothing d.rest := by
  induction fuel generalizing e c with
  | zero => cases h
  | succ fuel ih =>
    obtain ⟨o, c₁, hnext, h⟩ := bind_eq_ok.1 h
    obtain ⟨rfl, hrest⟩ := next_eq_ok hnext
    split at h
    · rename_i hpoint
      obtain ⟨-, c₂, -, h⟩ := bind_eq_ok.1 h
      obtain ⟨label, c₃, hlabel, h⟩ := bind_eq_ok.1 h
      have hname := yields_name _ _ _ hlabel
      refine ih (fun hall => ?_) (fun hlet => Bool.noConfusion hlet) h
      refine Expr.all_field.2 ⟨⟨?_, hname⟩, he (Expr.all_field.1 hall).2⟩
      cases hdef : e.isLet with
      | false => rfl
      | true =>
        rw [hrest] at hpoint
        exact absurd hpoint (hlet hdef)
    · rename_i hpoint
      obtain ⟨rfl, rfl⟩ := pure_eq_ok.1 h
      refine ⟨he, ?_⟩
      rwa [LoadsNothing, hrest, trim_trim, ← hrest]

private theorem yields_expression (depth : Nat) :
    Yields (expression depth) fun e rest => SpelledUnlessGuarded e ∧ LoadsNothing rest := by
  induction depth with
  | zero => exact yields_cutOff
  | succ depth ih =>
    intro c e d h
    obtain ⟨first, c₁, hfirst, h⟩ := bind_eq_ok.1 h
    obtain ⟨hspelled, hlet⟩ := yields_atom ih _ _ _ hfirst
    obtain ⟨c₂, c₃, hget, h⟩ := bind_eq_ok.1 h
    obtain ⟨rfl, rfl⟩ : c₂ = c₁ ∧ c₃ = c₁ := by
      cases hget
      exact ⟨rfl, rfl⟩
    exact spelled_loads hspelled hlet h

end Forms

end Parse

namespace Expr

/-- A text is a program if the reader of programs takes it. -/
theorem parse_eq_ok {source : String} {e : Expr} :
    parse source = .ok e ↔ ∃ d, Parse.program (source.toList.length + 1) ⟨source.toList, 0⟩ =
      ExceptT.mk (some (.ok (e, d))) := by
  unfold parse parse?
  simp only [StateT.run, ExceptT.run]
  rcases h : Parse.program (source.toList.length + 1) ⟨source.toList, 0⟩ with _ | _ | ⟨e', d⟩
  · constructor
    · intro h
      cases h
    · rintro ⟨d, h⟩
      cases h
  · constructor
    · intro h
      cases h
    · rintro ⟨d, h⟩
      cases h
  · constructor
    · intro h
      cases h
      exact ⟨d, rfl⟩
    · rintro ⟨d', h⟩
      cases h
      rfl

/-- Every part of a program without guards is as a text spells it. -/
theorem spelled_of_parse {source : String} {e : Expr} (h : parse source = .ok e) :
    e.SpelledUnlessGuarded := by
  obtain ⟨d, h⟩ := parse_eq_ok.1 h
  obtain ⟨e', c, he, h⟩ := Parse.bind_eq_ok.1 h
  obtain ⟨o, c', -, h⟩ := Parse.bind_eq_ok.1 h
  have hspelled := (Parse.yields_expression _ _ _ _ he).1
  cases o with
  | none =>
    obtain ⟨rfl, -⟩ := Parse.pure_eq_ok.1 h
    exact hspelled
  | some x => cases h

end Expr

end TypeFlow
