import Mathlib.Data.List.Forall2
import TypeFlow.Primitive
import TypeFlow.Proofs.FlowOrder

/-!
# The rules of primitives fall

What a primitive returns falls when its arguments do: a rule that folds constants gives the class of
its result as soon as an argument is no constant any more, and a predicate that falls only ever lets
more branches run.

There are two exceptions.  Five rules that fold constants take nil for no number, so they give up on
it and fold again when it falls to a zero.  And without its nil a number is still a number, which may
be zero, while every value without its nil is none.  `Primitive.mayRise` has exactly these.

Main definitions:

- `Primitive.Branches.Within`: the branches are among others.
- `Primitive.mayRise`: the result may rise when an argument falls from one flow to another.
- `Primitive.Rises`: it does rise.

Main results:

- `Primitive.liveBranches_within`: a predicate that falls keeps its branches.
- `Primitive.result_le`: results fall unless they may rise.
- `Primitive.result_falls`: results fall, but for exactly the arguments at which they may rise.
-/

namespace TypeFlow

namespace Primitive

/-! ## Folding constants -/

private theorem int64_le_int (i : IntFlow) : Flow.int64 ≤ .int i := by
  rw [Flow.int64, Flow.int_le_int, IntFlow.meet_int64]

private theorem bool_le_true : Flow.bool ≤ Flow.constTrue := by
  rw [Flow.bool, Flow.constTrue, Flow.int_le_int]
  rfl

private theorem bool_le_false : Flow.bool ≤ Flow.constFalse := by
  rw [Flow.bool, Flow.constFalse, Flow.int_le_int]
  rfl

private theorem anyText_le_text (c : Option String) : Flow.anyText ≤ .text c false :=
  Flow.text_le_text.2 ⟨Or.inr rfl, id⟩

private theorem isConst_of_intConst {a : Flow} {x : Int64} (h : intConst? a = some x) :
    a.isConst = true := by
  cases a with
  | int i => cases i <;> first | rfl | cases h
  | _ => cases h

/-- The result may rise when an argument falls from the first flow to the second. -/
def mayRise (p : Primitive) (a a' : Flow) : Bool :=
  match p with
  | eq => a == .nil && a' != .nil && a'.isConst
  | mul => a == .nil && isInt a'
  | add | dec | str => a == .nil && (intConst? a').isSome
  | notNil => a.withoutNil.carriesNil && !a'.withoutNil.carriesNil
  | cond | pair | triple | eqZero | isEmpty | factor => false

section Rules

variable {a a' b b' : Flow} (ha : a' ≤ a) (hb : b' ≤ b) (haa : a.isAny = false)
  (hbb : b.isAny = false)

include ha haa in
/-- A constant among the arguments was the same constant before, or nil. -/
theorem eq_or_nil_of_isConst (hc : a'.isConst = true) : a = .nil ∨ a = a' := by
  rcases Flow.eq_of_isConst ha hc with rfl | hnil | heq
  · cases haa
  · exact Or.inl hnil
  · exact Or.inr heq

include ha haa in
private theorem eq_of_intConst (hnil : (a == .nil && (intConst? a').isSome) = false) {x : Int64}
    (hx : intConst? a' = some x) : a = a' := by
  rcases eq_or_nil_of_isConst ha haa (isConst_of_intConst hx) with rfl | heq
  · rw [hx] at hnil
    cases hnil
  · exact heq

include ha hb haa hbb in
private theorem equality_mono (hra : eq.mayRise a a' = false) (hrb : eq.mayRise b b' = false) :
    equality a' b' ≤ equality a b := by
  have hsame : ∀ {c c' : Flow}, c' ≤ c → c.isAny = false → eq.mayRise c c' = false →
      c'.isConst = true → c = c' := by
    intro c c' hle hany hr hc
    rcases eq_or_nil_of_isConst hle hany hc with rfl | heq
    · have hnil : c' = .nil := by simpa [mayRise, hc] using hr
      rw [hnil]
    · exact heq
  unfold equality
  by_cases h : (a'.isConst && a' == b') = true
  · rw [if_pos h]
    rw [Bool.and_eq_true, beq_iff_eq] at h
    obtain ⟨hc, rfl⟩ := h
    rw [hsame ha haa hra hc, hsame hb hbb hrb hc, if_pos (by simp [hc])]
  · rw [if_neg h]
    split
    · exact bool_le_true
    · exact le_rfl

include ha haa in
private theorem isFalse_of_le (hf : a'.isFalse = true) : a.isFalse = true := by
  rcases eq_or_nil_of_isConst ha haa (Flow.isConst_of_isFalse hf) with rfl | rfl
  · rfl
  · exact hf

include ha haa in
private theorem zeroTest_mono : zeroTest a' ≤ zeroTest a := by
  unfold zeroTest
  by_cases hf : a'.isFalse = true
  · rw [if_pos hf, if_pos (isFalse_of_le ha haa hf)]
  rw [if_neg hf]
  by_cases hm : a'.mayNil = true
  · simp only [hm, Bool.not_true, Bool.false_eq_true, ↓reduceIte]
    split
    · exact bool_le_true
    · split
      · exact bool_le_false
      · exact le_rfl
  · have hm' : a.mayNil ≠ true := fun h => hm (Flow.mayNil_of_covers ha h)
    have hf' : a.isFalse ≠ true := fun h => hm' (Flow.mayNil_of_isFalse h)
    simp [hm, hm', hf']

include ha haa in
private theorem emptyTest_mono : emptyTest a' ≤ emptyTest a := by
  have hbool : Flow.bool ≤ emptyTest a := by
    unfold emptyTest
    split
    · split
      · exact bool_le_true
      · exact bool_le_false
    · exact le_rfl
  by_cases ht : ∃ s, a' = .text (some s) false
  · obtain ⟨s, rfl⟩ := ht
    rcases eq_or_nil_of_isConst ha haa rfl with rfl | rfl
    · have hm := Flow.mayNil_of_covers ha rfl
      cases hm
    · exact le_rfl
  · have h : emptyTest a' = .bool := by
      unfold emptyTest
      split
      · exact absurd ⟨_, rfl⟩ ht
      · rfl
    rw [h]
    exact hbool

private theorem int64_le_sum (a b : Flow) : Flow.int64 ≤ sum a b := by
  unfold sum
  split
  · exact int64_le_int _
  · exact le_rfl

include ha hb haa hbb in
private theorem sum_mono (hra : add.mayRise a a' = false) (hrb : add.mayRise b b' = false) :
    sum a' b' ≤ sum a b := by
  cases hx : intConst? a' with
  | none =>
    have h : sum a' b' = .int64 := by simp [sum, hx]
    rw [h]
    exact int64_le_sum a b
  | some x =>
    cases hy : intConst? b' with
    | none =>
      have h : sum a' b' = .int64 := by simp [sum, hx, hy]
      rw [h]
      exact int64_le_sum a b
    | some y => rw [eq_of_intConst ha haa hra hx, eq_of_intConst hb hbb hrb hy]

include ha haa in
private theorem predecessor_mono (hra : dec.mayRise a a' = false) : predecessor a' ≤ predecessor a := by
  cases hx : intConst? a' with
  | some x => rw [eq_of_intConst ha haa hra hx]
  | none =>
    have h : predecessor a' = .int64 := by simp [predecessor, hx]
    rw [h]
    unfold predecessor
    split
    · exact int64_le_int _
    · exact le_rfl

include ha haa in
private theorem decimal_mono (hra : str.mayRise a a' = false) : decimal a' ≤ decimal a := by
  cases hx : intConst? a' with
  | some x => rw [eq_of_intConst ha haa hra hx]
  | none =>
    have h : decimal a' = .anyText := by simp [decimal, hx]
    rw [h]
    unfold decimal
    split
    · exact anyText_le_text _
    · exact le_rfl

include ha haa in
/-- An integer among the arguments was an integer before. -/
theorem isInt_of_le (hra : mul.mayRise a a' = false) (h : isInt a' = true) : isInt a = true := by
  rcases Flow.eq_or_isClassed a with rfl | rfl | ⟨n, rfl⟩ | hc
  · cases haa
  · simp [mayRise, h] at hra
  · obtain ⟨m, rfl⟩ := Flow.eq_scalar_of_le ha
    cases h
  rcases Flow.sameKind_or_scalar hc ha with hk | ⟨n, rfl⟩
  · cases a' <;> cases h
    cases a <;> first | rfl | cases hk
  · cases h

/-- Zero times an integer is zero, whether the integer is known or not. -/
theorem product_of_zero (h : intConst? a = some 0 ∧ isInt b = true ∨
    isInt a = true ∧ intConst? b = some 0) : product a b = .int (.const 0) := by
  rcases h with ⟨ha, hb⟩ | ⟨ha, hb⟩
  · cases hy : intConst? b with
    | none => simp [product, ha, hy, hb]
    | some y => simp [product, ha, hy]
  · cases hx : intConst? a with
    | none => simp [product, hx, hb, ha]
    | some x => simp [product, hx, hb]

private theorem int64_le_product (a b : Flow) : Flow.int64 ≤ product a b := by
  unfold product
  split
  · exact int64_le_int _
  · split
    · exact int64_le_int _
    · exact le_rfl
  · split
    · exact int64_le_int _
    · exact le_rfl
  · exact le_rfl

private theorem isInt_of_intConst {x : Int64} (h : intConst? a = some x) : isInt a = true := by
  cases a with
  | int i => rfl
  | _ => cases h

include ha haa in
/-- A constant factor was the same constant before. -/
theorem eq_of_factor (hra : mul.mayRise a a' = false) {x : Int64} (hx : intConst? a' = some x) :
    a = a' := by
  refine eq_of_intConst ha haa ?_ hx
  have hnil : (a == .nil) = false := by simpa [mayRise, isInt_of_intConst hx] using hra
  rw [hnil, Bool.false_and]

include ha hb haa hbb in
private theorem product_mono (hra : mul.mayRise a a' = false) (hrb : mul.mayRise b b' = false) :
    product a' b' ≤ product a b := by
  cases hx : intConst? a' with
  | none =>
    cases hy : intConst? b' with
    | none =>
      have h : product a' b' = .int64 := by simp [product, hx, hy]
      rw [h]
      exact int64_le_product a b
    | some y =>
      by_cases hz : (y == 0 && isInt a') = true
      · rw [Bool.and_eq_true, beq_iff_eq] at hz
        obtain ⟨rfl, hint⟩ := hz
        rw [eq_of_factor hb hbb hrb hy, product_of_zero (Or.inr ⟨hint, hy⟩),
          product_of_zero (Or.inr ⟨isInt_of_le ha haa hra hint, hy⟩)]
      · have h : product a' b' = .int64 := by
          simp only [product, hx, hy]
          rw [if_neg hz]
        rw [h]
        exact int64_le_product a b
  | some x =>
    cases hy : intConst? b' with
    | none =>
      by_cases hz : (x == 0 && isInt b') = true
      · rw [Bool.and_eq_true, beq_iff_eq] at hz
        obtain ⟨rfl, hint⟩ := hz
        rw [eq_of_factor ha haa hra hx, product_of_zero (Or.inl ⟨hx, hint⟩),
          product_of_zero (Or.inl ⟨hx, isInt_of_le hb hbb hrb hint⟩)]
      · have h : product a' b' = .int64 := by
          simp only [product, hx, hy]
          rw [if_neg hz]
        rw [h]
        exact int64_le_product a b
    | some y => rw [eq_of_factor ha haa hra hx, eq_of_factor hb hbb hrb hy]

end Rules

/-! ## Nil taken out -/

/-- What is left of a flow without its nil falls with the flow, unless a number falls to every
value. -/
theorem withoutNil_mono {a a' : Flow} (h : a' ≤ a) (hr : notNil.mayRise a a' = false) :
    a'.withoutNil ≤ a.withoutNil := by
  rcases Flow.eq_or_isClassed a with rfl | rfl | ⟨n, rfl⟩ | ha
  · exact Flow.le_any _
  · exact Flow.le_any _
  · obtain ⟨m, rfl⟩ := Flow.eq_scalar_of_le h
    exact le_rfl
  rcases Flow.sameKind_or_scalar ha h with hk | ⟨n, rfl⟩
  · rcases Flow.eq_of_sameKind ha hk with ⟨j, i, rfl, rfl⟩ | ⟨y, x, rfl, rfl⟩ |
      ⟨d, m, c, n, rfl, rfl⟩ | ⟨t, m, s, n, rfl, rfl⟩ | ⟨t, g, m, s, f, n, rfl, rfl⟩
    · exact h
    · exact h
    · exact Flow.text_le_text.2 ⟨(Flow.text_le_text.1 h).1, id⟩
    · exact Flow.function_le_function.2 ⟨(Flow.function_le_function.1 h).1, id⟩
    · obtain ⟨hsites, hlayout, -⟩ := Flow.record_le_record.1 h
      exact Flow.record_le_record.2 ⟨hsites, hlayout, id⟩
  · refine Flow.scalar_le_iff.2 fun hcarries => ?_
    have hleft : (Flow.scalar n).withoutNil.carriesNil = true := by
      simpa [mayRise, hcarries] using hr
    cases hleft

/-! ## Conditionals -/

/-- The branches are among the others. -/
structure Branches.Within (live live' : Branches) : Prop where
  onTrue : live.onTrue = true → live'.onTrue = true
  onFalse : live.onFalse = true → live'.onFalse = true

private theorem liveBranches_eq (c : Flow) :
    liveBranches c = ⟨!c.isAny && !c.isFalse, c.mayNil⟩ := by
  unfold liveBranches
  by_cases hf : c.isFalse = true
  · simp [hf, Flow.mayNil_of_isFalse hf]
  by_cases ha : c.isAny = true
  · have hany : c = .any := by
      cases c <;> first | rfl | cases ha
    subst hany
    rfl
  by_cases hm : c.mayNil = true
  · simp [hf, ha, hm]
  · simp [hf, ha, hm]

/-- A branch that can run once can run however far the predicate falls. -/
theorem liveBranches_within {c c' : Flow} (h : c' ≤ c) :
    (liveBranches c).Within (liveBranches c') := by
  rw [liveBranches_eq, liveBranches_eq]
  refine ⟨fun ht => ?_, Flow.mayNil_of_covers h⟩
  rw [Bool.and_eq_true, Bool.not_eq_true', Bool.not_eq_true'] at ht ⊢
  refine ⟨Flow.isAny_of_le h ht.1, ?_⟩
  by_contra hf
  rw [Bool.not_eq_false] at hf
  rw [isFalse_of_le h ht.1 hf] at ht
  cases ht.2

/-- What a conditional returns of a branch. -/
def ofBranch (live : Bool) (a : Flow) : Flow := if live then a else .any

private theorem chosen_eq (c a b : Flow) :
    chosen c a b = ofBranch (liveBranches c).onTrue a ⊓ ofBranch (liveBranches c).onFalse b := by
  unfold chosen
  rcases liveBranches c with ⟨_ | _, _ | _⟩
  · rfl
  · rfl
  · exact (Flow.meet_any a).symm
  · rfl

private theorem ofBranch_mono {live live' : Bool} (hlive : live = true → live' = true) {a a' : Flow}
    (h : a' ≤ a) : ofBranch live' a' ≤ ofBranch live a := by
  cases live with
  | false => exact Flow.le_any _
  | true =>
    rw [hlive rfl]
    exact h

/-- The flow of a conditional falls with its predicate and both its branches. -/
theorem chosen_mono {c c' a a' b b' : Flow} (hc : c' ≤ c) (ha : a' ≤ a) (hb : b' ≤ b) :
    chosen c' a' b' ≤ chosen c a b := by
  have hlive := liveBranches_within hc
  rw [chosen_eq, chosen_eq]
  exact inf_le_inf (ofBranch_mono hlive.onTrue ha) (ofBranch_mono hlive.onFalse hb)

end Primitive

/-! ## Records -/

namespace Flow

private theorem LayoutLe.insert {f g : Fields Flow none} (h : LayoutLe (some f) (some g)) (l : String)
    {v w : Flow} (hvw : v ≤ w) :
    LayoutLe (some (f.insert l (after_none l) v)) (some (g.insert l (after_none l) w)) := by
  intro k x hx
  rw [Fields.find?_insert] at hx ⊢
  split at hx
  · rename_i e
    cases hx
    exact ⟨w, if_pos e, hvw⟩
  · rename_i e
    rw [if_neg e]
    exact h k x hx

/-- Of lists of entries under the same labels, lower flows make a lower layout. -/
theorem ofList_mono {es es' : List (String × Flow)}
    (h : List.Forall₂ (fun e' e => e'.1 = e.1 ∧ e'.2 ≤ e.2) es' es) :
    LayoutLe (some (Fields.ofList es')) (some (Fields.ofList es)) := by
  unfold Fields.ofList
  have hstart := LayoutLe.refl (some (Fields.nil : Fields Flow none))
  revert hstart
  generalize (Fields.nil : Fields Flow none) = f
  suffices hs : ∀ f g : Fields Flow none, LayoutLe (some f) (some g) →
      LayoutLe (some (es'.foldl (fun f e => f.insert e.1 (after_none e.1) e.2) f))
        (some (es.foldl (fun f e => f.insert e.1 (after_none e.1) e.2) g)) from hs f f
  induction h with
  | nil => exact fun f g hfg => hfg
  | @cons e' e rest' rest he _ ih =>
    intro f g hfg
    rw [List.foldl_cons, List.foldl_cons, he.1]
    exact ih _ _ (hfg.insert e.1 he.2)

/-- A record of lower fields is lower. -/
theorem recordAt_mono {site : SiteId} {f g : Fields Flow none} (h : LayoutLe (some f) (some g)) :
    recordAt site f ≤ recordAt site g :=
  record_le_record.2 ⟨fun _ hx => hx, h, id⟩

/-- Parts of records under the same labels. -/
theorem forall₂_zip {labels : List String} {as' as : List Flow}
    (h : List.Forall₂ (· ≤ ·) as' as) :
    List.Forall₂ (fun e' e : String × Flow => e'.1 = e.1 ∧ e'.2 ≤ e.2)
      (labels.zip as') (labels.zip as) := by
  induction h generalizing labels with
  | nil => simp
  | cons ha _ ih =>
    cases labels with
    | nil => simp
    | cons l rest => exact .cons ⟨rfl, ha⟩ ih

end Flow

namespace Primitive

private theorem tuple_mono {site : SiteId} {as' as : List Flow} (h : List.Forall₂ (· ≤ ·) as' as) :
    tuple site as' ≤ tuple site as := by
  unfold tuple
  rw [h.length_eq]
  exact Flow.recordAt_mono (Flow.ofList_mono (Flow.forall₂_zip h))

/-! ## Calls -/

/-- The argument at a position. -/
def argument (args : List Flow) (i : Nat) : Flow := args[i]?.getD .bottom

/-- Some argument that the rule waits for was not observed yet. -/
def waits (p : Primitive) (args : List Flow) : Bool :=
  p.isStrict && (List.range p.arity).any fun i => (argument args i).isAny

/-- The rule of a primitive that waits for nothing. -/
def rule (p : Primitive) (args : List Flow) (pairSite tripleSite : SiteId) : Flow :=
  match p with
  | cond => chosen (argument args 0) (argument args 1) (argument args 2)
  | pair => tuple pairSite [argument args 0, argument args 1]
  | triple => tuple tripleSite [argument args 0, argument args 1, argument args 2]
  | notNil => (argument args 0).withoutNil
  | eq => equality (argument args 0) (argument args 1)
  | eqZero => zeroTest (argument args 0)
  | isEmpty => emptyTest (argument args 0)
  | mul => product (argument args 0) (argument args 1)
  | add => sum (argument args 0) (argument args 1)
  | dec => predecessor (argument args 0)
  | str => decimal (argument args 0)
  | factor => .double

private theorem result_eq (p : Primitive) (args : List Flow) (pairSite tripleSite : SiteId) :
    p.result args pairSite tripleSite =
      if p.waits args then .any else p.rule args pairSite tripleSite := by
  cases p <;> rfl

/-- A primitive that waits for its arguments has the greatest flow. -/
theorem result_of_waits {p : Primitive} {args : List Flow} (h : p.waits args = true)
    (pairSite tripleSite : SiteId) : p.result args pairSite tripleSite = .any := by
  rw [result_eq, if_pos h]

/-- Any other follows its rule. -/
theorem result_of_not_waits {p : Primitive} {args : List Flow} (h : p.waits args = false)
    (pairSite tripleSite : SiteId) :
    p.result args pairSite tripleSite = p.rule args pairSite tripleSite := by
  rw [result_eq, h]
  rfl

private theorem isAny_argument {p : Primitive} {args : List Flow} (h : p.waits args = false)
    (hs : p.isStrict = true) {i : Nat} (hi : i < p.arity) : (argument args i).isAny = false := by
  rw [waits, hs, Bool.true_and, List.any_eq_false] at h
  have := h i (List.mem_range.2 hi)
  rwa [Bool.not_eq_true] at this

section Arguments

variable {args' args : List Flow} (h : ∀ i, argument args' i ≤ argument args i)

include h in
private theorem waits_of_le {p : Primitive} (hw : p.waits args = false) : p.waits args' = false := by
  unfold waits at hw ⊢
  cases hs : p.isStrict with
  | false => rfl
  | true =>
    rw [hs, Bool.true_and, List.any_eq_false] at hw
    rw [Bool.true_and, List.any_eq_false]
    intro i hi
    rw [Bool.not_eq_true]
    exact Flow.isAny_of_le (h i) (by simpa using hw i hi)

include h in
/-- The flow of a call to a primitive falls with its arguments, where it may not rise. -/
theorem result_le {p : Primitive}
    (hr : ∀ i < p.arity, p.mayRise (argument args i) (argument args' i) = false)
    (pairSite tripleSite : SiteId) :
    p.result args' pairSite tripleSite ≤ p.result args pairSite tripleSite := by
  cases hw : p.waits args with
  | true =>
    rw [result_of_waits hw]
    exact Flow.le_any _
  | false =>
    have hobs : ∀ i, p.isStrict = true → i < p.arity → (argument args i).isAny = false :=
      fun i hs hi => isAny_argument hw hs hi
    rw [result_of_not_waits hw, result_of_not_waits (waits_of_le h hw)]
    cases p with
    | cond => exact chosen_mono (h 0) (h 1) (h 2)
    | pair => exact tuple_mono (.cons (h 0) (.cons (h 1) .nil))
    | triple => exact tuple_mono (.cons (h 0) (.cons (h 1) (.cons (h 2) .nil)))
    | notNil => exact withoutNil_mono (h 0) (hr 0 (by decide))
    | eq =>
      exact equality_mono (h 0) (h 1) (hobs 0 rfl (by decide)) (hobs 1 rfl (by decide))
        (hr 0 (by decide)) (hr 1 (by decide))
    | eqZero => exact zeroTest_mono (h 0) (hobs 0 rfl (by decide))
    | isEmpty => exact emptyTest_mono (h 0) (hobs 0 rfl (by decide))
    | mul =>
      exact product_mono (h 0) (h 1) (hobs 0 rfl (by decide)) (hobs 1 rfl (by decide))
        (hr 0 (by decide)) (hr 1 (by decide))
    | add =>
      exact sum_mono (h 0) (h 1) (hobs 0 rfl (by decide)) (hobs 1 rfl (by decide))
        (hr 0 (by decide)) (hr 1 (by decide))
    | dec => exact predecessor_mono (h 0) (hobs 0 rfl (by decide)) (hr 0 (by decide))
    | str => exact decimal_mono (h 0) (hobs 0 rfl (by decide)) (hr 0 (by decide))
    | factor => exact le_rfl

end Arguments

/-! ## Where results rise -/

/-- The result rises when the arguments fall, wherever pairs and triples are built. -/
def Rises (p : Primitive) (args args' : List Flow) : Prop :=
  List.Forall₂ (fun a a' => a.covers a' = true) args args' ∧
    ∀ pairSite tripleSite, (p.result args pairSite tripleSite).covers
      (p.result args' pairSite tripleSite) = false

private theorem argument_le {args args' : List Flow}
    (h : List.Forall₂ (fun a a' => a.covers a' = true) args args') (i : Nat) :
    argument args' i ≤ argument args i := by
  induction h generalizing i with
  | nil => exact le_rfl
  | cons ha _ ih =>
    cases i with
    | zero => exact ha
    | succ i => exact ih i

private theorem forall₂_cons_same {a a' : Flow} (h : a.covers a' = true) (rest : List Flow) :
    List.Forall₂ (fun a a' => a.covers a' = true) (a :: rest) (a' :: rest) :=
  .cons h (List.forall₂_same.2 fun a _ => Flow.covers_self a)

private theorem waits_pair {p : Primitive} (hp : p.arity = 2) {a b : Flow} (ha : a.isAny = false)
    (hb : b.isAny = false) : p.waits [a, b] = false := by
  simp [waits, hp, argument, List.range_succ, ha, hb]

private theorem int64_covers_const (x : Int64) : Flow.int64.covers (.int (.const x)) = false := rfl

private theorem eq_const_of_intConst {a : Flow} {x : Int64} (h : intConst? a = some x) :
    a = .int (.const x) := by
  cases a with
  | int i =>
    cases i with
    | const y => rw [Option.some.inj h]
    | _ => cases h
  | _ => cases h

/-- Five rules take nil for no number and fold the zero that it falls to. -/
theorem rises_of_nil {p : Primitive} {a' : Flow} (hp : p ≠ .notNil)
    (h : Flow.nil.covers a' = true) (hr : p.mayRise .nil a' = true) :
    ∃ rest, rest.length + 1 = p.arity ∧ p.Rises (.nil :: rest) (a' :: rest) := by
  cases p with
  | eq =>
    simp only [mayRise, beq_self_eq_true, Bool.true_and, Bool.and_eq_true, bne_iff_ne] at hr
    obtain ⟨hne, hconst⟩ := hr
    have hobs : a'.isAny = false := by
      cases a' <;> first | rfl | cases hconst
    refine ⟨[a'], rfl, forall₂_cons_same h _, fun pairSite tripleSite => ?_⟩
    have hbool : eq.result [.nil, a'] pairSite tripleSite = .bool := by
      rw [result_of_not_waits (waits_pair rfl rfl hobs)]
      simp [rule, argument, equality, Ne.symm hne]
    have htrue : eq.result [a', a'] pairSite tripleSite = .constTrue := by
      rw [result_of_not_waits (waits_pair rfl hobs hobs)]
      simp [rule, argument, equality, hconst]
    rw [hbool, htrue]
    rfl
  | mul =>
    have hint : isInt a' = true := by simpa [mayRise] using hr
    obtain ⟨i, rfl⟩ : ∃ i, a' = .int i := by
      cases a' <;> first | exact ⟨_, rfl⟩ | cases hint
    refine ⟨[.constFalse], rfl, forall₂_cons_same h _, fun pairSite tripleSite => ?_⟩
    have hzero : mul.result [.int i, .constFalse] pairSite tripleSite = .int (.const 0) :=
      product_of_zero (Or.inr ⟨rfl, rfl⟩)
    rw [hzero]
    exact int64_covers_const 0
  | add =>
    obtain ⟨x, hx⟩ := Option.isSome_iff_exists.1 (by simpa [mayRise] using hr)
    obtain rfl := eq_const_of_intConst hx
    exact ⟨[.constFalse], rfl, forall₂_cons_same h _, fun _ _ => int64_covers_const (x + 0)⟩
  | dec =>
    obtain ⟨x, hx⟩ := Option.isSome_iff_exists.1 (by simpa [mayRise] using hr)
    obtain rfl := eq_const_of_intConst hx
    exact ⟨[], rfl, forall₂_cons_same h _, fun _ _ => int64_covers_const (x - 1)⟩
  | str =>
    obtain ⟨x, hx⟩ := Option.isSome_iff_exists.1 (by simpa [mayRise] using hr)
    obtain rfl := eq_const_of_intConst hx
    exact ⟨[], rfl, forall₂_cons_same h _, fun _ _ => rfl⟩
  | notNil => exact absurd rfl hp
  | _ => cases hr

/-- What is left of a number without its nil is a number that may be zero, and of every value it is
every value but nil. -/
theorem rises_of_number {a a' : Flow} (h : a.covers a' = true) (hr : notNil.mayRise a a' = true) :
    notNil.Rises [a] [a'] := by
  rw [mayRise, Bool.and_eq_true, Bool.not_eq_true'] at hr
  obtain ⟨hcarries, hnot⟩ := hr
  refine ⟨forall₂_cons_same h _, fun _ _ => ?_⟩
  change a.withoutNil.covers a'.withoutNil = false
  by_contra hcovers
  rw [Bool.not_eq_false] at hcovers
  rw [Flow.carriesNil_of_covers hcovers hcarries] at hnot
  cases hnot

/-- What a primitive returns falls when its arguments fall, but for those at which it may rise.
There it does rise, with the other arguments as they are. -/
theorem result_falls (p : Primitive) :
    (∀ args args' pairSite tripleSite,
      List.Forall₂ (fun a a' => a.covers a' = true) args args' →
      (∀ i < p.arity, p.mayRise (argument args i) (argument args' i) = false) →
      (p.result args pairSite tripleSite).covers (p.result args' pairSite tripleSite) = true) ∧
      ∀ a a', a.covers a' = true → p.mayRise a a' = true →
        ∃ rest, rest.length + 1 = p.arity ∧ p.Rises (a :: rest) (a' :: rest) := by
  refine ⟨fun args args' pairSite tripleSite h hr => ?_, fun a a' h hr => ?_⟩
  · exact result_le (argument_le h) hr pairSite tripleSite
  · by_cases hp : p = .notNil
    · subst hp
      exact ⟨[], rfl, rises_of_number h hr⟩
    · have hnil : a = .nil := by
        cases p <;> simp_all [mayRise]
      subst hnil
      exact rises_of_nil hp h hr

/-- A product with zero stays zero, and one with nil rises when nil falls to either truth value. -/
theorem result_falls_product :
    (mul.result [.constFalse, .int (.const 5)] 1 2).covers
        (mul.result [.constFalse, .int64] 1 2) = true ∧
      ∃ rest, rest.length + 1 = 2 ∧ mul.Rises (.nil :: rest) (.bool :: rest) :=
  ⟨(result_falls mul).1 _ _ 1 2 (.cons rfl (.cons rfl .nil)) (by decide),
    (result_falls mul).2 .nil .bool rfl rfl⟩

/-- Six primitives return a flow that rises when an argument falls from nil to zero, or from a
number to every value. -/
theorem results_rise :
    dec.Rises [.nil] [.int (.const 0)] ∧
      str.Rises [.nil] [.int (.const 0)] ∧
      add.Rises [.nil, .int (.const 5)] [.int (.const 0), .int (.const 5)] ∧
      mul.Rises [.nil, .int (.const 5)] [.int (.const 0), .int (.const 5)] ∧
      eq.Rises [.nil, .int (.const 0)] [.int (.const 0), .int (.const 0)] ∧
      notNil.Rises [.int (.const 5)] [.bottom] := by
  have hone : ∀ {a a' : Flow}, a.covers a' = true →
      List.Forall₂ (fun a a' => a.covers a' = true) [a] [a'] := fun h => forall₂_cons_same h []
  refine ⟨⟨hone rfl, fun _ _ => rfl⟩, ⟨hone rfl, fun _ _ => rfl⟩, ⟨?_, fun _ _ => rfl⟩,
    ⟨?_, fun _ _ => rfl⟩, ⟨?_, fun _ _ => rfl⟩, ⟨hone rfl, fun _ _ => rfl⟩⟩
  · exact forall₂_cons_same rfl _
  · exact forall₂_cons_same rfl _
  · exact forall₂_cons_same rfl _

end Primitive

end TypeFlow
