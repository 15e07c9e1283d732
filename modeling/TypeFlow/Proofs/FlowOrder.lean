import TypeFlow.Proofs.FlowLattice

/-!
# The order of flows

What lies above and below a flow of each class.  Within a class the order is that of the parts: a
constant lies below itself alone, texts, functions and records gain nil, function sets grow, and
layouts lose labels or let the flows of some fall.  Between the classes there is nothing but nil,
which lies above whatever may be nil, and the `scalar`s, which lie below all.

Main definitions:

- `Flow.LayoutLe`: the order of the layouts of records.

Main results:

- `Flow.sameKind_or_scalar`: what lies below a flow of a class.
- `Flow.eq_of_isConst`: what lies above a constant.
- `Flow.mayNil_of_covers`: nil stays among the values of a flow that falls.
-/

namespace TypeFlow

namespace IntFlow

private theorem eq_const_of_meet {j : IntFlow} {x : Int64} (h : j.meet (const x) = const x) :
    j = const x := by
  cases j <;> grind

private theorem containsZero_meet {i : IntFlow} (h : i.containsZero = true) (j : IntFlow) :
    (i.meet j).containsZero = true := by
  cases i with
  | const a =>
    cases j with
    | const b =>
      rw [const_meet_const]
      split
      · exact h
      · split <;> rfl
    | bool =>
      rw [const_meet_bool]
      split <;> rfl
    | int64 => rfl
  | bool =>
    cases j with
    | const b =>
      rw [bool_meet_const]
      split <;> rfl
    | bool => rfl
    | int64 => rfl
  | int64 => cases j <;> rfl

private theorem containsZero_meet_zero (i : IntFlow) : (i.meet (.const 0)).containsZero = true := by
  rw [meet_comm]
  exact containsZero_meet rfl i

end IntFlow

namespace FloatFlow

private theorem eq_const_of_meet {y : FloatFlow} {x : Double} (h : y.meet (const x) = const x) :
    y = const x := by
  cases y <;> grind [meet]

end FloatFlow

namespace IdSet

/-- A union adds nothing to a set that has all elements of the other. -/
theorem union_eq_right {s t : IdSet} : s.union t = t ↔ ∀ x, x ∈ s → x ∈ t := by
  constructor
  · intro h x hx
    rw [← h]
    exact mem_union.2 (Or.inl hx)
  · intro h
    apply ext_mem
    intro x
    rw [mem_union]
    exact ⟨fun hx => hx.elim (h x) id, Or.inr⟩

end IdSet

namespace Flow

/-! ## The order by constructor -/

/-- A flow is below another if it is their meet. -/
theorem le_iff_meet {a b : Flow} : a ≤ b ↔ b.meet a = a := covers_iff

@[simp] theorem le_any (a : Flow) : a ≤ any := le_top

@[simp] theorem bottom_le (a : Flow) : bottom ≤ a := bot_le

/-- Nothing else is above the greatest flow. -/
theorem eq_any_of_any_le {a : Flow} (h : any ≤ a) : a = any := by
  rw [le_iff_meet, meet_any] at h
  exact h

/-- A scalar with nil is below every flow, and one without below those that carry no nil. -/
theorem scalar_le_iff {n : Bool} {a : Flow} : scalar n ≤ a ↔ (a.carriesNil = true → n = true) := by
  rw [le_iff_meet, meet_scalar]
  cases n <;> simp

/-- Below a `scalar` there are only `scalar`s. -/
theorem eq_scalar_of_le {n : Bool} {a : Flow} (h : a ≤ scalar n) : ∃ m, a = scalar m := by
  rw [le_iff_meet, scalar_meet] at h
  exact ⟨_, h.symm⟩

/-- Integer flows are compared by their meet. -/
theorem int_le_int {i j : IntFlow} : int i ≤ int j ↔ j.meet i = i := by
  rw [le_iff_meet, int_meet_int, int.injEq]

/-- So are float flows. -/
theorem float_le_float {x y : FloatFlow} : float x ≤ float y ↔ y.meet x = x := by
  rw [le_iff_meet, float_meet_float, float.injEq]

private theorem or_eq_left_iff {n m : Bool} : (m || n) = n ↔ (m = true → n = true) := by
  cases m <;> simp [eq_comm]

/-- A text is below the same constant or any text, and has nil if that has. -/
theorem text_le_text {c d : Option String} {n m : Bool} :
    text c n ≤ text d m ↔ (c = d ∨ c = none) ∧ (m = true → n = true) := by
  rw [le_iff_meet, text_meet_text, text.injEq, or_eq_left_iff]
  by_cases e : d = c
  · simp [e]
  · simp [e, Ne.symm e, eq_comm (a := c)]

/-- A function flow is below one of fewer ids, and has nil if that has. -/
theorem function_le_function {s t : IdSet} {n m : Bool} :
    function s n ≤ function t m ↔ (∀ x, x ∈ t → x ∈ s) ∧ (m = true → n = true) := by
  rw [le_iff_meet, function_meet_function, function.injEq, IdSet.union_eq_right, or_eq_left_iff]

/-- The layout of the first record says no more than that of the second. -/
def LayoutLe : Option (Fields Flow none) → Option (Fields Flow none) → Prop
  | none, _ => True
  | some _, none => False
  | some f, some g => ∀ k v, f.find? k = some v → ∃ w, g.find? k = some w ∧ v ≤ w

/-- A layout is below itself. -/
theorem LayoutLe.refl (f : Option (Fields Flow none)) : LayoutLe f f := by
  cases f with
  | none => trivial
  | some f => exact fun k v hv => ⟨v, hv, le_rfl⟩

private theorem meetFields_eq_right {f g : Fields Flow none} :
    meetFields g f = f ↔ ∀ k v, f.find? k = some v → ∃ w, g.find? k = some w ∧ v ≤ w := by
  constructor
  · intro h k v hv
    have hk := find?_meetFields g f k
    rw [h, hv] at hk
    cases hg : g.find? k with
    | none => simp [hg] at hk
    | some w =>
      rw [hg, Option.bind_some, Option.map_some, Option.some.injEq] at hk
      exact ⟨w, rfl, le_iff_meet.2 hk.symm⟩
  · intro h
    apply Fields.ext_find?
    intro k
    rw [find?_meetFields]
    cases hf : f.find? k with
    | none => cases g.find? k <;> rfl
    | some v =>
      obtain ⟨w, hw, hle⟩ := h k v hf
      rw [hw, Option.bind_some, Option.map_some, le_iff_meet.1 hle]

/-- A record flow is below one of fewer sites and a greater layout, and has nil if that has. -/
theorem record_le_record {s t : IdSet} {f g : Option (Fields Flow none)} {n m : Bool} :
    record s f n ≤ record t g m ↔
      (∀ x, x ∈ t → x ∈ s) ∧ LayoutLe f g ∧ (m = true → n = true) := by
  rw [le_iff_meet, record_meet_record, record.injEq, IdSet.union_eq_right, or_eq_left_iff]
  cases f <;> cases g <;> simp [meetLayouts, LayoutLe, meetFields_eq_right]

/-- What lies below a flow of a class is of the class too, or a `scalar`. -/
theorem sameKind_or_scalar {a b : Flow} (hb : b.isClassed = true) (h : a ≤ b) :
    b.sameKind a = true ∨ ∃ n, a = scalar n := by
  rcases eq_or_isClassed a with rfl | rfl | ⟨n, rfl⟩ | ha
  · rw [eq_any_of_any_le h] at hb
    cases hb
  · have hnil := isClassed_orNil hb
    rw [← meet_nil, le_iff_meet.1 h] at hnil
    cases hnil
  · exact Or.inr ⟨n, rfl⟩
  · cases hk : b.sameKind a with
    | true => exact Or.inl rfl
    | false =>
      rw [le_iff_meet, meet_of_clash hb ha hk] at h
      rw [← h] at ha
      cases ha

/-! ## Constants -/

/-- Above a constant there is only the constant, `any` and, if it is a zero, nil. -/
theorem eq_of_isConst {a b : Flow} (h : a ≤ b) (hc : a.isConst = true) :
    b = any ∨ b = nil ∨ b = a := by
  rcases eq_or_isClassed b with rfl | rfl | ⟨n, rfl⟩ | hb
  · exact Or.inl rfl
  · exact Or.inr (Or.inl rfl)
  · obtain ⟨m, rfl⟩ := eq_scalar_of_le h
    cases hc
  rcases sameKind_or_scalar hb h with hk | ⟨n, rfl⟩
  · refine Or.inr (Or.inr ?_)
    rcases eq_of_sameKind hb hk with ⟨j, i, rfl, rfl⟩ | ⟨y, x, rfl, rfl⟩ | ⟨d, m, c, n, rfl, rfl⟩ |
      ⟨_, _, _, _, rfl, rfl⟩ | ⟨_, _, _, _, _, _, rfl, rfl⟩
    · cases i with
      | const x => rw [IntFlow.eq_const_of_meet (int_le_int.1 h)]
      | _ => cases hc
    · cases x with
      | const x => rw [FloatFlow.eq_const_of_meet (float_le_float.1 h)]
      | _ => cases hc
    · obtain ⟨hcd, hmn⟩ := text_le_text.1 h
      have hconst : c.isSome = true ∧ n = false := by simpa [isConst] using hc
      obtain ⟨hsome, rfl⟩ := hconst
      rcases hcd with rfl | rfl
      · have hm : m = false := by simpa using hmn
        rw [hm]
      · cases hsome
    · cases hc
    · cases hc
  · cases hc

/-- What is below a known flow is known. -/
theorem isAny_of_le {a b : Flow} (h : a ≤ b) (hb : b.isAny = false) : a.isAny = false := by
  cases a with
  | any =>
    rw [eq_any_of_any_le h] at hb
    cases hb
  | _ => rfl

/-- False is a constant. -/
theorem isConst_of_isFalse {a : Flow} (h : a.isFalse = true) : a.isConst = true := by
  cases a with
  | nil => rfl
  | int i => cases i <;> first | rfl | cases h
  | _ => cases h

/-! ## Nil among the values of a flow -/

/-- False is nil. -/
theorem mayNil_of_isFalse {a : Flow} (h : a.isFalse = true) : a.mayNil = true := by
  cases a with
  | nil => rfl
  | int i => cases i <;> first | exact h | cases h
  | _ => cases h

private theorem mayNil_float_meet {x : FloatFlow} (h : (float x).mayNil = true) (y : FloatFlow) :
    (float (x.meet y)).mayNil = true := by
  cases x with
  | double => rfl
  | const a =>
    cases y with
    | double => rfl
    | const b =>
      by_cases e : a = b
      · simpa [FloatFlow.meet, e] using h
      · simp [FloatFlow.meet, e, mayNil]

/-- A flow that nil was added to may be nil. -/
theorem mayNil_orNil (a : Flow) : a.orNil.mayNil = true := by
  cases a with
  | any => rfl
  | nil => rfl
  | int i => exact IntFlow.containsZero_meet_zero i
  | float x =>
    rw [orNil_float, FloatFlow.meet_comm]
    exact mayNil_float_meet rfl x
  | text c n => rfl
  | function s n => rfl
  | record s f n => rw [orNil_record]; rfl
  | scalar n => rw [orNil_scalar]; rfl

private theorem carriesNil_of_mayNil {a : Flow} (h : a.mayNil = true) : a.carriesNil = true := by
  cases a <;> first | rfl | exact h

/-- A flow that carries nil covers only such as carry it. -/
theorem carriesNil_of_covers {a b : Flow} (h : a.covers b = true) (ha : a.carriesNil = true) :
    b.carriesNil = true := by
  rw [← covers_iff.1 h, carriesNil_meet, ha, Bool.true_or]

private theorem mayNil_meet {a : Flow} (h : a.mayNil = true) (b : Flow) : (a.meet b).mayNil = true := by
  rcases eq_or_isClassed a with rfl | rfl | ⟨n, rfl⟩ | ha
  · cases h
  · rw [nil_meet]
    exact mayNil_orNil b
  · rw [scalar_meet]
    exact Bool.or_eq_true_iff.2 (Or.inl h)
  rcases eq_or_isClassed b with rfl | rfl | ⟨m, rfl⟩ | hb
  · rwa [meet_any]
  · exact mayNil_orNil a
  · rw [meet_scalar]
    exact Bool.or_eq_true_iff.2 (Or.inr (carriesNil_of_mayNil h))
  cases hkind : a.sameKind b with
  | false =>
    rw [meet_of_clash ha hb hkind]
    exact Bool.or_eq_true_iff.2 (Or.inl (carriesNil_of_mayNil h))
  | true =>
    rcases eq_of_sameKind ha hkind with ⟨i, j, rfl, rfl⟩ | ⟨x, y, rfl, rfl⟩ |
      ⟨c, n, d, m, rfl, rfl⟩ | ⟨s, n, t, m, rfl, rfl⟩ | ⟨s, f, n, t, g, m, rfl, rfl⟩
    · exact IntFlow.containsZero_meet h j
    · exact mayNil_float_meet h y
    · exact Bool.or_eq_true_iff.2 (Or.inl h)
    · exact Bool.or_eq_true_iff.2 (Or.inl h)
    · rw [record_meet_record]
      exact Bool.or_eq_true_iff.2 (Or.inl h)

/-- Nil stays among the values of a flow that falls. -/
theorem mayNil_of_covers {a b : Flow} (h : a.covers b = true) (ha : a.mayNil = true) :
    b.mayNil = true := by
  rw [← covers_iff.1 h]
  exact mayNil_meet ha b

/-! ## Falling flows -/

/-- A flow covers itself. -/
theorem covers_self (a : Flow) : a.covers a = true := covers_iff_le.2 le_rfl

/-- It covers what it is with nil. -/
theorem covers_orNil (a : Flow) : a.covers a.orNil = true := by
  rw [covers_iff_le, ← meet_nil, meet_eq_inf]
  exact inf_le_left

/-- It covers what it is widened to. -/
theorem covers_widen (a : Flow) : a.covers a.widen = true := by
  cases a with
  | int i => simp [covers_iff, widen, int64]
  | float x => cases x <;> simp [covers_iff, widen, double, FloatFlow.meet]
  | text c n => simp [covers_iff, widen]
  | _ => exact covers_self _

/-- The first of two flows covers their meet. -/
theorem covers_meet_left (a b : Flow) : a.covers (a.meet b) = true := by
  rw [covers_iff_le, meet_eq_inf]
  exact inf_le_left

/-- So does the second. -/
theorem covers_meet_right (a b : Flow) : b.covers (a.meet b) = true := by
  rw [covers_iff_le, meet_eq_inf]
  exact inf_le_right

/-- What is covered by a covered flow is covered. -/
theorem covers_trans {a b c : Flow} (h : a.covers b = true) (h' : b.covers c = true) :
    a.covers c = true :=
  covers_iff_le.2 ((covers_iff_le.1 h').trans (covers_iff_le.1 h))

/-- Nil may be taken out of a flow and put back in. -/
theorem covers_orNil_withoutNil (a : Flow) : a.covers a.withoutNil.orNil = true := by
  cases a with
  | any => rfl
  | nil => rfl
  | int i => exact covers_orNil _
  | float x => exact covers_orNil _
  | text c n => exact covers_orNil (text c n)
  | function s n => exact covers_orNil (function s n)
  | record s f n =>
    have h := covers_orNil (record s f n)
    rw [orNil_record] at h
    have hout : (record s f n).withoutNil = record s f false := rfl
    rwa [hout, orNil_record]
  | scalar n => cases n <;> rfl

/-- So it may be where constants are lowered to their class in between. -/
theorem covers_orNil_widen_withoutNil (a : Flow) : a.covers a.withoutNil.widen.orNil = true := by
  cases a with
  | int i => exact covers_trans (covers_widen (int i)) (covers_orNil _)
  | float x => exact covers_trans (covers_widen (float x)) (covers_orNil _)
  | text c n => exact covers_trans (covers_widen (text c n)) (covers_orNil (text none n))
  | _ => exact covers_orNil_withoutNil _

end Flow

end TypeFlow
