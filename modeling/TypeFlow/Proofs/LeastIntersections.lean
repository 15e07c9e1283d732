import TypeFlow.Proofs.Intersections
import TypeFlow.Proofs.NilFree
import TypeFlow.Proofs.PrimitiveRules

/-!
# Least intersections

The intersection of two flows is the least of all flows at or above both, but for nil.  Nil lies above
the zeros and the classes of numbers, and above every text, function or record that may be nil.  Two
such flows that have nothing else in common still have nil in common, and their intersection is `any`
instead.  Where no fields of the two do so either, nothing is missed.

Flows that name no function or site at all are left out: they lie above flows with nothing in common.

Main definitions:

- `Flow.isPopulated`: every set of functions or sites in a flow has a member.
- `Flow.MissesNil`: two flows, or fields of theirs, have nil in common and their intersection has not.

Main results:

- `Flow.join_least`: the intersection is least exactly where nil is not missed.
- `Flow.join_misses_nil`: two texts that may be nil.
-/

namespace TypeFlow

mutual

/-- Every set of functions or sites in the flow has a member. -/
def Flow.isPopulated : Flow → Bool
  | .function s _ => !s.isEmpty
  | .record s none _ => !s.isEmpty
  | .record s (some f) _ => !s.isEmpty && Flow.isPopulatedFields f
  | _ => true
  termination_by structural a => a

/-- The same for the flows of the entries. -/
def Flow.isPopulatedFields {bound : Option String} : Fields Flow bound → Bool
  | .nil => true
  | .cons _ _ v f => Flow.isPopulated v && Flow.isPopulatedFields f
  termination_by structural f => f

end

namespace IntFlow

/-- The integer flows below one of them are a chain. -/
theorem meet_eq_or {k i j : IntFlow} (hi : k.meet i = i) (hj : k.meet j = j) :
    i.meet j = j ∨ j.meet i = i := by
  cases k <;> cases i <;> cases j <;> grind

end IntFlow

namespace FloatFlow

/-- So are the flows of doubles. -/
theorem meet_eq_or {z x y : FloatFlow} (hx : z.meet x = x) (hy : z.meet y = y) :
    x.meet y = y ∨ y.meet x = x := by
  cases z <;> cases x <;> cases y <;> grind [meet]

end FloatFlow

namespace Flow

/-! ## Populated flows -/

private theorem isPopulatedFields_iff {bound : Option String} {f : Fields Flow bound} :
    isPopulatedFields f = true ↔ ∀ k v, f.find? k = some v → v.isPopulated = true := by
  have hvalues : isPopulatedFields f = true ↔ ∀ v ∈ f.values, v.isPopulated = true := by
    induction f with
    | nil => simp [isPopulatedFields, Fields.values]
    | cons l h v rest ih => simp [isPopulatedFields, Fields.values, ih]
  rw [hvalues]
  constructor
  · exact fun h k v hv => h v (Fields.mem_values.2 ⟨k, hv⟩)
  · rintro h v hv
    obtain ⟨k, hk⟩ := Fields.mem_values.1 hv
    exact h k v hk

private theorem isPopulated_function {s : IdSet} {n : Bool} :
    (function s n).isPopulated = true ↔ ∃ x, x ∈ s := by
  rw [isPopulated, Bool.not_eq_true', IdSet.isEmpty_eq_false]

private theorem isPopulated_record {s : IdSet} {f : Option (Fields Flow none)} {n : Bool} :
    (record s f n).isPopulated = true ↔
      (∃ x, x ∈ s) ∧ ∀ f', f = some f' → ∀ k v, f'.find? k = some v → v.isPopulated = true := by
  cases f with
  | none => simp [isPopulated, IdSet.isEmpty_eq_false]
  | some f => simp [isPopulated, IdSet.isEmpty_eq_false, isPopulatedFields_iff]

/-! ## Upper bounds -/

private theorem le_nil_iff {a : Flow} : a ≤ nil ↔ a.orNil = a := by
  rw [le_iff_meet, nil_meet]

/-- Above a flow of a class there are flows of the class, nil and `any`. -/
theorem eq_or_sameKind_of_le {a u : Flow} (ha : a.isClassed = true) (h : a ≤ u) :
    u = any ∨ u = nil ∨ u.sameKind a = true := by
  rcases eq_or_isClassed u with rfl | rfl | ⟨n, rfl⟩ | hu
  · exact Or.inl rfl
  · exact Or.inr (Or.inl rfl)
  · obtain ⟨m, rfl⟩ := eq_scalar_of_le h
    cases ha
  · rcases sameKind_or_scalar hu h with hk | ⟨n, rfl⟩
    · exact Or.inr (Or.inr hk)
    · cases ha

/-- What is left of a flow without nil is below all that is above it and does not carry nil. -/
theorem withoutNil_le {a u : Flow} (h : a ≤ u) (hu : u.carriesNil = false) : a.withoutNil ≤ u := by
  have hleft := withoutNil_of_carriesNil hu
  rw [← hleft]
  refine Primitive.withoutNil_mono h ?_
  simp [Primitive.mayRise, hleft, hu]

/-! ## Bounds of flows of one class

A number that is not comparable with another has no bound with it but `any`.  For the rest, what the
two have in common is below each bound, if it is more than nil. -/

section Bounds

variable {u : Flow}

private theorem int_comparable {i j : IntFlow} (hi : int i ≤ u) (hj : int j ≤ u) (hu : u ≠ any) :
    (int i).covers (int j) = true ∨ (int j).covers (int i) = true := by
  have hbound : ∃ k : IntFlow, k.meet i = i ∧ k.meet j = j := by
    rcases eq_or_sameKind_of_le rfl hi with rfl | rfl | hk
    · exact absurd rfl hu
    · have hzero : ∀ {i : IntFlow}, int i ≤ nil → (IntFlow.const 0).meet i = i := by
        intro i hi
        rw [le_nil_iff, orNil_int, int.injEq] at hi
        rwa [IntFlow.meet_comm]
      exact ⟨.const 0, hzero hi, hzero hj⟩
    · cases u with
      | int k => exact ⟨k, int_le_int.1 hi, int_le_int.1 hj⟩
      | _ => cases hk
  obtain ⟨k, hki, hkj⟩ := hbound
  simp only [covers_iff_le, int_le_int]
  exact IntFlow.meet_eq_or hki hkj

private theorem float_comparable {x y : FloatFlow} (hx : float x ≤ u) (hy : float y ≤ u) (hu : u ≠ any) :
    (float x).covers (float y) = true ∨ (float y).covers (float x) = true := by
  have hbound : ∃ z : FloatFlow, z.meet x = x ∧ z.meet y = y := by
    rcases eq_or_sameKind_of_le rfl hx with rfl | rfl | hk
    · exact absurd rfl hu
    · have hzero : ∀ {x : FloatFlow}, float x ≤ nil → (FloatFlow.const .zero).meet x = x := by
        intro x hx
        rw [le_nil_iff, orNil_float, float.injEq] at hx
        rwa [FloatFlow.meet_comm]
      exact ⟨.const .zero, hzero hx, hzero hy⟩
    · cases u with
      | float z => exact ⟨z, float_le_float.1 hx, float_le_float.1 hy⟩
      | _ => cases hk
  obtain ⟨z, hzx, hzy⟩ := hbound
  simp only [covers_iff_le, float_le_float]
  exact FloatFlow.meet_eq_or hzx hzy

private theorem ite_le_of_ne_any {p : Prop} [Decidable p] {x : Flow} (hx : x ≤ u)
    (h : (if p then any else x) ≠ any) : (if p then any else x) ≤ u := by
  by_cases hp : p
  · exact absurd (if_pos hp) h
  · rwa [if_neg hp]

private theorem shared_text_le {c d : Option String} {n m : Bool} (ha : text c n ≤ u) (hb : text d m ≤ u)
    (hnil : u = nil → (text c n).shared (text d m) ≠ any) : (text c n).shared (text d m) ≤ u := by
  rcases eq_or_sameKind_of_le rfl ha with rfl | rfl | hk
  · exact le_any _
  · rw [le_nil_iff, orNil_text, text.injEq] at ha hb
    refine ite_le_of_ne_any ?_ (hnil rfl)
    rw [← ha.2, ← hb.2]
    exact le_nil_iff.2 rfl
  · cases u with
    | text e q =>
      obtain ⟨hc, hn⟩ := text_le_text.1 ha
      obtain ⟨hd, hm⟩ := text_le_text.1 hb
      have hcd : ¬(c.isSome && d.isSome && c != d) = true := by
        rcases hc with rfl | rfl <;> rcases hd with rfl | rfl <;> simp
      rw [shared, if_neg hcd]
      refine text_le_text.2 ⟨?_, fun hq => by rw [hn hq, hm hq, Bool.and_self]⟩
      rcases hc with rfl | rfl
      · rcases hd with rfl | rfl
        · exact Or.inl Option.or_self
        · exact Or.inl Option.or_none
      · exact hd
    | _ => cases hk

/-- A populated bound of two sets names a common member. -/
theorem isEmpty_inter {s t r : IdSet} (hr : ∃ x, x ∈ r) (hs : ∀ x, x ∈ r → x ∈ s)
    (ht : ∀ x, x ∈ r → x ∈ t) : (s.inter t).isEmpty = false := by
  obtain ⟨x, hx⟩ := hr
  exact IdSet.isEmpty_eq_false.2 ⟨x, IdSet.mem_inter.2 ⟨hs x hx, ht x hx⟩⟩

private theorem shared_function_le {s t : IdSet} {n m : Bool} (hu : u.isPopulated = true)
    (ha : function s n ≤ u) (hb : function t m ≤ u)
    (hnil : u = nil → (function s n).shared (function t m) ≠ any) :
    (function s n).shared (function t m) ≤ u := by
  rcases eq_or_sameKind_of_le rfl ha with rfl | rfl | hk
  · exact le_any _
  · rw [le_nil_iff, orNil_function, function.injEq] at ha hb
    refine ite_le_of_ne_any ?_ (hnil rfl)
    rw [← ha.2, ← hb.2]
    exact le_nil_iff.2 rfl
  · cases u with
    | function r q =>
      obtain ⟨hs, hn⟩ := function_le_function.1 ha
      obtain ⟨ht, hm⟩ := function_le_function.1 hb
      rw [shared, isEmpty_inter (isPopulated_function.1 hu) hs ht, if_neg Bool.false_ne_true]
      refine function_le_function.2 ⟨fun x hx => IdSet.mem_inter.2 ⟨hs x hx, ht x hx⟩, ?_⟩
      exact fun hq => by rw [hn hq, hm hq, Bool.and_self]
    | _ => cases hk

/-- The layout of what two records have in common is below that of each bound, where the fields are. -/
theorem joinLayouts_le {f g l : Option (Fields Flow none)} (hf : LayoutLe f l) (hg : LayoutLe g l)
    (h : ∀ f' g' l', f = some f' → g = some g' → l = some l' → ∀ k v w x, f'.find? k = some v →
      g'.find? k = some w → l'.find? k = some x → v ≤ x → w ≤ x → v.join w ≤ x) :
    LayoutLe (joinLayouts f g) l := by
  cases f with
  | none => exact hg
  | some f =>
    cases g with
    | none => exact hf
    | some g =>
      cases l with
      | none => exact hf
      | some l =>
        intro k y hy
        rw [find?_union_joinShared] at hy
        cases hv : f.find? k with
        | none =>
          rw [hv] at hy
          exact hg k y hy
        | some v =>
          obtain ⟨x, hx, hvx⟩ := hf k v hv
          rw [hv] at hy
          cases hw : g.find? k with
          | none =>
            rw [hw] at hy
            cases hy
            exact ⟨x, hx, hvx⟩
          | some w =>
            rw [hw] at hy
            cases hy
            obtain ⟨x', hx', hwx⟩ := hg k w hw
            rw [hx] at hx'
            cases hx'
            exact ⟨x, hx, h f g l rfl rfl rfl k v w x hv hw hx hvx hwx⟩

private theorem shared_record_le {s t : IdSet} {f g : Option (Fields Flow none)} {n m : Bool}
    (hu : u.isPopulated = true) (ha : record s f n ≤ u) (hb : record t g m ≤ u)
    (hnil : u = nil → (record s f n).shared (record t g m) ≠ any)
    (h : (s.inter t).isEmpty = false → ∀ f' g', f = some f' → g = some g' → ∀ k v w x,
      f'.find? k = some v → g'.find? k = some w → x.isPopulated = true → v ≤ x → w ≤ x →
        v.join w ≤ x) : (record s f n).shared (record t g m) ≤ u := by
  rcases eq_or_sameKind_of_le rfl ha with rfl | rfl | hk
  · exact le_any _
  · rw [le_nil_iff, orNil_record, record.injEq] at ha hb
    refine ite_le_of_ne_any ?_ (hnil rfl)
    rw [← ha.2.2, ← hb.2.2]
    exact le_nil_iff.2 (orNil_record _ _ _)
  · cases u with
    | record r l q =>
      obtain ⟨hs, hf, hn⟩ := record_le_record.1 ha
      obtain ⟨ht, hg, hm⟩ := record_le_record.1 hb
      obtain ⟨hr, hl⟩ := isPopulated_record.1 hu
      have hsites := isEmpty_inter hr hs ht
      rw [shared, hsites, if_neg Bool.false_ne_true]
      refine record_le_record.2 ⟨fun x hx => IdSet.mem_inter.2 ⟨hs x hx, ht x hx⟩,
        joinLayouts_le hf hg ?_, fun hq => by rw [hn hq, hm hq, Bool.and_self]⟩
      intro f' g' l' ef eg el k v w x hv hw hx
      exact h hsites f' g' ef eg k v w x hv hw (hl l' el k x hx)
    | _ => cases hk

/-- Two classes of values have nothing in common. -/
theorem shared_of_clash {a b : Flow} (ha : a.isClassed = true) (hb : b.isClassed = true)
    (h : a.sameKind b = false) : a.shared b = any := by
  cases a <;> cases b <;> first | rfl | simp [isClassed, sameKind] at ha hb h

/-- What two flows have in common that are not comparable is below each bound, if it is more than nil
and the same goes for the fields of records. -/
theorem shared_le {a b : Flow} (hab : ¬a.covers b = true) (hba : ¬b.covers a = true)
    (hu : u.isPopulated = true) (ha : a ≤ u) (hb : b ≤ u) (hnil : u = nil → a.shared b ≠ any)
    (h : ∀ s f n t g m, a = record s (some f) n → b = record t (some g) m →
      (s.inter t).isEmpty = false → ∀ k v w x, f.find? k = some v → g.find? k = some w →
        x.isPopulated = true → v ≤ x → w ≤ x → v.join w ≤ x) : a.shared b ≤ u := by
  by_cases hany : u = any
  · rw [hany]
    exact le_any _
  rcases eq_or_isClassed a with rfl | rfl | ⟨n, rfl⟩ | hca
  · exact absurd (covers_iff_le.2 (le_any b)) hab
  · rcases eq_of_isConst ha rfl with rfl | rfl | rfl
    · exact absurd rfl hany
    · exact absurd (covers_iff_le.2 hb) hab
    · exact absurd (covers_iff_le.2 hb) hab
  · refine withoutNil_le hb (Bool.eq_false_iff.2 fun hcarries => ?_)
    rw [scalar_le_iff.1 ha hcarries] at hba
    exact hba (covers_iff_le.2 (bottom_le b))
  rcases eq_or_isClassed b with rfl | rfl | ⟨m, rfl⟩ | hcb
  · exact absurd (covers_iff_le.2 (le_any a)) hba
  · rcases eq_of_isConst hb rfl with rfl | rfl | rfl
    · exact absurd rfl hany
    · exact absurd (covers_iff_le.2 ha) hba
    · exact absurd (covers_iff_le.2 ha) hba
  · have hleft : a.shared (scalar m) = a.withoutNil := by
      cases a <;> rfl
    rw [hleft]
    refine withoutNil_le ha (Bool.eq_false_iff.2 fun hcarries => ?_)
    rw [scalar_le_iff.1 hb hcarries] at hab
    exact hab (covers_iff_le.2 (bottom_le a))
  cases hk : a.sameKind b with
  | false =>
    have hclash := shared_of_clash hca hcb hk
    rcases eq_or_sameKind_of_le hca ha with hu | rfl | hka
    · exact absurd hu hany
    · exact absurd hclash (hnil rfl)
    · rcases eq_or_sameKind_of_le hcb hb with hu | rfl | hkb
      · exact absurd hu hany
      · exact absurd hclash (hnil rfl)
      · rw [← sameKind_congr hka b, hkb] at hk
        cases hk
  | true =>
    rcases eq_of_sameKind hca hk with ⟨i, j, rfl, rfl⟩ | ⟨x, y, rfl, rfl⟩ |
      ⟨c, n, d, m, rfl, rfl⟩ | ⟨s, n, t, m, rfl, rfl⟩ | ⟨s, f, n, t, g, m, rfl, rfl⟩
    · exact absurd (int_comparable ha hb hany) (not_or.2 ⟨hab, hba⟩)
    · exact absurd (float_comparable ha hb hany) (not_or.2 ⟨hab, hba⟩)
    · exact shared_text_le ha hb hnil
    · exact shared_function_le hu ha hb hnil
    · refine shared_record_le hu ha hb hnil fun hsites f' g' ef eg => ?_
      subst ef eg
      exact h s f' n t g' m rfl rfl hsites

end Bounds

/-! ## Intersections that miss nil -/

/-- Both flows, or fields of theirs under one label, lie below nil, and have nothing in common as their
intersection has it. -/
inductive MissesNil : Flow → Flow → Prop
  | here {a b : Flow} (ha : nil.covers a = true) (hb : nil.covers b = true) (h : a.join b = any) :
    MissesNil a b
  | field {s t : IdSet} {f g : Fields Flow none} {n m : Bool} {k : String} {v w : Flow}
    (hsites : (s.inter t).isEmpty = false) (hv : f.find? k = some v) (hw : g.find? k = some w)
    (h : MissesNil v w) : MissesNil (record s (some f) n) (record t (some g) m)

/-- The intersection is below every bound if nil is not missed and those of the fields of the first
flow are. -/
theorem join_le_of {a b u : Flow} (hmiss : ¬a.MissesNil b) (hu : u.isPopulated = true) (ha : a ≤ u)
    (hb : b ≤ u) (ih : ∀ s f n, a = record s (some f) n → ∀ k v, f.find? k = some v →
      ∀ w x, ¬v.MissesNil w → x.isPopulated = true → v ≤ x → w ≤ x → v.join w ≤ x) :
    a.join b ≤ u := by
  by_cases hab : a.covers b = true
  · rw [join_of_covers hab]
    exact ha
  by_cases hba : b.covers a = true
  · rw [join_of_covered hba]
    exact hb
  have hjoin := join_of_not_covers hab hba
  rw [hjoin]
  refine shared_le hab hba hu ha hb (fun hnil hany => ?_) ?_
  · subst hnil
    exact hmiss (.here (covers_iff_le.2 ha) (covers_iff_le.2 hb) (hjoin.trans hany))
  · rintro s f n t g m rfl rfl hsites k v w x hv hw
    exact ih s f n rfl k v hv w x fun h => hmiss (.field hsites hv hw h)

/-- The intersection is below every populated bound if nil is not missed. -/
theorem join_le {a b u : Flow} (hmiss : ¬a.MissesNil b) (hu : u.isPopulated = true) (ha : a ≤ u)
    (hb : b ≤ u) : a.join b ≤ u := by
  induction a using all_of generalizing b u with
  | record s f n ih =>
    refine join_le_of hmiss hu ha hb fun s' f' n' e k v hv w x hmiss hx hvx hwx => ?_
    cases e
    exact ih k v hv hmiss hx hvx hwx
  | _ => exact join_le_of hmiss hu ha hb fun _ _ _ e => nomatch e

/-! ## Bounds where nil is missed -/

/-- The layout that says something of one label alone, and nothing of the labels of another. -/
def outline (k : String) (x : Flow) (f : Fields Flow none) : Fields Flow none :=
  (f.map fun _ _ => any).insert k (after_none k) x

private theorem find?_outline (k : String) (x : Flow) (f : Fields Flow none) (l : String) :
    (outline k x f).find? l = if k = l then some x else (f.find? l).map fun _ => any := by
  rw [outline, Fields.find?_insert, Fields.find?_map]

/-- Whatever a layout says of its labels is below an outline, if it is at the one label. -/
theorem layoutLe_outline {k : String} {x v : Flow} {f h : Fields Flow none}
    (hlabels : ∀ l y, h.find? l = some y → (f.find? l).isSome = true) (hv : h.find? k = some v)
    (hvx : v ≤ x) : LayoutLe (some h) (some (outline k x f)) := by
  intro l y hy
  rw [find?_outline]
  split
  · rename_i e
    rw [← e, hv] at hy
    cases hy
    exact ⟨x, rfl, hvx⟩
  · obtain ⟨z, hz⟩ := Option.isSome_iff_exists.1 (hlabels l y hy)
    exact ⟨any, by rw [hz]; rfl, le_any y⟩

private theorem isPopulated_outline {k : String} {x : Flow} (hx : x.isPopulated = true)
    (f : Fields Flow none) (l : String) (y : Flow) (hy : (outline k x f).find? l = some y) :
    y.isPopulated = true := by
  rw [find?_outline] at hy
  split at hy
  · cases hy
    exact hx
  · obtain ⟨-, -, rfl⟩ := Option.map_eq_some_iff.1 hy
    rfl

/-- Where the fields under a label are not below a bound of theirs, comparable records are not there. -/
theorem not_covers_of_field {s t : IdSet} {f g : Fields Flow none} {n m : Bool} {k : String}
    {v w x : Flow} (hv : f.find? k = some v) (hw : g.find? k = some w) (hvx : v ≤ x)
    (hnot : ¬v.join w ≤ x) : ¬(record s (some f) n).covers (record t (some g) m) = true := by
  intro hcovers
  obtain ⟨v', hv', hle⟩ := (record_le_record.1 (covers_iff_le.1 hcovers)).2.1 k w hw
  rw [hv] at hv'
  cases hv'
  rw [join_of_covers (covers_iff_le.2 hle)] at hnot
  exact hnot hvx

/-- Where nil is missed there is a populated bound that is not above the intersection. -/
theorem MissesNil.exists_bound {a b : Flow} (h : a.MissesNil b) :
    ∃ u : Flow, u.isPopulated = true ∧ a ≤ u ∧ b ≤ u ∧ ¬a.join b ≤ u := by
  induction h with
  | here ha hb h =>
    refine ⟨nil, rfl, covers_iff_le.1 ha, covers_iff_le.1 hb, fun hle => ?_⟩
    rw [h] at hle
    cases eq_any_of_any_le hle
  | @field s t f g n m k v w hsites hv hw _ ih =>
    obtain ⟨x, hx, hvx, hwx, hnot⟩ := ih
    have hab := not_covers_of_field (s := s) (t := t) (n := n) (m := m) hv hw hvx hnot
    have hba := not_covers_of_field (s := t) (t := s) (n := m) (m := n) hw hv hwx
      (by rwa [join_comm])
    refine ⟨record (s.inter t) (some (outline k x (f.union g))) (n && m), ?_, ?_, ?_, fun hle => ?_⟩
    · refine isPopulated_record.2 ⟨IdSet.isEmpty_eq_false.1 hsites, fun l e => ?_⟩
      cases e
      exact isPopulated_outline hx _
    · refine record_le_record.2 ⟨fun i hi => (IdSet.mem_inter.1 hi).1, layoutLe_outline ?_ hv hvx,
        fun hnm => (Bool.and_eq_true_iff.1 hnm).1⟩
      intro l y hy
      simp [Fields.find?_union, hy]
    · refine record_le_record.2 ⟨fun i hi => (IdSet.mem_inter.1 hi).2, layoutLe_outline ?_ hw hwx,
        fun hnm => (Bool.and_eq_true_iff.1 hnm).2⟩
      intro l y hy
      simp [Fields.find?_union, hy]
    · rw [join_of_not_covers hab hba, shared, hsites, if_neg Bool.false_ne_true] at hle
      have hk : ((joinShared f g).union g).find? k = some (v.join w) := by
        rw [find?_union_joinShared, hv, hw]
        rfl
      obtain ⟨y, hy, hyx⟩ := (record_le_record.1 hle).2.1 k _ hk
      rw [find?_outline, if_pos rfl] at hy
      cases hy
      exact hnot hyx

/-! ## The least bound -/

/-- The intersection of two flows is below all that is above both, exactly if neither they nor fields
of theirs have nil in common where their intersection has not.  Then nothing strictly below the
intersection is above both. -/
theorem join_least (a b : Flow) :
    ((∀ u : Flow, u.isPopulated = true → u.covers a = true → u.covers b = true →
        u.covers (a.join b) = true) ↔ ¬a.MissesNil b) ∧
      (¬a.MissesNil b → ∀ u : Flow, u.isPopulated = true → u.covers a = true → u.covers b = true →
        (a.join b).covers u = true → u = a.join b) := by
  have hleast : ¬a.MissesNil b → ∀ u : Flow, u.isPopulated = true → u.covers a = true →
      u.covers b = true → a.join b ≤ u :=
    fun hmiss u hu ha hb => join_le hmiss hu (covers_iff_le.1 ha) (covers_iff_le.1 hb)
  refine ⟨⟨fun h hmiss => ?_, hleast⟩, fun hmiss u hu ha hb hle => ?_⟩
  · obtain ⟨u, hu, ha, hb, hnot⟩ := hmiss.exists_bound
    exact hnot (covers_iff_le.1 (h u hu (covers_iff_le.2 ha) (covers_iff_le.2 hb)))
  · exact le_antisymm (covers_iff_le.1 hle) (hleast hmiss u hu ha hb)

/-- Two texts of which both may be nil have nil in common, but their intersection is `any`, which is
not below nil. -/
theorem join_misses_nil : ¬∀ a b u : Flow, a.isPopulated = true → b.isPopulated = true →
    u.isPopulated = true → u.covers a = true → u.covers b = true → u.covers (a.join b) = true := by
  intro h
  have hnil : nil.covers ((text (some "a") true).join (text (some "b") true)) = true :=
    h _ _ nil rfl rfl rfl (by decide) (by decide)
  revert hnil
  decide

/-- A record that may be nil with some text in it, and one with a certain text or nil: what they have
in common is a record with that text, and every bound of the two is above it. -/
theorem join_least_records : ∃ a b c : Flow,
    a = record (.ofList [1, 2]) (some (.ofList [("x", anyText)])) true ∧
      b = record (.ofList [2, 3]) (some (.ofList [("x", text (some "k") true)])) false ∧
      c = record (.ofList [2]) (some (.ofList [("x", text (some "k") false)])) false ∧
      a.join b = c ∧ ∀ u : Flow, u.isPopulated = true → u.covers a = true → u.covers b = true →
        u.covers c = true := by
  have hjoin : ∀ a b c : Flow, ¬a.MissesNil b → a.join b = c →
      a.join b = c ∧ ∀ u : Flow, u.isPopulated = true → u.covers a = true → u.covers b = true →
        u.covers c = true := by
    rintro a b _ hmiss rfl
    exact ⟨rfl, (join_least a b).1.2 hmiss⟩
  refine ⟨_, _, _, rfl, rfl, rfl, hjoin _ _ _ ?_ (by decide +kernel)⟩
  rintro (⟨-, hb, -⟩ | ⟨-, hv, -, hfield⟩)
  · exact absurd hb (by decide)
  · obtain ⟨-, e⟩ := Option.ite_none_right_eq_some.1 hv
    cases e
    cases hfield with
    | here ha => exact absurd ha (by decide)

end Flow

end TypeFlow
