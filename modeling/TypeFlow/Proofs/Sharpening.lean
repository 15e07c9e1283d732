import TypeFlow.Program.CallResult
import TypeFlow.Proofs.Computations
import TypeFlow.Proofs.FlowOrder

/-!
# Sharpened results

A sharpened flow is at or above the flow it comes from, with one exception.  The values that a number
has in common with every value but nil are the numbers but zero.  These are no flow, so the
intersection is rounded down to the number itself, and that may be nil as far as the order goes.

Main definitions:

- `Flow.Narrows`: at or above a flow, but for numbers in the place of every value but nil.
- `Flow.hasNonNil`: whether there is such a place.
- `Program.Sharpened`: narrowed, and nothing was observed only if nothing was before.

Main results:

- `Flow.join_narrows`: intersections narrow what they are taken with.
- `Program.results_sharpened`: so do the flows that calls are sharpened to.
-/

namespace TypeFlow

namespace IntFlow

private theorem meet_of_join {i j k : IntFlow} (h : i.join j = some k) : k.meet j = j := by
  cases i <;> cases j <;> grind [join, meet_self]

end IntFlow

namespace FloatFlow

private theorem meet_of_join {x y z : FloatFlow} (h : x.join y = some z) : z.meet y = y := by
  cases x <;> cases y <;> grind [join, meet, meet_self]

end FloatFlow

namespace Flow

/-! ## Narrowed flows -/

/-- The first flow is at or above the second, or has a number where the second has every value but
nil. -/
inductive Narrows : Flow → Flow → Prop
  | covers {a b : Flow} (h : a.covers b = true) : Narrows a b
  | int (i : IntFlow) : Narrows (.int i) .nonNil
  | float (x : FloatFlow) : Narrows (.float x) .nonNil
  | record {s t : IdSet} {f g : Fields Flow none} {n m : Bool} (hsites : ∀ x, x ∈ s → x ∈ t)
      (hlabels : ∀ k, (g.find? k).isSome = true → (f.find? k).isSome = true)
      (hfields : ∀ k v w, f.find? k = some v → g.find? k = some w → Narrows v w)
      (hnil : n = true → m = true) : Narrows (.record s (some f) n) (.record t (some g) m)

/-- Every field of the second layout is narrowed by one of the first. -/
def NarrowsAll {bound bound' : Option String} (f : Fields Flow bound) (g : Fields Flow bound') :
    Prop := ∀ k w, g.find? k = some w → ∃ v, f.find? k = some v ∧ v.Narrows w

private theorem Narrows.refl (a : Flow) : a.Narrows a := .covers (covers_self a)

private theorem Narrows.of_le {a b : Flow} (h : b ≤ a) : a.Narrows b := .covers (covers_iff_le.2 h)

private theorem Narrows.of_fields {s t : IdSet} {f g : Fields Flow none} {n m : Bool}
    (hsites : ∀ x, x ∈ s → x ∈ t) (hfields : NarrowsAll f g) (hnil : n = true → m = true) :
    (Flow.record s (some f) n).Narrows (.record t (some g) m) := by
  refine .record hsites (fun k hk => ?_) (fun k v w hv hw => ?_) hnil
  · obtain ⟨w, hw⟩ := Option.isSome_iff_exists.1 hk
    obtain ⟨v, hv, -⟩ := hfields k w hw
    rw [hv]
    rfl
  · obtain ⟨v', hv', hnarrows⟩ := hfields k w hw
    obtain rfl := Option.some.inj (hv.symm.trans hv')
    exact hnarrows

end Flow

mutual

/-- Of some value within it is known that it is not nil, and nothing else. -/
def Flow.hasNonNil : Flow → Bool
  | .scalar n => !n
  | .record _ (some fields) _ => Flow.hasNonNilFields fields
  | _ => false
  termination_by structural a => a

/-- The same for some value in the fields. -/
def Flow.hasNonNilFields {bound : Option String} : Fields Flow bound → Bool
  | .nil => false
  | .cons _ _ v fields => Flow.hasNonNil v || Flow.hasNonNilFields fields
  termination_by structural fields => fields

end

namespace Flow

private theorem hasNonNil_of_find? {bound : Option String} {f : Fields Flow bound} {k : String} {v : Flow}
    (h : hasNonNilFields f = false) (hv : f.find? k = some v) : v.hasNonNil = false := by
  induction f with
  | nil => cases hv
  | cons l _ w rest ih =>
    rw [hasNonNilFields, Bool.or_eq_false_iff] at h
    rw [Fields.find?_cons] at hv
    split at hv
    · rw [← Option.some.inj hv]
      exact h.1
    · exact ih h.2 hv

/-- Where no value is known just not to be nil, narrowing leads up. -/
theorem Narrows.covers_of_hasNonNil {a b : Flow} (h : a.Narrows b) (hb : b.hasNonNil = false) :
    a.covers b = true := by
  induction h with
  | covers h => exact h
  | int => cases hb
  | float => cases hb
  | record hsites hlabels hfields hnil ih =>
    have hlayout : hasNonNilFields _ = false := hb
    refine covers_iff_le.2 (record_le_record.2 ⟨hsites, fun k w hw => ?_, hnil⟩)
    obtain ⟨v, hv⟩ := Option.isSome_iff_exists.1 (hlabels k (by rw [hw]; rfl))
    exact ⟨v, hv, covers_iff_le.1 (ih k v w hv hw (hasNonNil_of_find? hlayout hw))⟩

/-! ## Intersections -/

private theorem covers_withoutNil (a : Flow) : a.withoutNil.covers a = true := by
  rw [covers_iff_le]
  cases a with
  | nil => exact le_any _
  | text c n => exact text_le_text.2 ⟨Or.inl rfl, nofun⟩
  | function s n => exact function_le_function.2 ⟨fun _ hx => hx, nofun⟩
  | record s f n => exact record_le_record.2 ⟨fun _ hx => hx, .refl f, nofun⟩
  | scalar n => exact scalar_le_iff.2 nofun
  | _ => exact le_rfl

/-- What is left of a flow without its nil narrows every value but nil. -/
theorem withoutNil_narrows_nonNil (a : Flow) : a.withoutNil.Narrows .nonNil := by
  cases a with
  | int i => exact .int i
  | float x => exact .float x
  | _ => exact .of_le (scalar_le_iff.2 nofun)

/-- Fields that two records share have the intersections of their flows. -/
theorem find?_joinShared {bound bound' : Option String} (f : Fields Flow bound)
    (g : Fields Flow bound') (k : String) :
    (joinShared f g).find? k = (f.find? k).map fun v => (g.find? k).elim v v.join := by
  induction f with
  | nil => rfl
  | cons l h v rest ih =>
    unfold joinShared
    split
    · rename_i w hw
      rw [Fields.find?_cons, Fields.find?_cons, ih]
      split
      · rename_i e
        rw [← e, hw]
        rfl
      · rfl
    · rename_i hw
      rw [Fields.find?_cons, Fields.find?_cons, ih]
      split
      · rename_i e
        rw [← e, hw]
        rfl
      · rfl

/-- The layout of an intersection narrows the second layout where the parts do. -/
theorem joinShared_narrows {f g : Fields Flow none}
    (h : ∀ k v, f.find? k = some v → ∀ w, (v.join w).Narrows w) :
    NarrowsAll ((joinShared f g).union g) g := by
  intro k w hw
  rw [Fields.find?_union, find?_joinShared, hw]
  cases hv : f.find? k with
  | none => exact ⟨w, rfl, .refl w⟩
  | some v => exact ⟨v.join w, rfl, h k v hv w⟩

/-! Within a class an intersection is at or above the second flow. -/

private theorem int_le_join (i j : IntFlow) : int j ≤ (i.join j).elim any int := by
  cases h : i.join j with
  | none => exact le_any _
  | some k => exact int_le_int.2 (IntFlow.meet_of_join h)

private theorem float_le_join (x y : FloatFlow) : float y ≤ (x.join y).elim any float := by
  cases h : x.join y with
  | none => exact le_any _
  | some z => exact float_le_float.2 (FloatFlow.meet_of_join h)

private theorem text_le_join (c d : Option String) (n m : Bool) :
    text d m ≤ if c.isSome && d.isSome && c != d then any else text (c.or d) (n && m) := by
  split
  · exact le_any _
  · refine text_le_text.2 ⟨?_, by simp⟩
    cases c <;> cases d <;> simp_all

private theorem function_le_join (s t : IdSet) (n m : Bool) :
    function t m ≤ if (s.inter t).isEmpty then any else function (s.inter t) (n && m) := by
  split
  · exact le_any _
  · exact function_le_function.2 ⟨fun x hx => (IdSet.mem_inter.1 hx).2, by simp⟩

private theorem record_le_join (s t : IdSet) {f g : Option (Fields Flow none)} (h : f = none ∨ g = none)
    (n m : Bool) :
    record t g m ≤ if (s.inter t).isEmpty then any else record (s.inter t) (f.or g) (n && m) := by
  split
  · exact le_any _
  · refine record_le_record.2 ⟨fun x hx => (IdSet.mem_inter.1 hx).2, ?_, by simp⟩
    rcases h with rfl | rfl
    · exact .refl g
    · trivial

/-- Intersections narrow the second flow where those of the fields do. -/
theorem join_narrows_of {a : Flow} (b : Flow)
    (ih : ∀ s f n, a = record s (some f) n →
      ∀ k v, f.find? k = some v → ∀ w, (v.join w).Narrows w) : (a.join b).Narrows b := by
  rw [join.eq_def]
  split
  · exact .of_le (le_any _)
  · exact .of_le (le_any _)
  · exact .refl _
  · exact .of_le (bottom_le _)
  · exact .covers (covers_withoutNil _)
  · exact withoutNil_narrows_nonNil _
  · dsimp only
    split
    · exact .covers ‹_›
    split
    · exact .refl _
    split
    · exact .of_le (le_any _)
    · refine .of_fields (fun x hx => (IdSet.mem_inter.1 hx).2) (joinShared_narrows (ih _ _ _ rfl)) ?_
      simp
  · split
    · exact .covers ‹_›
    split
    · exact .refl _
    split
    · exact .of_le (int_le_join _ _)
    · exact .of_le (float_le_join _ _)
    · exact .of_le (text_le_join _ _ _ _)
    · exact .of_le (function_le_join _ _ _ _)
    · rename_i hlaid _ _
      refine .of_le (record_le_join _ _ ?_ _ _)
      by_contra hboth
      obtain ⟨hf, hg⟩ := not_or.1 hboth
      obtain ⟨f, rfl⟩ := Option.ne_none_iff_exists'.1 hf
      obtain ⟨g, rfl⟩ := Option.ne_none_iff_exists'.1 hg
      exact hlaid _ _ _ _ _ _ rfl rfl
    · exact .of_le (le_any _)

/-- What two flows have in common narrows the second one. -/
theorem join_narrows (a b : Flow) : (a.join b).Narrows b := by
  induction a using all_of generalizing b with
  | record s f n ih =>
    refine join_narrows_of b fun s' f' n' e k v hv w => ?_
    cases e
    exact ih k v hv w
  | _ => exact join_narrows_of b fun _ _ _ e => nomatch e

/-! ## Flows narrowed by what is known -/

private theorem narrowedBy_narrows (flow known : Flow) : (flow.narrowedBy known).Narrows flow := by
  unfold narrowedBy
  dsimp only
  split
  · exact .refl flow
  · exact join_narrows known flow

@[simp] theorem join_any (a : Flow) : a.join any = any := by
  cases a <;> simp [join]

/-- Only where nothing was observed there is nothing left. -/
theorem isAny_narrowedBy (flow known : Flow) : (flow.narrowedBy known).isAny = flow.isAny := by
  unfold narrowedBy
  dsimp only
  cases h : (known.join flow).isAny with
  | true => rfl
  | false =>
    rw [if_neg Bool.false_ne_true, h]
    cases flow with
    | any =>
      rw [join_any] at h
      cases h
    | _ => rfl

end Flow

namespace Program

variable {call : NodeId} {noted : List (TermId × Flow)} {f g : Forest}

/-! ## Sharpening along types -/

/-- The flow narrows another one, and nothing was observed of it only if nothing was of the other. -/
structure Sharpened (r flow : Flow) : Prop where
  narrows : r.Narrows flow
  isAny : r.isAny = flow.isAny

private theorem Sharpened.refl (flow : Flow) : Sharpened flow flow := ⟨.refl flow, rfl⟩

private theorem Sharpened.narrowedBy (flow known : Flow) : Sharpened (flow.narrowedBy known) flow :=
  ⟨Flow.narrowedBy_narrows flow known, Flow.isAny_narrowedBy flow known⟩

/-- A flow that is known and at or above another one may stand for it. -/
theorem Sharpened.of_covers {known flow : Flow} (hany : known.isAny = false)
    (h : known.covers flow = true) : Sharpened known flow :=
  ⟨.covers h, by rw [hany, Flow.isAny_of_le h hany]⟩

private theorem sharpenWhole_sharpened (flow : Flow) (t : TermId) :
    Yields (Sharpened · flow) (sharpenWhole call noted flow t) := by
  refine yields_bind fun f => ?_
  cases noted.lookup t with
  | none =>
    cases f.kind t with
    | base own => exact yields_pure (.narrowedBy flow own)
    | record => exact yields_bind fun widest => yields_pure (.narrowedBy flow widest)
    | _ => exact yields_pure (.refl flow)
  | some known =>
    have hknown : Yields (Sharpened · flow) (do
        if !known.isAny && known.covers flow then
          watch t call
          return known
        else return flow) := by
      split
      · rename_i h
        rw [Bool.and_eq_true, Bool.not_eq_true'] at h
        exact yields_bind fun _ => yields_pure (.of_covers h.1 h.2)
      · exact yields_pure (.refl flow)
    cases f.kind t with
    | var | link | error => exact hknown
    | base | record => exact yields_pure (.narrowedBy flow known)
    | _ => exact yields_pure (.refl flow)

mutual

/-- A flow that is sharpened along a type is narrowed. -/
theorem sharpen_sharpened (call : NodeId) (noted : List (TermId × Flow)) :
    ∀ (flow : Flow) (t : TermId), Yields (Sharpened · flow) (sharpen call noted flow t)
  | .any, _ => yields_pure (.refl _)
  | .record sites (some fields) nil, t => by
    refine yields_bind fun t => yields_bind fun f => ?_
    refine yields_ite ((sharpenFields_narrows call noted fields t).bind fun fields' h => ?_)
      (sharpenWhole_sharpened _ t)
    exact yields_pure ⟨.of_fields (fun _ hx => hx) h id, rfl⟩
  | .record _ none _, t | .nil, t | .int _, t | .float _, t | .text _ _, t | .function _ _, t
  | .scalar _, t => yields_bind fun t => sharpenWhole_sharpened _ t
  termination_by structural flow => flow

/-- So are the fields of a record. -/
theorem sharpenFields_narrows (call : NodeId) (noted : List (TermId × Flow))
    {bound : Option String} : ∀ (fields : Fields Flow bound) (t : TermId),
      Yields (Flow.NarrowsAll · fields) (sharpenFields call noted fields t)
  | .nil, _ => yields_pure nofun
  | .cons label h flow rest, t => by
    have hrest : ∀ flow', Sharpened flow' flow → Yields (Flow.NarrowsAll · (.cons label h flow rest))
        (do return .cons label h flow' (← sharpenFields call noted rest t)) := by
      intro flow' hflow
      refine (sharpenFields_narrows call noted rest t).bind fun rest' hrest => yields_pure ?_
      intro k w hw
      rw [Fields.find?_cons] at hw ⊢
      split
      · rename_i e
        rw [if_pos e] at hw
        exact ⟨flow', rfl, Option.some.inj hw ▸ hflow.narrows⟩
      · rename_i e
        rw [if_neg e] at hw
        exact hrest k w hw
    refine yields_bind_option (hrest flow (.refl flow)) fun child => ?_
    exact (sharpen_sharpened call noted flow child).bind hrest
  termination_by structural fields => fields

end

/-! ## Calls -/

/-- The flow of a call is a sharpened flow met with the one that the call has. -/
theorem callResult_sharpened (p : Program) (flows : Flows) (call : NodeId) (args : List NodeId)
    (flow : Flow) : Yields (fun r => ∃ x, Sharpened x flow ∧ r = x.meet (flows.ofNode call))
      (p.callResult flows call args flow) := by
  refine yields_bind fun carried => yields_bind fun me => yields_bind fun _ => ?_
  exact yields_bind fun sharpened => yields_pure ⟨_, .narrowedBy flow sharpened, rfl⟩

/-- A flow that is narrowed by what is known or sharpened along a type is at or above the flow it
comes from, but for numbers in the place of every value but nil, and it says that nothing was
observed only if that flow does.  The flow of a call is such a flow, met with the one that the call
has.  A flow in which no value is known just not to be nil is never lowered. -/
theorem results_sharpened :
    (∀ flow known : Flow, Sharpened (flow.narrowedBy known) flow) ∧
    (∀ call noted flow t f r g, sharpen call noted flow t f = some (r, g) → Sharpened r flow) ∧
    (∀ (p : Program) flows call args flow f r g,
      p.callResult flows call args flow f = some (r, g) →
        ∃ x, Sharpened x flow ∧ r = x.meet (flows.ofNode call)) ∧
    ∀ r flow : Flow, Sharpened r flow → flow.hasNonNil = false → r.covers flow = true :=
  ⟨Sharpened.narrowedBy, fun call noted flow t f r g => sharpen_sharpened call noted flow t f r g,
    fun p flows call args flow f r g => callResult_sharpened p flows call args flow f r g,
    fun _ _ h hnonNil => h.narrows.covers_of_hasNonNil hnonNil⟩

/-- At a variable that an argument carried a five to, any integer becomes five. -/
theorem results_sharpened_five : ∃ r g,
    sharpen 0 [(0, .int (.const 5))] .int64 0 (Forest.empty.alloc .var).2 = some (r, g) ∧
      r = .int (.const 5) ∧ Sharpened r .int64 ∧ r.covers .int64 = true := by
  have hrun : (sharpen 0 [(0, .int (.const 5))] .int64 0 (Forest.empty.alloc .var).2).map (·.1) =
      some (.int (.const 5)) := by
    decide +kernel
  obtain ⟨⟨r, g⟩, h, rfl⟩ := Option.map_eq_some_iff.1 hrun
  have hsharpened := results_sharpened.2.1 _ _ _ _ _ _ _ h
  exact ⟨_, g, h, rfl, hsharpened, results_sharpened.2.2.2 _ _ hsharpened rfl⟩

/-- At an integer type, every value but nil becomes any integer, and that is not above it. -/
theorem result_lowered : ∃ r g,
    sharpen 0 [] .nonNil 0 (Forest.empty.alloc (.base .int64)).2 = some (r, g) ∧
      r = .int64 ∧ r.covers .nonNil = false ∧
      (Flow.nonNil.narrowedBy (.int (.const 5))).covers .nonNil = false := by
  have hrun : (sharpen 0 [] .nonNil 0 (Forest.empty.alloc (.base .int64)).2).map (·.1) =
      some .int64 := by
    decide +kernel
  obtain ⟨⟨r, g⟩, h, rfl⟩ := Option.map_eq_some_iff.1 hrun
  exact ⟨_, g, h, rfl, rfl, rfl⟩

end Program

end TypeFlow
