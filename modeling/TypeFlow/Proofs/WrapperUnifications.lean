import TypeFlow.Proofs.RepeatedInstantiations

/-!
# What the unification with a nilable wrapper makes of both types

A wrapper whose inner type is not known yet tells no more than that its values may be nil.  When it is
unified with a base type, a function or a record it becomes one class with that, and what it wraps
becomes a class of its own: a copy of the other type without nil.  Nothing is asked of the children of
the other type, which may lead back to the wrapper or to what it wraps.

Main definitions:

- `Kind.isSolid`: what a type must be to collapse a wrapper.
- `Forest.Unwraps`: what the two types became.

Main results:

- `Unifier.unify_wrapper`: the unification returns and collapses the wrapper.
- `Forest.wrapper_unified`: the two types that a wrapper and another type become.
-/

namespace TypeFlow

open Forest (absorbedKind strippedKind)

namespace Kind

variable {k k' : Kind} {r r' : TermId → TermId}

/-- The type is a base type, a function or a record. -/
def isSolid (k : Kind) : Bool := k.isBase || k.isFunction || k.isRecord

private theorem isLink_of_isSolid (h : k.isSolid = true) : k.isLink = false := by
  cases k <;> first | rfl | cases h

private theorem ne_var_of_isSolid (h : k.isSolid = true) : k ≠ .var := by
  rintro rfl
  cases h

private theorem isNilable_of_isSolid (h : k.isSolid = true) : k.isNilable = false := by
  cases k <;> first | rfl | cases h

private theorem mapChildren_strippedKind (input : Bool) (k : Kind) (r : TermId → TermId) :
    (strippedKind input k).mapChildren r = strippedKind input (k.mapChildren r) := by
  cases input <;> cases k <;> rfl

private theorem mayNil_orNil (h : k.isSolid = true) : k.orNil.mayNil = true := by
  cases k with
  | base flow => exact flow.mayNil_orNil
  | function args ret fids nil => rfl
  | record fields sites isOpen nil => rfl
  | _ => cases h

private theorem child?_strippedKind (input : Bool) (k : Kind) (slot : Slot) :
    (strippedKind input k).child? slot = k.child? slot := by
  cases input <;> cases k <;> cases slot <;> rfl

private theorem isSolid_strippedKind (input : Bool) (k : Kind) : (strippedKind input k).isSolid = k.isSolid := by
  cases input <;> cases k <;> rfl

private theorem isSolid_orNil (k : Kind) : k.orNil.isSolid = k.isSolid := by
  cases k <;> rfl

private theorem isSolid_mapChildren (k : Kind) (r : TermId → TermId) :
    (k.mapChildren r).isSolid = k.isSolid := by
  cases k <;> rfl

/-- Kinds that are the same up to one map are the same up to a coarser one. -/
theorem Same.coarser (h : Same r k k') (hr : ∀ x, r' (r x) = r' x) : Same r' k k' := by
  rw [Same, ← mapChildren_mapChildren hr, h, mapChildren_mapChildren hr]

private theorem Same.strippedKind (h : Same r k k') (input : Bool) :
    Same r (strippedKind input k) (strippedKind input k') := by
  rw [Same, mapChildren_strippedKind, mapChildren_strippedKind, h]

end Kind

namespace Forest

variable {f g h : Forest}

private theorem calm_of_isSolid {c : TermId} (hc : (f.kind c).isSolid = true) : f.Calm c :=
  calm_of_not_nilable (Kind.isLink_of_isSolid hc) (Kind.isNilable_of_isSolid hc)

private theorem isClass_of_isSolid {c : TermId} (hc : (f.kind c).isSolid = true) : f.IsClass c :=
  ⟨lt_size_of_kind (Kind.ne_var_of_isSolid hc), Kind.isLink_of_isSolid hc⟩

private theorem Upkeeps.isSolid (hf : f.Rooted) (hup : f.Upkeeps g) {c : TermId}
    (hc : (f.kind c).isSolid = true) : (g.kind c).isSolid = true := by
  rw [(hup.same hf (calm_of_isSolid hc)).reads fun k => k.isSolid_mapChildren _, hc]

/-- A wrapper that collapses after tidying up collapses all the same. -/
theorem Collapses.of_upkeeps {wrapper leaf that : TermId} (hf : f.Sound) (hup : f.Upkeeps g)
    (hthat : f.Calm that) (hc : g.Collapses wrapper leaf that h) :
    f.Collapses wrapper leaf that h := by
  have hrep := (hup.steady hf.rooted).rep
  obtain ⟨hreps, ⟨k, hk, hcopy⟩, hwrapper⟩ := hc
  rw [hup.size] at hreps hcopy hwrapper
  refine ⟨fun x => by rw [hreps, hrep], ⟨k, ?_, by rw [hcopy, hup.isInput]⟩, hwrapper⟩
  refine (hup.calm hf.rooted hthat).1.trans (rep_rep hf.rooted) hk fun _ x _ => ?_
  rw [hrep, hrep, rep_rep hf.rooted]
  exact ⟨rfl, rfl⟩

end Forest

namespace Unifier

variable {rec : TermId → TermId → UnifyM Bool} {s t u : Unifier}

/-! ## Evaluation -/

/-- Looking a calm class up returns. -/
theorem find_of_calm {x : TermId} (hs : s.Sound) (hx : s.forest.Calm (s.forest.rep x)) :
    ∃ u, find x s = some (s.forest.rep x, u) ∧ Looks s u := by
  obtain ⟨⟨r, f⟩, hf⟩ := Option.isSome_iff_exists.1
    ((Forest.find_isSome_iff hs.forest.rooted x).2 hx.ends)
  have hfind : find x s = some (r, { s with forest := f }) := onForest_eq_some.2 ⟨f, hf, rfl⟩
  obtain ⟨rfl, hlooks⟩ := find_looks hs hfind
  exact ⟨_, hfind, hlooks⟩

/-- So does looking two of them up in turn. -/
theorem find_both_of_calm {a b : TermId} (hs : s.Sound) (ha : s.forest.Calm (s.forest.rep a))
    (hb : s.forest.Calm (s.forest.rep b)) :
    ∃ t u, find a s = some (s.forest.rep a, t) ∧ find b t = some (s.forest.rep b, u) ∧ Looks s u := by
  obtain ⟨t, hfind, hlooks⟩ := find_of_calm hs ha
  have hrep := (hlooks.steady hs).rep b
  obtain ⟨u, hfind', hlooks'⟩ := find_of_calm (x := b) (hlooks.proceeds hs).sound
    (hrep.symm ▸ (hlooks.calm hs hb).2)
  exact ⟨t, u, hfind, hrep ▸ hfind', hlooks.trans hlooks'⟩

/-- Two calm classes are looked up before one layer of unification is entered. -/
theorem unify_of_calm {a b : TermId} (hs : s.Sound) (ha : s.forest.Calm a) (hb : s.forest.Calm b)
    (hne : a ≠ b) (depth : Nat) :
    ∃ t, s.forest.Upkeeps t.forest ∧ Proceeds s t ∧
      unify (depth + 1) a b s = unifyStep (unifyWithin depth) a b t := by
  have hra : s.forest.rep a = a := Forest.rep_of_not_link ha.root
  have hrb : s.forest.rep b = b := Forest.rep_of_not_link hb.root
  obtain ⟨s₁, s₂, hfind, hfind', hlooks⟩ := find_both_of_calm hs (hra.symm ▸ ha) (hrb.symm ▸ hb)
  rw [hra] at hfind
  rw [hrb] at hfind'
  have hp := hlooks.proceeds hs
  refine ⟨{ s₂ with met := [] }, hlooks.upkeeps, hp.trans (.of_memory hp.sound hp.sound.image), ?_⟩
  unfold unify
  rw [bind_of_eq hfind, bind_of_eq hfind', if_neg hne]
  rfl

/-- One layer of unification hands a wrapper and another type on, in either order. -/
theorem unifyStep_wrapper {a b wrapper that x : TermId} (hs : s.Sound)
    (hpair : wrapper = a ∧ that = b ∨ wrapper = b ∧ that = a) (hwrapper : s.forest.Calm wrapper)
    (hx : s.forest.kind wrapper = .nilable x) (hthat : (s.forest.kind that).isSolid = true) :
    ∃ t, Looks s t ∧ unifyStep rec a b s = unifyNilable rec wrapper that t := by
  have hcthat := Forest.calm_of_isSolid hthat
  have hne : wrapper ≠ that := by
    rintro rfl
    rw [hx] at hthat
    cases hthat
  obtain ⟨hab, ha, hb⟩ : a ≠ b ∧ s.forest.Calm a ∧ s.forest.Calm b := by
    rcases hpair with ⟨rfl, rfl⟩ | ⟨rfl, rfl⟩
    · exact ⟨hne, hwrapper, hcthat⟩
    · exact ⟨hne.symm, hcthat, hwrapper⟩
  have hra : s.forest.rep a = a := Forest.rep_of_not_link ha.root
  have hrb : s.forest.rep b = b := Forest.rep_of_not_link hb.root
  obtain ⟨t, u, hfind, hfind', hlooks⟩ := find_both_of_calm hs (hra.symm ▸ ha) (hrb.symm ▸ hb)
  rw [hra] at hfind
  rw [hrb] at hfind'
  obtain ⟨y, hy, -⟩ := hlooks.wraps hs hwrapper hx
  have hkwrapper : kindOf wrapper u = some (.nilable y, u) := by rw [← hy]; rfl
  have hkthat : kindOf that u = some (u.forest.kind that, u) := rfl
  have hsolid := hlooks.upkeeps.isSolid hs.forest.rooted hthat
  have hslots : (Kind.nilable y).slots.isEmpty = false := rfl
  refine ⟨u, hlooks, ?_⟩
  generalize u.forest.kind that = k at hkthat hsolid
  unfold unifyStep
  rw [bind_of_eq hfind, bind_of_eq hfind', if_neg hab]
  rcases hpair with ⟨rfl, rfl⟩ | ⟨rfl, rfl⟩
  · rw [bind_of_eq hkwrapper, bind_of_eq hkthat, hslots, Bool.false_and]
    cases k <;> first | rfl | cases hsolid
  · rw [bind_of_eq hkthat, bind_of_eq hkwrapper, hslots, Bool.and_false]
    cases k <;> first | rfl | cases hsolid

/-- Unifying a wrapper of a variable with another type, in either order, collapses the wrapper. -/
theorem unify_wrapper {a b wrapper that inner : TermId} (hs : s.Sound)
    (hwork : s.work.isNone = false) (hpair : wrapper = a ∧ that = b ∨ wrapper = b ∧ that = a)
    (hwrapper : s.forest.kind wrapper = .nilable inner)
    (hleaf : s.forest.kind (s.forest.rep inner) = .var)
    (hthat : (s.forest.kind that).isSolid = true) (depth : Nat) :
    ∃ u, unify (depth + 1) a b s = some (true, u) ∧ Proceeds s u ∧
      s.forest.Collapses wrapper (s.forest.rep inner) that u.forest := by
  have hcalm : s.forest.Calm wrapper := by
    refine ⟨by rw [hwrapper]; rfl, fun x hx => ?_⟩
    rw [hwrapper] at hx
    cases hx
    exact hleaf
  have hne : wrapper ≠ that := by
    rintro rfl
    rw [hwrapper] at hthat
    cases hthat
  obtain ⟨s₁, hup₁, hp₁, hunify⟩ : ∃ t, s.forest.Upkeeps t.forest ∧ Proceeds s t ∧
      unify (depth + 1) a b s = unifyStep (unifyWithin depth) a b t := by
    rcases hpair with ⟨rfl, rfl⟩ | ⟨rfl, rfl⟩
    · exact unify_of_calm hs hcalm (Forest.calm_of_isSolid hthat) hne depth
    · exact unify_of_calm hs (Forest.calm_of_isSolid hthat) hcalm hne.symm depth
  have hcalm₁ := hup₁.calm hs.forest.rooted hcalm
  have hthat₁ := hup₁.isSolid hs.forest.rooted hthat
  obtain ⟨inner₁, hinner₁, hrep₁⟩ : ∃ y, s₁.forest.kind wrapper = .nilable y ∧
      s.forest.rep y = s.forest.rep inner := by
    have hrefreshed := hcalm₁.1
    rw [hwrapper] at hrefreshed
    exact hrefreshed.wraps (Forest.rep_rep hs.forest.rooted)
  obtain ⟨s₂, hlooks, hstep⟩ := unifyStep_wrapper hp₁.sound hpair hcalm₁.2 hinner₁ hthat₁
  -- The wrapper and the other type were looked up again, and are what they were.
  have hp₂ := hp₁.trans (hlooks.proceeds hp₁.sound)
  have hup₂ : s.forest.Upkeeps s₂.forest := hup₁.trans hlooks.upkeeps
  have hthat₂ := hup₂.isSolid hs.forest.rooted hthat
  obtain ⟨inner₂, hinner₂, hrep₂⟩ := hlooks.wraps hp₁.sound hcalm₁.2 hinner₁
  obtain ⟨u, hrun, hp₃, -, hcollapses⟩ := unifyNilable_collapses (unifyWithin depth) hp₂.sound
    (by rw [hp₂.probe, hwork]) (Forest.isClass_of_isSolid hthat₂)
    (hlooks.calm hp₁.sound hcalm₁.2).2 hinner₂ (Kind.ne_var_of_isSolid hthat₂)
    (Kind.isNilable_of_isSolid hthat₂)
  refine ⟨u, hunify.trans (hstep.trans hrun), hp₂.trans hp₃, ?_⟩
  rw [(hlooks.steady hp₁.sound).rep, hrep₂, (hup₁.steady hs.forest.rooted).rep, hrep₁] at hcollapses
  exact hcollapses.of_upkeeps hs.forest hup₂ (Forest.calm_of_isSolid hthat)

/-- Unifying terms of one class again makes no progress. -/
theorem unify_again {a b : TermId} (hs : s.Sound) (hcalm : s.forest.Calm (s.forest.rep a))
    (hab : s.forest.rep a = s.forest.rep b) (depth : Nat) :
    ∃ u, unify depth a b s = some (false, u) := by
  obtain ⟨t, u, hfind, hfind', -⟩ := find_both_of_calm hs hcalm (hab ▸ hcalm)
  refine ⟨u, ?_⟩
  unfold unify
  rw [bind_of_eq hfind, bind_of_eq hfind', if_pos hab]
  rfl

end Unifier

namespace Forest

open Unifier (Call)

variable {f g : Forest} {wrapper inner that : TermId}

/-- What a wrapper and another type became: one class that may be nil, and another class for what was
wrapped. -/
structure Unwraps (wrapper inner that : TermId) (f g : Forest) : Prop where
  rep : g.rep wrapper = g.rep that
  mayNil : (g.kind (g.rep wrapper)).mayNil = true
  ne : g.rep inner ≠ g.rep wrapper
  /-- What was wrapped has the other type without nil, and that is widened if values from callers flow
  into it. -/
  stripped : Kind.Same g.rep (strippedKind (f.isInput (f.rep inner)) (f.kind that))
    (g.kind (g.rep inner))
  /-- The common type is that with nil. -/
  nilable : g.kind (g.rep wrapper) = (g.kind (g.rep inner)).orNil
  /-- Both have the children that the other type had. -/
  children : ∀ c ∈ [wrapper, inner], ∀ slot,
    ((g.kind (g.rep c)).child? slot).map g.rep = ((f.kind that).child? slot).map g.rep

private theorem Collapses.unwraps (hf : f.Sound) (hwrapper : f.kind wrapper = .nilable inner)
    (hleaf : f.kind (f.rep inner) = .var) (hthat : (f.kind that).isSolid = true)
    (h : f.Collapses wrapper (f.rep inner) that g) : f.Unwraps wrapper inner that g := by
  obtain ⟨hrep, hrep'⟩ := h.rep_both (isClass_of_isSolid hthat) hwrapper hleaf
    (Kind.ne_var_of_isSolid hthat)
  have hinner : g.rep inner = f.size := by rw [h.rep, if_pos rfl]
  have hgrows : ∀ x, g.rep (f.rep x) = g.rep x := fun x => by rw [h.rep, h.rep, rep_rep hf.rooted]
  obtain ⟨k, hrefreshed, hcopy⟩ := h.copy
  have hsame : Kind.Same g.rep (strippedKind (f.isInput (f.rep inner)) (f.kind that))
      (g.kind (g.rep inner)) := by
    rw [hinner, hcopy]
    exact ((hrefreshed.same (rep_rep hf.rooted)).coarser hgrows).strippedKind _
  have hsolid : (g.kind (g.rep inner)).isSolid = true := by
    rw [hsame.reads fun k => k.isSolid_mapChildren _, Kind.isSolid_strippedKind, hthat]
  have hnilable : g.kind (g.rep wrapper) = (g.kind (g.rep inner)).orNil := by
    rw [hrep, h.wrapper, ← hinner, Forest.absorbedKind_eq_orNil _ (Kind.ne_var_of_isSolid hsolid)]
  have hchild : ∀ slot, ((g.kind (g.rep inner)).child? slot).map g.rep =
      ((f.kind that).child? slot).map g.rep := fun slot => by
    rw [hsame.child?, Kind.child?_strippedKind]
  refine ⟨hrep.trans hrep'.symm, ?_, ?_, hsame, hnilable, fun c hc slot => ?_⟩
  · rw [hnilable]
    exact Kind.mayNil_orNil hsolid
  · rw [hinner, hrep]
    exact (Nat.ne_of_lt (lt_size_of_kind (by rw [hwrapper]; exact Kind.noConfusion))).symm
  · rw [List.mem_pair] at hc
    rcases hc with rfl | rfl
    · rw [hnilable, Kind.child?_orNil, hchild]
    · exact hchild slot

private theorem Unwraps.isSolid (h : f.Unwraps wrapper inner that g) (hthat : (f.kind that).isSolid = true) :
    (g.kind (g.rep wrapper)).isSolid = true := by
  rw [h.nilable, Kind.isSolid_orNil, h.stripped.reads fun k => k.isSolid_mapChildren _,
    Kind.isSolid_strippedKind, hthat]

/-- Unifying a nilable wrapper of a variable with a base type, a function or a record, in either order,
returns and reports progress.  The two are one class then, which may be nil, and what was wrapped is
another class, of the other type without nil.  Unifying them again makes no progress. -/
theorem wrapper_unified (hf : f.Sound) (hwrapper : f.kind wrapper = .nilable inner)
    (hleaf : f.kind (f.rep inner) = .var) (hthat : (f.kind that).isSolid = true) {a b : TermId}
    (hpair : wrapper = a ∧ that = b ∨ wrapper = b ∧ that = a) (work : Worklist) (depth : Nat) :
    ∃ u, Unifier.unify (depth + 1) a b (Call.start f (some work)) = some (true, u) ∧
      f.Unwraps wrapper inner that u.forest ∧
      ∀ depth' work', ∃ v,
        Unifier.unify depth' a b (Call.start u.forest work') = some (false, v) := by
  obtain ⟨u, hrun, hp, hcollapses⟩ := Unifier.unify_wrapper (Call.sound_start hf (some work)) rfl hpair
    hwrapper hleaf hthat depth
  have hunwraps := Collapses.unwraps hf hwrapper hleaf hthat hcollapses
  refine ⟨u, hrun, hunwraps, fun depth' work' => ?_⟩
  have hab : u.forest.rep a = u.forest.rep b := by
    rcases hpair with ⟨rfl, rfl⟩ | ⟨rfl, rfl⟩
    · exact hunwraps.rep
    · exact hunwraps.rep.symm
  have hcalm : u.forest.Calm (u.forest.rep a) := by
    have hsolid := hunwraps.isSolid hthat
    have ha : u.forest.rep a = u.forest.rep wrapper := by
      rcases hpair with ⟨rfl, -⟩ | ⟨rfl, -⟩
      · rfl
      · exact hab
    rw [ha]
    exact calm_of_isSolid hsolid
  exact Unifier.unify_again (Call.sound_start hp.sound.forest work') hcalm hab depth'

/-- A wrapper and a record with a field that leads to the wrapper and one that leads to what it wraps. -/
theorem wrapper_unified_cyclic : ∃ f u,
    performAll [.var, .nilable 0,
      .record (.cons "next" trivial 1 (.cons "tail" (by decide) 0 .nil)) (.singleton 1) false] empty =
        some f ∧
      f.Reaches 2 1 ∧ f.Reaches 2 0 ∧
      Unifier.unify 3 2 1 (Call.start f (some .empty)) = some (true, u) ∧
      f.Unwraps 1 0 2 u.forest ∧
      ∃ v, Unifier.unify 3 2 1 (Call.start u.forest (some .empty)) = some (false, v) := by
  have hfacts : (performAll [.var, .nilable 0,
      .record (.cons "next" trivial 1 (.cons "tail" (by decide) 0 .nil)) (.singleton 1) false] empty).map
        (fun f => (f.kind 0, f.kind 1, f.kind 2, f.rep 0, f.rep 1)) =
      some (.var, .nilable 0, .record (.cons "next" trivial 1 (.cons "tail" (by decide) 0 .nil))
        (.singleton 1) false false, 0, 1) := rfl
  obtain ⟨f, hf, hfacts⟩ := Option.map_eq_some_iff.1 hfacts
  simp only [Prod.mk.injEq] at hfacts
  obtain ⟨hk0, hk1, hk2, hr0, hr1⟩ := hfacts
  obtain ⟨u, hrun, hunwraps, hagain⟩ := wrapper_unified (performAll_sound hf) hk1 (hr0.symm ▸ hk0)
    (by rw [hk2]; rfl) (Or.inr ⟨rfl, rfl⟩) .empty 2
  refine ⟨f, u, hf, .single ⟨.field "next", 1, by rw [hk2]; rfl, hr1⟩,
    .single ⟨.field "tail", 0, by rw [hk2]; rfl, hr0⟩, hrun, hunwraps, hagain 3 _⟩

end Forest

end TypeFlow
