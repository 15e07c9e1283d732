import TypeFlow.Proofs.AlikeTypes
import TypeFlow.Proofs.InstancesInPlace
import TypeFlow.Proofs.RowUnifications

/-!
# Type schemes

The type of a definition is a scheme if it is built of functions over base types and variables, is finite,
and no base type occurs in it more than once.  What has the same place in a scheme and in its use is a matter
of following common slots then.  What leads to a variable is generic, and it may have several places, as
variables may.

A scheme is instantiated in a region that it leads out of: the use and all that is new.  Whatever happens
in the region, the classes of the scheme stay what they are, up to the terms that stand for their children.

Main definitions:

- `Forest.Generic`: a class that leads to a variable.
- `Forest.Scheme`: a class of a type scheme.
- `Forest.SamePlace`: two classes have the same place in two types.
- `Forest.ChangesIn`: a forest was changed in a region only.
- `Forest.Instantiable`: a scheme, and a region that its instances belong to.

Main results:

- `Forest.SamePlace.unique`: one class of a use has the place of what is not generic in a scheme.
- `Forest.ChangesIn.of_off`: changes of terms of a region are such changes, and so are look-ups.
- `Forest.Instantiable.scheme_of`: a scheme stays one.
-/

namespace TypeFlow

namespace Kind

variable {r r' : TermId → TermId} {k k' : Kind}

/-- Both are links or none is. -/
theorem Same.isLink (h : Same r k k') : k'.isLink = k.isLink := h.reads fun k => isLink_mapChildren k r

/-- Children of one class are so later. -/
theorem Same.later (hr : ∀ x, r' (r x) = r' x) (h : Same r k k') : Same r' k k' := by
  have hall : ∀ l : Kind, (l.mapChildren r).mapChildren r' = l.mapChildren r' := fun _ =>
    mapChildren_mapChildren hr
  unfold Same at h ⊢
  rw [← hall, h, hall]

/-- A function has a result. -/
theorem exists_child?_ret (hk : k.isFunction = true) : ∃ x, k.child? .ret = some x := by
  cases k with
  | function args ret => exact ⟨ret, rfl⟩
  | _ => cases hk

end Kind

namespace Forest

variable {f g h : Forest} {a b c d : TermId} {slot : Slot} {x y : TermId}

/-! ## Schemes -/

/-- The class leads to a variable. -/
def Generic (f : Forest) (a : TermId) : Prop := ∃ v, f.Reaches a v ∧ f.kind v = .var

private theorem Generic.of_var (h : f.kind a = .var) : f.Generic a := ⟨a, .refl, h⟩

/-- What leads to a generic class is so. -/
theorem Generic.of_reaches (hab : f.Reaches a b) (h : f.Generic b) : f.Generic a :=
  let ⟨v, hv, hvar⟩ := h
  ⟨v, hab.trans hv, hvar⟩

/-- A base type is not generic. -/
theorem not_generic_of_base {flow : Flow} (h : f.kind a = .base flow) : ¬f.Generic a := by
  rintro ⟨v, hreach, hvar⟩
  rcases Relation.ReflTransGen.cases_head hreach with rfl | ⟨_, ⟨slot, x, hx, -⟩, -⟩
  · rw [h] at hvar
    cases hvar
  · rw [h] at hx
    cases slot <;> cases hx

/-- The class is a variable, a base type, or a function whose children are schemes of which no two share a
base type. -/
inductive Scheme (f : Forest) : TermId → Prop
  | var {a : TermId} (h : f.kind a = .var) : Scheme f a
  | base {a : TermId} {flow : Flow} (h : f.kind a = .base flow) : Scheme f a
  | function {a : TermId} (h : (f.kind a).isFunction = true)
    (hchildren : ∀ slot x, (f.kind a).child? slot = some x → Scheme f (f.rep x))
    (hapart : ∀ slot slot' x y c, slot ≠ slot' → (f.kind a).child? slot = some x →
      (f.kind a).child? slot' = some y → f.Reaches (f.rep x) c → f.Reaches (f.rep y) c →
      (f.kind c).baseFlow? = none) : Scheme f a

/-- The classes have the same place in the types of two others. -/
inductive SamePlace (f : Forest) : TermId → TermId → TermId → TermId → Prop
  | here {a b : TermId} : SamePlace f a b a b
  | child {a b x y c d : TermId} {slot : Slot} (hx : (f.kind a).child? slot = some x)
    (hy : (f.kind b).child? slot = some y) (h : SamePlace f (f.rep x) (f.rep y) c d) : SamePlace f a b c d

/-- A variable leads to itself only. -/
theorem Reaches.eq_of_var (h : f.Reaches a b) (hvar : f.kind a = .var) : b = a := by
  rcases Relation.ReflTransGen.cases_head h with rfl | ⟨c, ⟨slot, x, hx, rfl⟩, -⟩
  · rfl
  · rw [hvar] at hx
    cases slot <;> cases hx

/-- A function of variables is a scheme, whether or not they are distinct. -/
theorem Scheme.of_variables (hk : (f.kind a).isFunction = true)
    (h : ∀ x ∈ (f.kind a).children, f.kind (f.rep x) = .var) : f.Scheme a := by
  have hchild : ∀ {slot x}, (f.kind a).child? slot = some x → f.kind (f.rep x) = .var := fun hx =>
    h _ (Kind.mem_children_of_child? hx)
  refine .function hk (fun slot x hx => .var (hchild hx)) fun slot slot' x y c _ hx _ hc _ => ?_
  rw [hc.eq_of_var (hchild hx), hchild hx]
  rfl

/-- A class of a scheme is simple. -/
theorem Scheme.isSimple (h : f.Scheme a) : (f.kind a).isSimple = true := by
  cases h with
  | var h => rw [h]; rfl
  | base h => rw [h]; rfl
  | function h => cases hk : f.kind a <;> rw [hk] at h <;> first | rfl | cases h

/-- It is no link. -/
theorem Scheme.isLink (h : f.Scheme a) : (f.kind a).isLink = false := by
  have hsimple := h.isSimple
  cases hk : f.kind a <;> rw [hk] at hsimple <;> first | rfl | cases hsimple

/-- It wraps nothing. -/
theorem Scheme.calm (h : f.Scheme a) : f.Calm a :=
  calm_of_not_nilable h.isLink (Kind.isNilable_of_isSimple h.isSimple)

/-- Only functions have children in a scheme. -/
theorem Scheme.isFunction (h : f.Scheme a) (hx : (f.kind a).child? slot = some x) :
    (f.kind a).isFunction = true := by
  have hsimple := h.isSimple
  cases hk : f.kind a with
  | function => rfl
  | var | base => rw [hk] at hx; cases slot <;> cases hx
  | _ => rw [hk] at hsimple; cases hsimple

private theorem Scheme.child (h : f.Scheme a) (hx : (f.kind a).child? slot = some x) : f.Scheme (f.rep x) := by
  have hfunction := h.isFunction hx
  cases h with
  | var h => rw [h] at hfunction; cases hfunction
  | base h => rw [h] at hfunction; cases hfunction
  | function _ hchildren => exact hchildren slot x hx

/-- A scheme leads to schemes only. -/
theorem Scheme.reaches (h : f.Scheme a) (hb : f.Reaches a b) : f.Scheme b := by
  induction hb with
  | refl => exact h
  | tail _ hedge ih =>
    obtain ⟨slot, x, hx, rfl⟩ := hedge
    exact ih.child hx

/-- A scheme without base types is generic. -/
theorem Scheme.generic (h : f.Scheme a) (hbase : ∀ b, f.Reaches a b → (f.kind b).baseFlow? = none) :
    f.Generic a := by
  induction h with
  | var h => exact .of_var h
  | @base a _ h =>
    have hnone := hbase a .refl
    rw [h] at hnone
    cases hnone
  | function h _ _ ih =>
    obtain ⟨x, hx⟩ := Kind.exists_child?_ret h
    have hreach := Relation.ReflTransGen.single (r := f.Edge) ⟨.ret, x, hx, rfl⟩
    exact (ih .ret x hx fun b hb => hbase b (hreach.trans hb)).of_reaches hreach

/-- What two children share is generic. -/
theorem Scheme.apart (h : f.Scheme a) {slot' : Slot} (hne : slot ≠ slot')
    (hx : (f.kind a).child? slot = some x) (hy : (f.kind a).child? slot' = some y)
    (hc : f.Reaches (f.rep x) c) (hc' : f.Reaches (f.rep y) c) : f.Generic c := by
  refine ((h.child hx).reaches hc).generic fun b hb => ?_
  have hfunction := h.isFunction hx
  cases h with
  | var h => rw [h] at hfunction; cases hfunction
  | base h => rw [h] at hfunction; cases hfunction
  | function _ _ hapart => exact hapart slot slot' x y b hne hx hy (hc.trans hb) (hc'.trans hb)

/-- No class of a scheme leads to itself. -/
theorem Scheme.acyclic (h : f.Scheme a) (hx : (f.kind a).child? slot = some x) :
    ¬f.Reaches (f.rep x) a := by
  induction h generalizing slot x with
  | var h => rw [h] at hx; cases slot <;> cases hx
  | base h => rw [h] at hx; cases slot <;> cases hx
  | function _ _ _ ih =>
    intro hcycle
    -- The child would lead to itself as well.
    rcases Relation.ReflTransGen.cases_head hcycle with heq | ⟨c, ⟨slot', y, hy, rfl⟩, hreach⟩
    · exact ih slot x hx (heq ▸ hx) .refl
    · exact ih slot x hx hy (hreach.tail ⟨slot, x, hx, rfl⟩)

namespace SamePlace

/-- What has a place in the first type it leads to. -/
theorem reaches (h : f.SamePlace a b c d) : f.Reaches a c := by
  induction h with
  | here => exact .refl
  | child hx hy _ ih => exact .head ⟨_, _, hx, rfl⟩ ih

/-- What has a place in the second type it leads to. -/
theorem reaches' (h : f.SamePlace a b c d) : f.Reaches b d := by
  induction h with
  | here => exact .refl
  | child hx hy _ ih => exact .head ⟨_, _, hy, rfl⟩ ih

/-- Children of classes in the same place have the same place. -/
theorem tail (h : f.SamePlace a b c d) (hx : (f.kind c).child? slot = some x)
    (hy : (f.kind d).child? slot = some y) : f.SamePlace a b (f.rep x) (f.rep y) := by
  induction h with
  | here => exact .child hx hy .here
  | child hx' hy' _ ih => exact .child hx' hy' (ih hx hy)

/-- One class of the use has the place of a class of a scheme that is not generic. -/
theorem unique (hscheme : f.Scheme a) {e : TermId} (h : f.SamePlace a b c d) (h' : f.SamePlace a b c e)
    (hclosed : ¬f.Generic c) : d = e := by
  induction h with
  | here =>
    cases h' with
    | here => rfl
    | child hx _ h' => exact absurd h'.reaches (hscheme.acyclic hx)
  | @child a b x y c d slot hx hy h ih =>
    cases h' with
    | here => exact absurd h.reaches (hscheme.acyclic hx)
    | @child _ _ x' y' _ _ slot' hx' hy' h' =>
      by_cases heq : slot = slot'
      · subst heq
        rw [hx] at hx'
        rw [hy] at hy'
        cases hx'
        cases hy'
        exact ih (hscheme.child hx) h' hclosed
      · exact absurd (hscheme.apart heq hx hx' h.reaches h'.reaches) hclosed

end SamePlace

/-! ## Changes in a region -/

/-- A forest was changed in a region, and its old terms can tell no other change: classes outside of the
region are what they were, no ways between them were added, and wrappers still come to an end. -/
structure ChangesIn (V : TermId → Prop) (n : Nat) (f g : Forest) : Prop where
  size : f.size ≤ g.size
  grows : ∀ x y, f.rep x = f.rep y → g.rep x = g.rep y
  rep : ∀ t, ¬V (f.rep t) → g.rep t = f.rep t
  stays : ∀ t, V (f.rep t) → V (g.rep t)
  ways : ∀ a b, a < n → g.Reaches a b → ¬V b → f.Reaches a b
  ends : ∀ t, f.Ends t → g.Ends t
  same : ∀ a, a < n → ¬V a → (f.kind a).isLink = false → (f.kind a).isNilable = false →
    (f.kind a).Same g.rep (g.kind a)

namespace ChangesIn

variable {V W : TermId → Prop} {m n : Nat}

/-- A term is of the class of its former representative. -/
theorem rep_rep (h : ChangesIn V n f g) (hf : f.Rooted) (t : TermId) : g.rep (f.rep t) = g.rep t :=
  h.grows _ _ (Forest.rep_rep hf t)

/-- Doing nothing changes nothing. -/
theorem refl (f : Forest) : ChangesIn V n f f :=
  ⟨le_rfl, fun _ _ => id, fun _ _ => rfl, fun _ => id, fun _ _ _ hab _ => hab, fun _ => id,
    fun _ _ _ _ _ => rfl⟩

/-- Fewer old terms tell fewer changes. -/
theorem mono (h : ChangesIn V n f g) (hmn : m ≤ n) : ChangesIn V m f g :=
  { h with
    ways := fun a b ha => h.ways a b (Nat.lt_of_lt_of_le ha hmn)
    same := fun a ha => h.same a (Nat.lt_of_lt_of_le ha hmn) }

/-- A region is changed in turn. -/
theorem trans (hg : g.Rooted) (hfg : ChangesIn V n f g) (hgh : ChangesIn V n g h) :
    ChangesIn V n f h where
  size := hfg.size.trans hgh.size
  grows x y hxy := hgh.grows x y (hfg.grows x y hxy)
  rep t ht := by
    have hrep := hfg.rep t ht
    rw [← hrep] at ht
    rw [hgh.rep t ht, hrep]
  stays t ht := hgh.stays t (hfg.stays t ht)
  ways a b ha hab hb := hfg.ways a b ha (hgh.ways a b ha hab hb) hb
  ends t ht := hgh.ends t (hfg.ends t ht)
  same a ha hV hlink hnilable := by
    have hsame := hfg.same a ha hV hlink hnilable
    have hsame' := hgh.same a ha hV (hsame.isLink.trans hlink) (hsame.isNilable.trans hnilable)
    exact (hsame.later (hgh.rep_rep hg)).trans hsame'

/-- Looking classes up changes none. -/
theorem of_upkeeps (hf : f.Rooted) (hup : f.Upkeeps g) : ChangesIn V n f g where
  size := hup.size.ge
  grows x y hxy := by rw [(hup.steady hf).rep, (hup.steady hf).rep, hxy]
  rep t _ := (hup.steady hf).rep t
  stays t ht := by rwa [(hup.steady hf).rep]
  ways a b _ hab _ := hup.reaches hf hab
  ends t ht := hup.ends hf ht
  same a _ _ hlink hnilable := by
    rw [funext (hup.steady hf).rep]
    exact hup.same hf (calm_of_not_nilable hlink hnilable)

section Off

variable (hf : f.Rooted) (hregion : f.Region V) (hsaturated : ∀ t, V (f.rep t) → V t)
  (hg : g.Rooted) (hregion' : g.Region V) (hoff : ∀ t, ¬V t → g.kind t = f.kind t)

include hf hregion hg hoff in
/-- Terms of other classes are of the classes that they were of. -/
theorem rep_of_off (t : TermId) (ht : ¬V (f.rep t)) : g.rep t = f.rep t := by
  obtain ⟨rank, hrank⟩ := hf
  have hf : f.Rooted := ⟨rank, hrank⟩
  induction hn : rank t using Nat.strongRecOn generalizing t with
  | ind n ih =>
    have hVt : ¬V t := fun hV => ht (hregion.rep hV)
    have hkind := hoff t hVt
    cases hk : (f.kind t).isLink with
    | false => rw [rep_of_not_link hk, rep_of_not_link (by rw [hkind, hk])]
    | true =>
      obtain ⟨u, hu⟩ := Kind.isLink_eq_true.1 hk
      rw [rep_link hf hu] at ht ⊢
      rw [rep_link hg (hkind.trans hu)]
      exact ih (rank u) (hn ▸ (hrank t u hu).1) u ht rfl

include hf hregion hsaturated hg hregion' hoff in
/-- Nothing else is changed if terms of a region are that leads to no wrapper afterwards. -/
theorem of_off (hsize : f.size ≤ g.size) (hgrows : ∀ x y, f.rep x = f.rep y → g.rep x = g.rep y)
    (hplain : ∀ t, V (g.rep t) → (g.kind (g.rep t)).isNilable = false) : ChangesIn V n f g := by
  have hrep := rep_of_off hf hregion hg hoff
  have hstays : ∀ t, V (f.rep t) → V (g.rep t) := fun t ht => hregion'.rep (hsaturated t ht)
  refine ⟨hsize, hgrows, hrep, hstays, fun a b _ hab => ?_, fun t ht => ?_, fun a _ ha _ _ => ?_⟩
  · induction hab with
    | refl => exact fun _ => .refl
    | @tail c b _ hedge ih =>
      intro hb
      obtain ⟨slot, x, hx, rfl⟩ := hedge
      have hc : ¬V c := fun hc => hb (hregion'.rep (hregion'.child hc hx))
      rw [hoff c hc] at hx
      exact (ih hc).tail ⟨slot, x, hx, (hrep x fun hV => hb (hstays x hV)).symm⟩
  · induction ht with
    | @intro t _ ih =>
      refine .intro fun inner hinner => ?_
      by_cases hV : V (f.rep t)
      · have hnilable := hplain t (hstays t hV)
        rw [hinner] at hnilable
        cases hnilable
      · rw [hrep t hV, hoff _ hV] at hinner
        exact ih inner hinner
  · rw [hoff a ha]
    rfl

end Off

end ChangesIn

/-! ## Schemes that are instantiated -/

/-- A type scheme that neither pinned types nor a region lead to, which instances of it belong to. -/
structure Instantiable (f : Forest) (d : TermId) (pinned : List TermId) (V : TermId → Prop) : Prop where
  sound : f.Sound
  lt : d < f.size
  inRange : ∀ t ∈ pinned, t < f.size
  scheme : f.Scheme d
  apart : ∀ a, f.Reaches d a → ¬V a
  unreached : ∀ a, f.Reaches d a → ¬f.ReachedFrom pinned a
  /-- All terms of a class belong to the region if the class does. -/
  saturated : ∀ t, V (f.rep t) → V t

namespace Instantiable

variable {V : TermId → Prop} {pinned : List TermId} (hf : f.Instantiable d pinned V)

include hf

/-- A scheme is made of terms of the forest. -/
theorem lt_of_reaches (ha : f.Reaches d a) : a < f.size := ha.lt_size hf.sound hf.lt

/-- A new term may be left out of the region. -/
theorem without (hc : f.size ≤ c) : f.Instantiable d pinned fun t => V t ∧ t ≠ c :=
  { hf with
    apart := fun a ha h => hf.apart a ha h.1
    saturated := by
      rintro t ⟨ht, hne⟩
      refine ⟨hf.saturated t ht, ?_⟩
      rintro rfl
      exact hne (rep_of_size_le hc) }

section Changes

variable (hg : ChangesIn V f.size f g) (ha : f.Reaches d a)

include hg ha

/-- A class of the scheme is the same up to the terms that stand for its children. -/
theorem same : (f.kind a).Same g.rep (g.kind a) := by
  have hscheme := hf.scheme.reaches ha
  exact hg.same a (hf.lt_of_reaches ha) (hf.apart a ha) hscheme.isLink
    (Kind.isNilable_of_isSimple hscheme.isSimple)

/-- It is a class still. -/
theorem isClass : g.IsClass a :=
  ⟨Nat.lt_of_lt_of_le (hf.lt_of_reaches ha) hg.size,
    (hf.same hg ha).isLink.trans (hf.scheme.reaches ha).isLink⟩

/-- Children of a scheme are of the classes that they were. -/
theorem rep_child (hx : (f.kind a).child? slot = some x) : g.rep x = f.rep x :=
  hg.rep x (hf.apart _ (ha.tail ⟨slot, x, hx, rfl⟩))

/-- Its children are of the classes of former ones. -/
theorem child_of (hx : (g.kind a).child? slot = some x) :
    ∃ y, (f.kind a).child? slot = some y ∧ g.rep x = f.rep y := by
  have hchild := (hf.same hg ha).child? slot
  rw [hx, Option.map_some, eq_comm, Option.map_eq_some_iff] at hchild
  obtain ⟨y, hy, hxy⟩ := hchild
  exact ⟨y, hy, by rw [← hxy, hf.rep_child hg ha hy]⟩

/-- Its former children are of the classes of present ones. -/
theorem child_to (hy : (f.kind a).child? slot = some y) :
    ∃ x, (g.kind a).child? slot = some x ∧ g.rep x = f.rep y := by
  have hchild := (hf.same hg ha).child? slot
  rw [hy, Option.map_some, Option.map_eq_some_iff] at hchild
  obtain ⟨x, hx, hxy⟩ := hchild
  exact ⟨x, hx, by rw [hxy, hf.rep_child hg ha hy]⟩

/-- A scheme leads to nothing that it did not lead to. -/
theorem reaches (hb : g.Reaches a b) : f.Reaches a b := by
  induction hb with
  | refl => exact .refl
  | tail _ hedge ih =>
    obtain ⟨slot, x, hx, rfl⟩ := hedge
    obtain ⟨y, hy, hxy⟩ := hf.child_of hg (ha.trans ih) hx
    exact ih.tail ⟨slot, y, hy, hxy.symm⟩

private theorem eq_var (h : g.kind a = .var) : f.kind a = .var := by
  have hsame := (hf.same hg ha).isVar
  rw [h] at hsame
  exact Kind.isVar_iff.1 hsame.symm

/-- A variable of the scheme stays one. -/
theorem eq_var_of (h : f.kind a = .var) : g.kind a = .var :=
  Kind.isVar_iff.1 ((hf.same hg ha).isVar.trans (Kind.isVar_iff.2 h))

/-- Nothing of a scheme becomes generic. -/
theorem generic (h : g.Generic a) : f.Generic a := by
  obtain ⟨v, hreach, hvar⟩ := h
  have hreach' := hf.reaches hg ha hreach
  exact ⟨v, hreach', hf.eq_var hg (ha.trans hreach') hvar⟩

/-- A scheme stays one. -/
theorem scheme_of : g.Scheme a := by
  have hscheme := hf.scheme.reaches ha
  induction hscheme with
  | var h => exact .var (hf.eq_var_of hg ha h)
  | @base a flow h =>
    have hflow := (hf.same hg ha).baseFlow?
    rw [h] at hflow
    cases hk : g.kind a <;> rw [hk] at hflow <;> cases hflow
    exact .base hk
  | @function a h _ hapart ih =>
    have hstep : ∀ {y slot}, (f.kind a).child? slot = some y → f.Reaches d (f.rep y) := fun hy =>
      ha.tail ⟨_, _, hy, rfl⟩
    refine .function ((hf.same hg ha).isFunction.trans h) (fun slot x hx => ?_)
      fun slot slot' x x' c hne hx hx' hc hc' => ?_
    · obtain ⟨y, hy, hxy⟩ := hf.child_of hg ha hx
      rw [hxy]
      exact ih slot y hy (hstep hy)
    · obtain ⟨y, hy, hxy⟩ := hf.child_of hg ha hx
      obtain ⟨y', hy', hxy'⟩ := hf.child_of hg ha hx'
      rw [hxy] at hc
      rw [hxy'] at hc'
      have hreach := hf.reaches hg (hstep hy) hc
      rw [(hf.same hg ((hstep hy).trans hreach)).baseFlow?]
      exact hapart slot slot' y y' c hne hy hy' hreach (hf.reaches hg (hstep hy') hc')

/-- Pinned types do not lead to a scheme. -/
theorem unreached_of (hregion : g.Region V) : ¬g.ReachedFrom pinned a := by
  rintro ⟨t, ht, hreach⟩
  by_cases hV : V (f.rep t)
  · exact hf.apart a ha (hregion.reaches (hg.stays t hV) hreach)
  · rw [hg.rep t hV] at hreach
    have hlt := rep_lt_size hf.sound.rooted (hf.inRange t ht)
    exact hf.unreached a ha ⟨t, ht, hg.ways _ a hlt hreach (hf.apart a ha)⟩

end Changes

end Instantiable

end Forest

end TypeFlow
