import TypeFlow.Proofs.ConfinedUnifications
import TypeFlow.Proofs.MetPairs
import TypeFlow.Proofs.RepeatedInstantiations

/-!
# What the unification of two records makes of their fields

Two records are unified label by label.  An open record gains the fields that it lacks, a closed one
makes the other lose them, and in the end one of the two takes the other in.  Provided that the fields
do not lead back to the records, the record that results can be told from the two beforehand.

Main definitions:

- `Forest.LedTo`: the terms that a unification of given terms has to do with.
- `Unifier.Row`: a record whose fields lead to given classes.
- `Unifier.Rows`: two records that are being unified.

Main results:

- `Unifier.unifySlots_rows`: unifying the children of two records adds fields to the second.
- `Unifier.balanceLabels_rows`: settling their labels leaves the second the fields of both.
- `Forest.records_unified`: the fields, sites and marks of the record that two records become.
-/

namespace TypeFlow

/-- What is the same up to one map is the same up to a coarser one. -/
theorem map_eq_of_coarser {α β γ : Type} {g : α → β} {g' : α → γ}
    (hg : ∀ x y, g x = g y → g' x = g' y) {o o' : Option α} (h : o.map g = o'.map g) :
    o.map g' = o'.map g' := by
  cases o with
  | none => cases o' with
    | none => rfl
    | some y => cases h
  | some x => cases o' with
    | none => cases h
    | some y => exact congrArg some (hg x y (Option.some.inj h))

namespace Kind.Refreshed

variable {k k' : Kind} {r : TermId → TermId}

/-- A record stays one, but for the fields. -/
theorem record {fields : Fields TermId none} {sites : IdSet} {isOpen nil : Bool}
    (h : (Kind.record fields sites isOpen nil).Refreshed r k') :
    ∃ fields', k' = .record fields' sites isOpen nil := by
  induction h with
  | refl => exact ⟨fields, rfl⟩
  | tail _ hstep ih =>
    obtain ⟨fields', rfl⟩ := ih
    obtain ⟨slot, x, hx, rfl⟩ := hstep
    cases slot with
    | field l => exact ⟨_, rfl⟩
    | _ => cases hx

end Kind.Refreshed

namespace Forest

variable {f : Forest}

/-- One of the terms leads to the class of the term, or the term is still to come. -/
def LedTo (f : Forest) (ts : List TermId) (t : TermId) : Prop :=
  f.size ≤ t ∨ ∃ x ∈ ts, f.Reaches (f.rep x) (f.rep t)

/-- What some terms lead to is a region that the terms to come belong to. -/
theorem realm_ledTo (hf : f.Rooted) (ts : List TermId) : f.Realm (f.LedTo ts) where
  new _ ht := Or.inl ht
  region t ht y hy := by
    rcases ht with ht | ⟨x, hx, hreach⟩
    · rw [kind_of_size_le ht] at hy
      cases hy
    refine Or.inr ⟨x, hx, ?_⟩
    cases hk : (f.kind t).isLink with
    | false =>
      rw [rep_of_not_link hk] at hreach
      exact hreach.tail ((edge_iff hk).2 ⟨y, hy, rfl⟩)
    | true =>
      obtain ⟨u, hu⟩ := Kind.isLink_eq_true.1 hk
      rw [hu] at hy
      rw [rep_link hf hu] at hreach
      rwa [List.mem_singleton.1 hy]

/-- Changes outside of a realm leave it one. -/
theorem Realm.of_kind {g : Forest} {R : TermId → Prop} (h : f.Realm R)
    (hkind : ∀ t, R t → g.kind t = f.kind t) (hsize : g.size = f.size) : g.Realm R where
  region t ht x hx := h.region t ht x (hkind t ht ▸ hx)
  new t ht := h.new t (hsize ▸ ht)

end Forest

open Forest (IsClass Steady)

namespace Unifier

/-! ## Records of a given content -/

/-- What a record has besides its fields: allocation sites and whether it is open and may be nil. -/
structure Marks where
  sites : IdSet
  isOpen : Bool
  nil : Bool

/-- The record with these marks. -/
def Marks.kind (m : Marks) (fields : Fields TermId none) : Kind :=
  .record fields m.sites m.isOpen m.nil

/-- The marks of the record that two records become. -/
def Marks.join (m n : Marks) : Marks :=
  ⟨m.sites.union n.sites, m.isOpen && n.isOpen, m.nil || n.nil⟩

/-- Marks are joined in any order. -/
theorem Marks.join_comm (m n : Marks) : m.join n = n.join m := by
  rw [join, join, IdSet.union_comm, Bool.and_comm, Bool.or_comm]

/-- A record apart from a region that its fields lead to.  The content says for each label a term of
the class that the field leads to. -/
structure Row (R : TermId → Prop) (f : Forest) (x : TermId) (content : String → Option TermId)
    (marks : Marks) : Prop where
  apart : ¬R x
  record : ∃ fields, f.kind x = marks.kind fields
  field : ∀ l, ((f.kind x).child? (.field l)).map f.rep = (content l).map f.rep
  within : ∀ y ∈ (f.kind x).children, R y

variable {R : TermId → Prop} {a b x y : TermId} {s t u : Unifier} {r : Bool}
  {A B content : String → Option TermId} {ma mb marks : Marks}

namespace Row

private theorem isRecord {f : Forest} (h : Row R f x content marks) : (f.kind x).isRecord = true := by
  obtain ⟨fields, hk⟩ := h.record
  rw [hk]
  rfl

private theorem isClass {f : Forest} (h : Row R f x content marks) : f.IsClass x :=
  Forest.isClass_of_isRecord h.isRecord

private theorem isOpen {f : Forest} (h : Row R f x content marks) : (f.kind x).isOpen = marks.isOpen := by
  obtain ⟨fields, hk⟩ := h.record
  rw [hk]
  rfl

private theorem isError {f : Forest} (h : Row R f x content marks) : (f.kind x).isError = false := by
  obtain ⟨fields, hk⟩ := h.record
  rw [hk]
  rfl

/-- The content names a term exactly where the record has a field. -/
theorem isSome_field {f : Forest} (h : Row R f x content marks) (l : String) :
    ((f.kind x).child? (.field l)).isSome = (content l).isSome := by
  rw [← Option.isSome_map (f := f.rep), h.field, Option.isSome_map]

/-- A record that is not touched stays one of the same content, whatever is merged elsewhere. -/
theorem untouched {f g : Forest} (h : Row R f x content marks) (hkind : g.kind x = f.kind x)
    (hgrows : ∀ y z, f.rep y = f.rep z → g.rep y = g.rep z) : Row R g x content marks where
  apart := h.apart
  record := by rw [hkind]; exact h.record
  field l := by rw [hkind]; exact map_eq_of_coarser hgrows (h.field l)
  within := by rw [hkind]; exact h.within

/-- A record stays one of the same content when classes are looked up. -/
theorem looks (h : Row R s.forest x content marks) (hs : s.Sound) (hR : s.forest.Region R)
    (hlooks : Looks s u) : Row R u.forest x content marks := by
  have hrefreshed := (hlooks.calm hs (Forest.calm_of_isRecord h.isRecord)).1
  have hrep : u.forest.rep = s.forest.rep := funext (hlooks.steady hs).rep
  have hrooted := Forest.rep_rep hs.forest.rooted
  obtain ⟨fields, hk⟩ := h.record
  obtain ⟨fields', hk'⟩ := Kind.Refreshed.record (hk ▸ hrefreshed)
  refine ⟨h.apart, ⟨fields', hk'⟩, fun l => ?_, fun y hy => ?_⟩
  · rw [hrep, (hrefreshed.same hrooted).child?, h.field]
  · obtain ⟨slot, hslot⟩ := (Kind.mem_children (by rw [hk']; rfl)).1 hy
    obtain ⟨z, hz, rfl | rfl⟩ := hrefreshed.child? hrooted hslot
    · exact h.within _ (Kind.mem_children_of_child? hz)
    · exact hR.rep (h.within _ (Kind.mem_children_of_child? hz))

/-- What a field leads to belongs to the region. -/
theorem child_within (h : Row R s.forest x content marks) (hs : s.Sound)
    (hR : s.forest.Region R) {slot : Slot} {c : TermId}
    (hchild : child x slot s = some (some c, u)) : R c := by
  obtain ⟨z, hz, rfl⟩ := Option.map_eq_some_iff.1 (child_eq hs hchild).symm
  exact hR.rep (h.within z (Kind.mem_children_of_child? hz))

/-- A record gains a field that leads into the region. -/
theorem withField {f : Forest} (hf : f.Rooted) (h : Row R f x content marks) {label : String}
    {value y : TermId} (hvalue : R value) (hy : f.rep value = f.rep y) :
    Row R (f.withField x label value) x (Function.update content label (some y)) marks := by
  have hkind := f.kind_withField x label value x
  rw [if_pos rfl] at hkind
  have hrep : (f.withField x label value).rep = f.rep :=
    funext (Forest.withField_steady hf x label value).rep
  obtain ⟨fields, hk⟩ := h.record
  refine ⟨h.apart, ⟨fields.insert label (after_none label) value, by rw [hkind, hk]; rfl⟩,
    fun l => ?_, fun z hz => ?_⟩
  · have hfield := h.field l
    rw [hk] at hfield
    rw [hkind, hk, hrep]
    change ((fields.insert label (after_none label) value).find? l).map f.rep = _
    rw [Fields.find?_insert, Function.update_apply]
    by_cases e : label = l
    · rw [if_pos e, if_pos e.symm, Option.map_some, Option.map_some, hy]
    · rw [if_neg e, if_neg (Ne.symm e)]
      exact hfield
  · rw [hkind] at hz
    rcases Kind.mem_children_setChild hz with rfl | hz
    · exact hvalue
    · exact h.within z hz

/-- A record loses a field. -/
theorem erase {f : Forest} (hf : f.Rooted) (h : Row R f x content marks)
    {fields : Fields TermId none} (hk : f.kind x = marks.kind fields) (label : String) :
    Row R (f.setKind x (marks.kind (fields.erase label))) x (Function.update content label none)
      marks := by
  have hkind : (f.setKind x (marks.kind (fields.erase label))).kind x =
      marks.kind (fields.erase label) := by
    rw [Forest.kind_setKind, if_pos ⟨rfl, h.isClass.lt⟩]
  have hrefines : (f.kind x).Refines (marks.kind (fields.erase label)) :=
    hk ▸ Kind.refines_erase fields marks.sites marks.isOpen marks.nil label
  have hrep : (f.setKind x (marks.kind (fields.erase label))).rep = f.rep :=
    funext (Forest.refine_steady hf hrefines).rep
  refine ⟨h.apart, ⟨_, hkind⟩, fun l => ?_, fun z hz => ?_⟩
  · have hfield := h.field l
    rw [hk] at hfield
    rw [hkind, hrep]
    change ((fields.erase label).find? l).map f.rep = _
    rw [Fields.find?_erase, Function.update_apply]
    by_cases e : label = l
    · rw [if_pos e, if_pos e.symm]
    · rw [if_neg e, if_neg (Ne.symm e)]
      exact hfield
  · rw [hkind] at hz
    obtain ⟨l, hl⟩ := Fields.mem_values.1 hz
    refine h.within z ?_
    rw [hk]
    exact Fields.mem_values.2 ⟨l, Fields.find?_of_erase hl⟩

end Row

/-! ## Two records being unified -/

/-- Two records are being unified, and all other pairs met are merged. -/
structure Rows (R : TermId → Prop) (a b : TermId) (A B : String → Option TermId) (ma mb : Marks)
    (s : Unifier) : Prop where
  sound : s.Sound
  commits : s.work.isNone = false
  realm : s.forest.Realm R
  met : ∀ p ∈ s.met, p = (a, b) ∨ p = (b, a) ∨ s.forest.rep p.1 = s.forest.rep p.2
  ne : a ≠ b
  left : Row R s.forest a A ma
  right : Row R s.forest b B mb

namespace Rows

private theorem symm (h : Rows R a b A B ma mb s) : Rows R b a B A mb ma s where
  sound := h.sound
  commits := h.commits
  realm := h.realm
  met p hp := or_left_comm.1 (h.met p hp)
  ne := h.ne.symm
  left := h.right
  right := h.left

/-- What is done elsewhere leaves the records what they are. -/
theorem step {A' B' : String → Option TermId} (h : Rows R a b A B ma mb s) (hp : Proceeds s u)
    (hadvances : Advances s u) (hrealm : u.forest.Realm R) (hleft : Row R u.forest a A' ma)
    (hright : Row R u.forest b B' mb) : Rows R a b A' B' ma mb u where
  sound := hp.sound
  commits := hp.probe.trans h.commits
  realm := hrealm
  met p hp := by
    rcases hadvances.merged p hp with hp | hrep
    · exact (h.met p hp).imp_right (Or.imp_right (hadvances.rep _ _))
    · exact Or.inr (Or.inr hrep)
  ne := h.ne
  left := hleft
  right := hright

private theorem looks (h : Rows R a b A B ma mb s) (hlooks : Looks s u) :
    Rows R a b A B ma mb u ∧ Advances s u := by
  have hadvances := hlooks.advances h.sound
  have hregion := hlooks.upkeeps.region h.sound.forest.rooted h.realm.region
  refine ⟨h.step (hlooks.proceeds h.sound) hadvances ⟨hregion, fun t ht => h.realm.new t ?_⟩
    (h.left.looks h.sound h.realm.region hlooks) (h.right.looks h.sound h.realm.region hlooks),
    hadvances⟩
  rwa [← hlooks.upkeeps.size]

/-- Two terms that fields lead to are unified. -/
theorem unify {depth : Nat} {c d : TermId} (h : Rows R a b A B ma mb s) (hc : R c) (hd : R d)
    (hclt : c < s.forest.size) (hdlt : d < s.forest.size)
    (hrun : unifyWithin depth c d s = some (r, u)) :
    Rows R a b A B ma mb u ∧ Advances s u ∧ u.forest.rep c = u.forest.rep d := by
  obtain ⟨hp, hjoined⟩ := unifyWithin_proceeds h.sound hclt hdlt hrun
  have hadvances := unifyWithin_advances depth _ _ _ _ _ h.sound h.commits hclt hdlt hrun
  obtain ⟨hacts, -⟩ := acts_unifyWithin depth hc hd s r u h.realm hrun
  refine ⟨h.step hp hadvances hacts.realm (h.left.untouched ?_ hadvances.rep)
    (h.right.untouched ?_ hadvances.rep), hadvances, ?_⟩
  · exact Forest.kind_congr (hacts.off a h.left.apart)
  · exact Forest.kind_congr (hacts.off b h.right.apart)
  · rcases hjoined h.commits with hrep | hmet
    · exact hrep
    · -- The pair is not that of the records, to which no field leads.
      have hRc := h.realm.region.rep hc
      rcases h.met _ hmet with e | e | hrep
      · rw [(Prod.mk.inj e).1] at hRc
        exact absurd hRc h.left.apart
      · rw [(Prod.mk.inj e).1] at hRc
        exact absurd hRc h.right.apart
      · rw [Forest.rep_rep h.sound.forest.rooted, Forest.rep_rep h.sound.forest.rooted] at hrep
        exact hadvances.rep _ _ hrep

/-- The second record gains a field. -/
theorem gain_right {label : String} {value : TermId} (h : Rows R a b A B ma mb s) (hvalue : R value)
    (hlt : value < s.forest.size) (hy : s.forest.rep value = s.forest.rep y)
    (hadd : addField b label value s = some (r, u)) :
    Rows R a b A (Function.update B label (some y)) ma mb u ∧ Advances s u := by
  have hp := (addField_proceeds h.sound h.commits hlt hadd).1
  have hadvances := Advances.of_edits h.sound hp (edits_sameMet.addField _ _ _) hadd
  cases (addField_record h.right.isRecord).symm.trans hadd
  have hkind : ∀ t, t ≠ b → (s.forest.withField b label value).kind t = s.forest.kind t :=
    fun t ht => by rw [Forest.kind_withField, if_neg ht.symm]
  refine ⟨h.step hp hadvances (h.realm.of_kind (fun t ht => hkind t fun e => ?_)
    (Forest.size_withField _ _ _ _)) (h.left.untouched (hkind a h.ne) hadvances.rep)
    (h.right.withField h.sound.forest.rooted hvalue hy), hadvances⟩
  exact h.right.apart (e ▸ ht)

/-- So does the first. -/
theorem gain_left {label : String} {value : TermId} (h : Rows R a b A B ma mb s) (hvalue : R value)
    (hlt : value < s.forest.size) (hy : s.forest.rep value = s.forest.rep y)
    (hadd : addField a label value s = some (r, u)) :
    Rows R a b (Function.update A label (some y)) B ma mb u ∧ Advances s u :=
  (h.symm.gain_right hvalue hlt hy hadd).imp_left symm

/-- The second record loses a field, if it has one of that label. -/
theorem lose {label : String} (h : Rows R a b A B ma mb s)
    (hdrop : dropField b label s = some (r, u)) :
    Rows R a b A (Function.update B label none) ma mb u ∧ Advances s u := by
  have hp := (dropField_proceeds h.sound h.commits hdrop).1
  have hadvances := Advances.of_edits h.sound hp (edits_sameMet.dropField _ _) hdrop
  cases hchild : (s.forest.kind b).child? (.field label) with
  | none =>
    have hnone : B label = none := by
      rw [← Option.isNone_iff_eq_none, ← Option.not_isSome, ← h.right.isSome_field, hchild]
      rfl
    cases (dropField_of_none hchild).symm.trans hdrop
    rw [← hnone, Function.update_eq_self]
    exact ⟨h.step hp hadvances h.realm h.left h.right, hadvances⟩
  | some z =>
    obtain ⟨fields, hk⟩ := h.right.record
    have hsome : (fields.find? label).isSome = true := by
      rw [hk] at hchild
      exact Option.isSome_iff_exists.2 ⟨z, hchild⟩
    cases (dropField_record hk hsome).symm.trans hdrop
    have hkind : ∀ t, t ≠ b → (s.forest.setKind b (mb.kind (fields.erase label))).kind t =
        s.forest.kind t := fun t ht => by rw [Forest.kind_setKind, if_neg fun e => ht e.1.symm]
    refine ⟨h.step hp hadvances (h.realm.of_kind (fun t ht => hkind t fun e => ?_)
      (Forest.size_setKind _ _ _)) (h.left.untouched (hkind a h.ne) hadvances.rep)
      (h.right.erase h.sound.forest.rooted hk label), hadvances⟩
    exact h.right.apart (e ▸ ht)

end Rows

/-! ## Fields of the first record -/

/-- What a record has when it also has, if it is open, what another has under some labels. -/
def lent (isOpen : Bool) (labels : List String) (A B : String → Option TermId) :
    String → Option TermId :=
  fun l => (B l).or (if isOpen = true ∧ l ∈ labels then A l else none)

private theorem lent_nil (isOpen : Bool) (A B : String → Option TermId) : lent isOpen [] A B = B := by
  funext l
  simp [lent]

private theorem lent_cons (isOpen : Bool) (label : String) (rest : List String)
    (A B : String → Option TermId) :
    lent isOpen rest A (lent isOpen [label] A B) = lent isOpen (label :: rest) A B := by
  funext l
  by_cases e : l = label
  · subst e
    cases isOpen <;> cases hB : B l <;> cases hA : A l <;> simp [lent, hA, hB]
  · simp [lent, e]

/-- Nothing is lent where it is not needed, not there, or not taken. -/
theorem lent_same {isOpen : Bool} {label : String}
    (h : (B label).isSome = true ∨ A label = none ∨ isOpen = false) :
    lent isOpen [label] A B = B := by
  funext l
  by_cases e : l = label
  · subst e
    rcases h with h | h | h
    · obtain ⟨y, hy⟩ := Option.isSome_iff_exists.1 h
      simp [lent, hy]
    · simp [lent, h]
    · simp [lent, h]
  · simp [lent, e]

private theorem lent_new {label : String} (hB : B label = none) :
    lent true [label] A B = Function.update B label (A label) := by
  funext l
  rw [Function.update_apply]
  by_cases e : l = label
  · subst e
    simp [lent, hB]
  · simp [lent, e]

section Unify

variable {depth : Nat}

/-- What one label of the first record does to the second. -/
theorem SlotStep.rows {label : String} {lhs : TermId} {rhs? : Option TermId} {changed : Bool}
    (h : Rows R a b A B ma mb s) (hlhs : s.forest.IsClass lhs) (hR : R lhs)
    (hx : A label = some x) (hxl : s.forest.rep x = lhs)
    (hrhs : rhs? = (B label).map s.forest.rep) (hRr : ∀ rhs, rhs? = some rhs → R rhs)
    (hrlt : ∀ rhs, rhs? = some rhs → rhs < s.forest.size)
    (hstep : SlotStep (unifyWithin depth) (.field label) b lhs rhs? changed s u) :
    Rows R a b A (lent mb.isOpen [label] A B) ma mb u ∧ Advances s u ∧
      ∀ y, B label = some y → u.forest.rep x = u.forest.rep y := by
  have hrooted := h.sound.forest.rooted
  cases hstep with
  | @unified rhs hr hrun =>
    obtain ⟨hrows, hadvances, hrep⟩ := h.unify hR (hRr rhs hr) hlhs.lt (hrlt rhs hr) hrun
    have hsome : (B label).isSome = true := by
      rw [← Option.isSome_map, ← hrhs, hr]
      rfl
    refine ⟨(lent_same (Or.inl hsome)).symm ▸ hrows, hadvances, fun y hy => ?_⟩
    rw [hr, hy] at hrhs
    rw [← hadvances.rep_rep hrooted x, ← hadvances.rep_rep hrooted y, hxl, hrep,
      Option.some.inj hrhs]
  | @added label' hr hslot hopen hadd =>
    cases hslot
    have hnone : B label = none := by
      rw [hr] at hrhs
      exact Option.map_eq_none_iff.1 hrhs.symm
    rw [h.right.isOpen] at hopen
    obtain ⟨hrows, hadvances⟩ := h.gain_right hR hlhs.lt (y := x) (by rw [← hxl,
      Forest.rep_rep hrooted]) hadd
    rw [hopen, lent_new hnone, hx]
    exact ⟨hrows, hadvances, fun y hy => by rw [hnone] at hy; cases hy⟩
  | kept hr hclosed hchanged hu =>
    subst hu
    have hnone : B label = none := by
      rw [hr] at hrhs
      exact Option.map_eq_none_iff.1 hrhs.symm
    have hopen := hclosed label rfl
    rw [h.right.isOpen] at hopen
    rw [lent_same (Or.inr (Or.inr hopen))]
    exact ⟨h, .refl s, fun y hy => by rw [hnone] at hy; cases hy⟩

/-- When the children of two records are unified, the second gets from the first what it lacks, if it is
open, and what both have is merged. -/
theorem unifySlots_rows {labels : List String} {progress : Bool} {result : TermId × TermId × Bool}
    (h : Rows R a b A B ma mb s)
    (hrun : unifySlots (unifyWithin depth) (labels.map .field) a b progress s = some (result, u)) :
    (result.1 = a ∧ result.2.1 = b) ∧ Rows R a b A (lent mb.isOpen labels A B) ma mb u ∧
      Advances s u ∧ ∀ l ∈ labels, ∀ x y, A l = some x → B l = some y →
        u.forest.rep x = u.forest.rep y := by
  induction labels generalizing B progress s with
  | nil =>
    obtain ⟨rfl, rfl⟩ := pure_eq_some.1 hrun
    rw [lent_nil]
    exact ⟨⟨rfl, rfl⟩, h, .refl s, fun l hl => absurd hl List.not_mem_nil⟩
  | cons label rest ih =>
    rcases unifySlots_cons hrun with ⟨s₁, hchild, hrun⟩ | ⟨lhs, s₁, rhs?, s₂, changed, s₃, this', s₄,
      that', s₅, hchild, hchild', hstep, hfind, hfind', hrun⟩
    · obtain ⟨h₁, hadv₁⟩ := h.looks (child_looks h.sound hchild).1
      have hnone := child_eq h.sound hchild
      rw [h.left.field, eq_comm, Option.map_eq_none_iff] at hnone
      obtain ⟨hresult, hu, hadv, hmerged⟩ := ih h₁ hrun
      rw [← lent_cons, lent_same (Or.inr (Or.inl hnone))]
      refine ⟨hresult, hu, hadv₁.trans hadv, fun l hl x y hx hy => ?_⟩
      rcases List.mem_cons.1 hl with rfl | hl
      · rw [hnone] at hx
        cases hx
      · exact hmerged l hl x y hx hy
    obtain ⟨hlooks₁, hlhs⟩ := child_looks h.sound hchild
    obtain ⟨h₁, hadv₁⟩ := h.looks hlooks₁
    obtain ⟨hlooks₂, hrhs⟩ := child_looks h₁.sound hchild'
    obtain ⟨h₂, hadv₂⟩ := h₁.looks hlooks₂
    have hrep₂ := ((hlooks₁.trans hlooks₂).steady h.sound).rep
    have hlhs' := child_eq h.sound hchild
    rw [h.left.field] at hlhs'
    obtain ⟨x, hx, hxl⟩ := Option.map_eq_some_iff.1 hlhs'.symm
    have hrhs' := child_eq h₁.sound hchild'
    rw [h₁.right.field, ← funext (hlooks₂.steady h₁.sound).rep] at hrhs'
    obtain ⟨h₃, hadv₃, hmerged₃⟩ := hstep.rows h₂
      ((hlhs lhs rfl).of_steady (hlooks₂.steady h₁.sound))
      (h.left.child_within h.sound h.realm.region hchild) hx (by rw [hrep₂, hxl]) hrhs'
      (fun rhs e => h₁.right.child_within h₁.sound h₁.realm.region (e ▸ hchild'))
      (fun rhs e => (hrhs rhs e).lt)
    -- Neither record was merged with anything, so both are found again.
    obtain ⟨hlooks₅, -, ⟨hthis, hthat⟩, -⟩ :=
      find_both h₃.sound h₃.left.isClass.lt h₃.right.isClass.lt hfind hfind'
    obtain rfl : a = this' := by rw [hthis, h₃.left.isClass.rep_eq]
    obtain rfl : b = that' := by rw [hthat, h₃.right.isClass.rep_eq]
    obtain ⟨h₅, hadv₅⟩ := h₃.looks hlooks₅
    have hadv := ((hadv₁.trans hadv₂).trans hadv₃).trans hadv₅
    rcases hrun with ⟨herror, -⟩ | hrun
    · rw [h₅.left.isError, h₅.right.isError] at herror
      cases herror
    obtain ⟨hresult, hu, hadv', hmerged⟩ := ih h₅ hrun
    rw [lent_cons] at hu
    refine ⟨hresult, hu, hadv.trans hadv', fun l hl x' y hx' hy => ?_⟩
    by_cases e : l = label
    · subst e
      cases hx.symm.trans hx'
      exact (hadv₅.trans hadv').rep _ _ (hmerged₃ y hy)
    · refine hmerged l ((List.mem_cons.1 hl).resolve_left e) x' y hx' ?_
      simp [lent, hy]

end Unify

/-! ## Labels of the second record -/

/-- What a record keeps if a closed record makes it lose what that lacks under some labels. -/
def spared (isOpen : Bool) (labels : List String) (A B : String → Option TermId) :
    String → Option TermId :=
  fun l => if isOpen = false ∧ l ∈ labels ∧ A l = none then none else B l

private theorem spared_nil (isOpen : Bool) (A B : String → Option TermId) : spared isOpen [] A B = B := by
  funext l
  simp [spared]

private theorem spared_open (labels : List String) (A B : String → Option TermId) :
    spared true labels A B = B := by
  funext l
  simp [spared]

private theorem spared_shared {isOpen : Bool} {label : String} (rest : List String)
    (h : (A label).isSome = true) : spared isOpen (label :: rest) A B = spared isOpen rest A B := by
  funext l
  by_cases e : l = label
  · subst e
    obtain ⟨x, hx⟩ := Option.isSome_iff_exists.1 h
    simp [spared, hx]
  · simp [spared, e]

private theorem spared_lost {label : String} (rest : List String) (h : A label = none) :
    spared false (label :: rest) A B = spared false rest A (Function.update B label none) := by
  funext l
  by_cases e : l = label
  · subst e
    simp [spared, h]
  · simp [spared, e]

/-- When the labels of two records are settled, the second loses what the first lacks, unless the first
is open. -/
theorem balanceLabels_rows {labels : List String} {progress : Bool} (h : Rows R a b A B ma mb s)
    (hrun : balanceLabels a b labels progress s = some (r, u)) :
    ∃ A', Rows R a b A' (spared ma.isOpen labels A B) ma mb u ∧ Advances s u := by
  induction labels generalizing A B progress s with
  | nil =>
    obtain ⟨-, rfl⟩ := pure_eq_some.1 hrun
    exact ⟨A, by rwa [spared_nil], .refl s⟩
  | cons label rest ih =>
    replace hrun := of_bind_view hrun
    rw [h.left.isSome_field] at hrun
    rcases ite_eq_some.1 hrun with ⟨hshared, hrun⟩ | ⟨hlacks, hrun⟩
    · rw [spared_shared rest hshared]
      exact ih h hrun
    have hnone := Option.not_isSome_iff_eq_none.1 hlacks
    replace hrun := of_bind_view hrun
    rw [h.left.isOpen] at hrun
    rcases ite_eq_some.1 hrun with ⟨hopen, hrun⟩ | ⟨hclosed, hrun⟩
    · obtain ⟨rhs?, s₁, hchild, hrun⟩ := bind_eq_some.1 hrun
      obtain ⟨hlooks, hrhs⟩ := child_looks h.sound hchild
      obtain ⟨h₁, hadv₁⟩ := h.looks hlooks
      rw [hopen, spared_open]
      cases rhs? with
      | none =>
        obtain ⟨changed, s₂, hpure, hrun⟩ := bind_eq_some.1 hrun
        obtain ⟨rfl, rfl⟩ := pure_eq_some.1 hpure
        obtain ⟨A', hu, hadv⟩ := ih h₁ hrun
        rw [hopen, spared_open] at hu
        exact ⟨A', hu, hadv₁.trans hadv⟩
      | some rhs =>
        obtain ⟨changed, s₂, hadd, hrun⟩ := bind_eq_some.1 hrun
        obtain ⟨h₂, hadv₂⟩ := h₁.gain_left
          (h.right.child_within h.sound h.realm.region hchild) (hrhs rhs rfl).lt rfl hadd
        obtain ⟨A', hu, hadv⟩ := ih h₂ hrun
        rw [hopen, spared_open] at hu
        exact ⟨A', hu, (hadv₁.trans hadv₂).trans hadv⟩
    · obtain ⟨changed, s₁, hdrop, hrun⟩ := bind_eq_some.1 hrun
      obtain ⟨h₁, hadv₁⟩ := h.lose hdrop
      obtain ⟨A', hu, hadv⟩ := ih h₁ hrun
      rw [Bool.not_eq_true] at hclosed
      rw [hclosed] at hu ⊢
      rw [spared_lost rest hnone]
      exact ⟨A', hu, hadv₁.trans hadv⟩

/-! ## The record that two records become -/

/-- The fields of the record that two records become: what both have, and what one has if the other is
open. -/
def joint (oa ob : Bool) (A B : String → Option TermId) (l : String) : Option TermId :=
  match A l, B l with
  | none, none => none
  | some x, none => if ob then some x else none
  | none, some y => if oa then some y else none
  | some _, some y => some y

private theorem spared_lent {oa ob : Bool} {labels labels' : List String}
    (hA : ∀ l, (A l).isSome = true → l ∈ labels)
    (hB : ∀ l, (lent ob labels A B l).isSome = true → l ∈ labels') :
    spared oa labels' A (lent ob labels A B) = joint oa ob A B := by
  funext l
  have hA := hA l
  have hB := hB l
  revert hA hB
  cases ob <;> cases oa <;> cases hx : A l <;> cases hy : B l <;>
    simp +contextual [spared, lent, joint, hx, hy]

/-- Two terms became a record of the given content. -/
structure Became (f : Forest) (a b : TermId) (content : String → Option TermId) (marks : Marks) :
    Prop where
  rep : f.rep a = f.rep b
  record : ∃ fields, f.kind (f.rep a) = marks.kind fields
  field : ∀ l, ((f.kind (f.rep a)).child? (.field l)).map f.rep = (content l).map f.rep

private theorem Became.symm {f : Forest} (h : Became f a b content marks) : Became f b a content marks where
  rep := h.rep.symm
  record := h.rep ▸ h.record
  field := h.rep ▸ h.field

/-- Of two records that are merged the second takes the first in. -/
theorem merge_records (hs : s.Sound) (hwork : s.work.isNone = false) (hne : a ≠ b)
    (ha : Row R s.forest a A ma) (hb : Row R s.forest b B mb)
    (hrun : merge a b s = some (r, u)) : Became u.forest a b B (ma.join mb) ∧
      ∀ x y, s.forest.rep x = s.forest.rep y → u.forest.rep x = u.forest.rep y := by
  obtain ⟨fields, hka⟩ := ha.record
  obtain ⟨fields', hkb⟩ := hb.record
  have hmerged : mergedKind (s.forest.kind a) (s.forest.kind b) =
      some ((ma.join mb).kind fields') := by
    rw [hka, hkb]
    rfl
  obtain ⟨hrefines, -⟩ := mergedKind_refines ha.isClass.root hb.isClass.root
    (fun hvar => by rw [hkb] at hvar; cases hvar) (fun n m hn => by rw [hka] at hn; cases hn) hmerged
  have hsteady := Forest.refine_steady hs.forest.rooted hrefines
  unfold merge at hrun
  rw [if_neg hne] at hrun
  obtain ⟨probing, s₁, hprobe, hrun⟩ := bind_eq_some.1 hrun
  obtain ⟨rfl, rfl⟩ := isProbe_eq_some.1 hprobe
  rw [hwork, if_neg Bool.false_ne_true] at hrun
  replace hrun := of_bind_view hrun
  rw [hb.isError, if_neg Bool.false_ne_true] at hrun
  replace hrun := of_bind_view hrun
  simp only [hmerged] at hrun
  obtain ⟨v, s₁, hset, hrun⟩ := bind_eq_some.1 hrun
  obtain rfl := change_eq_some.1 hset
  have hmerges := settle_merges (hs.change (.refine hrefines)) hwork (ha.isClass.of_steady hsteady)
    (hb.isClass.of_steady hsteady) hne hrun
  have hrep : ∀ x, u.forest.rep x = if s.forest.rep x = a then b else s.forest.rep x := fun x => by
    rw [hmerges.rep, hsteady.rep]
  have hgrows : ∀ x y, s.forest.rep x = s.forest.rep y → u.forest.rep x = u.forest.rep y :=
    fun x y hxy => by rw [hrep, hrep, hxy]
  have hrepa : u.forest.rep a = b := by rw [hrep, ha.isClass.rep_eq, if_pos rfl]
  have hrepb : u.forest.rep b = b := by rw [hrep, hb.isClass.rep_eq, if_neg hne.symm]
  have hset : (s.forest.setKind b ((ma.join mb).kind fields')).kind b = (ma.join mb).kind fields' := by
    rw [Forest.kind_setKind, if_pos ⟨rfl, hb.isClass.lt⟩]
  have hkind : u.forest.kind b = (ma.join mb).kind fields' := by
    rcases hmerges.kind b hne.symm with e | e <;> rw [e, hset]
    rfl
  refine ⟨⟨by rw [hrepa, hrepb], ⟨fields', by rw [hrepa, hkind]⟩, fun l => ?_⟩, hgrows⟩
  have hfield := map_eq_of_coarser hgrows (hb.field l)
  rw [hkb] at hfield
  rw [hrepa, hkind]
  exact hfield

section Unify

variable {depth : Nat}

/-- What becomes of two records whose children are unified. -/
theorem unifyChildren_rows (h : Rows R a b A B ma mb s)
    (hrun : unifyChildren (unifyWithin depth) a b s = some (r, u)) :
    Became u.forest a b (joint ma.isOpen mb.isOpen A B) (ma.join mb) ∧
      ∀ l x y, A l = some x → B l = some y → u.forest.rep x = u.forest.rep y := by
  replace hrun := of_bind_view hrun
  obtain ⟨⟨this, that, progress⟩, s₁, hslots, hrun⟩ := bind_eq_some.1 hrun
  obtain ⟨fields, hk⟩ := h.left.record
  rw [hk] at hslots
  obtain ⟨⟨hthis, hthat⟩, h₁, hadv₁, hmerged⟩ := unifySlots_rows h hslots
  obtain rfl : a = this := hthis.symm
  obtain rfl : b = that := hthat.symm
  replace hrun := of_bind_view hrun
  replace hrun := of_bind_view hrun
  rw [h₁.left.isError, h₁.right.isError, Bool.or_false, if_neg Bool.false_ne_true] at hrun
  replace hrun := of_bind_view hrun
  obtain ⟨progress', s₂, hbalance, hrun⟩ := bind_eq_some.1 hrun
  obtain ⟨A', h₂, hadv₂⟩ := balanceLabels_rows h₁ hbalance
  replace hrun := of_bind_view hrun
  replace hrun := of_bind_view hrun
  rw [h₂.left.isError, Bool.false_and, if_neg Bool.false_ne_true] at hrun
  obtain ⟨merged, s₃, hmerge, hrun⟩ := bind_eq_some.1 hrun
  obtain ⟨-, rfl⟩ := pure_eq_some.1 hrun
  obtain ⟨hbecame, hgrows⟩ := merge_records h₂.sound h₂.commits h₂.ne h₂.left h₂.right hmerge
  have hlabels : ∀ l, (A l).isSome = true → l ∈ fields.labels := by
    intro l hl
    rw [← h.left.isSome_field, hk] at hl
    exact Fields.mem_labels.2 hl
  rw [spared_lent hlabels] at hbecame
  · refine ⟨hbecame, fun l x y hx hy => ?_⟩
    exact hgrows _ _ (hadv₂.rep _ _ (hmerged l (hlabels l (by rw [hx]; rfl)) x y hx hy))
  · intro l hl
    rw [← h₁.right.isSome_field] at hl
    obtain ⟨fields', hk'⟩ := h₁.right.record
    rw [hk'] at hl ⊢
    exact Fields.mem_labels.2 hl

/-- What becomes of two records that are unified before any other pair is met. -/
theorem unifyStep_rows (h : Rows R a b A B ma mb s) (hmet : s.met = [])
    (hrun : unifyStep (unifyWithin depth) a b s = some (r, u)) :
    Became u.forest a b (joint ma.isOpen mb.isOpen A B) (ma.join mb) ∧
      ∀ l x y, A l = some x → B l = some y → u.forest.rep x = u.forest.rep y := by
  obtain ⟨ra, s₁, rb, s₂, hfind, hfind', hlayer⟩ := unifyStep_layer hrun
  obtain ⟨hlooks, -, ⟨hra, hrb⟩, -⟩ :=
    find_both h.sound h.left.isClass.lt h.right.isClass.lt hfind hfind'
  obtain rfl : a = ra := by rw [hra, h.left.isClass.rep_eq]
  obtain rfl : b = rb := by rw [hrb, h.right.isClass.rep_eq]
  obtain ⟨h₂, -⟩ := h.looks hlooks
  have hmet₂ : s₂.met = [] := hlooks.met.trans hmet
  obtain ⟨fields, hk⟩ := h₂.left.record
  obtain ⟨fields', hk'⟩ := h₂.right.record
  cases hlayer with
  | same heq => exact absurd heq h.ne
  | leaves hne hslots hslots' hmerge =>
    -- Neither has a field, so it does not matter which takes the other in.
    have hnone : ∀ {x content marks}, Row R s₂.forest x content marks →
        (s₂.forest.kind x).slots.isEmpty = true → content = fun _ => none := by
      intro x content marks hrow hslots
      funext l
      rw [← Option.not_isSome_iff_eq_none, ← hrow.isSome_field, ← Kind.mem_slots,
        List.isEmpty_iff.1 hslots]
      exact List.not_mem_nil
    obtain rfl := hnone h₂.left hslots
    obtain rfl := hnone h₂.right hslots'
    refine ⟨?_, fun l x y hx => by cases hx⟩
    rcases ranked_cases a b (s₂.forest.kind a) (s₂.forest.kind b) with hr | hr <;> rw [hr] at hmerge
    · exact (merge_records h₂.sound h₂.commits h.ne h₂.left h₂.right hmerge).1
    · rw [Marks.join_comm]
      exact (merge_records h₂.sound h₂.commits h.ne.symm h₂.right h₂.left hmerge).1.symm
  | joined hne hpair hcase =>
    rcases hpair with ⟨rfl, rfl⟩ | ⟨rfl, rfl⟩ <;> rw [hk, hk'] at hcase <;>
      rcases hcase with hcase | hcase <;> cases hcase
  | wrapped hne hpair hnilable =>
    rcases hpair with ⟨rfl, rfl⟩ | ⟨rfl, rfl⟩
    · rw [hk] at hnilable
      cases hnilable
    · rw [hk'] at hnilable
      cases hnilable
  | met hne hmet' =>
    rw [hmet₂] at hmet'
    cases hmet'
  | probed hne hwork =>
    rw [h₂.commits] at hwork
    cases hwork
  | clashed hne hwork hvar hvar' hshape =>
    rw [hk, hk'] at hshape
    exact absurd rfl hshape
  | paired hne hwork hnew hvar hvar' hshape hchildren =>
    refine unifyChildren_rows (s := { s₂ with met := (a, b) :: s₂.met })
      ⟨⟨h₂.sound.forest, h₂.sound.image⟩, h₂.commits, h₂.realm, ?_, h.ne, h₂.left, h₂.right⟩ hchildren
    intro p hp
    rw [hmet₂] at hp
    exact Or.inl (List.mem_singleton.1 hp)

/-- What becomes of two records that are unified. -/
theorem unify_rows (h : Rows R a b A B ma mb s) (hrun : unify depth a b s = some (r, u)) :
    Became u.forest a b (joint ma.isOpen mb.isOpen A B) (ma.join mb) ∧
      ∀ l x y, A l = some x → B l = some y → u.forest.rep x = u.forest.rep y := by
  obtain ⟨ra, s₁, hfind, hrun⟩ := bind_eq_some.1 hrun
  obtain ⟨rb, s₂, hfind', hrun⟩ := bind_eq_some.1 hrun
  obtain ⟨hlooks, -, ⟨hra, hrb⟩, -⟩ :=
    find_both h.sound h.left.isClass.lt h.right.isClass.lt hfind hfind'
  obtain rfl : a = ra := by rw [hra, h.left.isClass.rep_eq]
  obtain rfl : b = rb := by rw [hrb, h.right.isClass.rep_eq]
  obtain ⟨h₂, -⟩ := h.looks hlooks
  rcases ite_eq_some.1 hrun with ⟨heq, -⟩ | ⟨-, hrun⟩
  · exact absurd heq h.ne
  obtain ⟨v, s₃, hmodify, hrun⟩ := bind_eq_some.1 hrun
  obtain rfl := modify_eq_some.1 hmodify
  cases depth with
  | zero => exact (failure_eq_some.1 hrun).elim
  | succ depth =>
    exact unifyStep_rows (s := { s₂ with met := [] }) ⟨⟨h₂.sound.forest, h₂.sound.image⟩, h₂.commits,
      h₂.realm, fun p hp => absurd hp List.not_mem_nil, h.ne, h₂.left, h₂.right⟩ rfl hrun

end Unify

end Unifier

namespace Forest

open Unifier (Call Marks Row Rows joint)

variable {f : Forest} {a b : TermId}

/-- A record that is not led to by any of the terms is apart from what they lead to. -/
theorem row_ledTo {x : TermId} {ts : List TermId} {fields : Fields TermId none} {marks : Marks}
    (hk : f.kind x = marks.kind fields) (hfields : ∀ y ∈ fields.values, y ∈ ts)
    (hapart : ∀ y ∈ ts, ¬f.Reaches (f.rep y) x) :
    Row (f.LedTo ts) f x fields.find? marks where
  apart := by
    have hx : f.IsClass x := isClass_of_isRecord (by rw [hk]; rfl)
    rintro (hle | ⟨y, hy, hreach⟩)
    · exact absurd hx.lt (Nat.not_lt.2 hle)
    · rw [hx.rep_eq] at hreach
      exact hapart y hy hreach
  record := ⟨fields, hk⟩
  field l := by
    rw [hk]
    rfl
  within y hy := by
    rw [hk] at hy
    exact Or.inr ⟨y, hfields y hy, .refl⟩

/-- Whether the record that two records become has a label: if both are open it has the labels of
either, if one is closed those of the closed one, and if both are closed those of both. -/
def Retains (oa ob : Bool) (left right : Prop) : Prop :=
  match oa, ob with
  | true, true => left ∨ right
  | false, true => left
  | true, false => right
  | false, false => left ∧ right

private theorem isSome_joint {oa ob : Bool} {A B : String → Option TermId} {l : String} :
    (joint oa ob A B l).isSome = true ↔ Retains oa ob ((A l).isSome = true) ((B l).isSome = true) := by
  cases oa <;> cases ob <;> cases hx : A l <;> cases hy : B l <;> simp [joint, Retains, hx, hy]

/-- A field that two records share is given by a term of either class. -/
theorem joint_of_left {oa ob : Bool} {A B : String → Option TermId} {l : String} {x z : TermId}
    (hx : A l = some x) (hz : joint oa ob A B l = some z) : z = x ∨ B l = some z := by
  unfold joint at hz
  rw [hx] at hz
  cases hy : B l with
  | none =>
    rw [hy] at hz
    cases ob <;> cases hz
    exact Or.inl rfl
  | some y =>
    rw [hy] at hz
    exact Or.inr hz

private theorem joint_of_right {oa ob : Bool} {A B : String → Option TermId} {l : String} {y z : TermId}
    (hy : B l = some y) (hz : joint oa ob A B l = some z) : z = y := by
  unfold joint at hz
  rw [hy] at hz
  cases hx : A l with
  | none =>
    rw [hx] at hz
    cases oa <;> cases hz
    rfl
  | some x =>
    rw [hx] at hz
    exact (Option.some.inj hz).symm

private theorem retains_comm {oa ob : Bool} {p q : Prop} : Retains oa ob p q ↔ Retains ob oa q p := by
  cases oa <;> cases ob <;> simp only [Retains, and_comm, or_comm]

private theorem rows_start {fa fb : Fields TermId none} {ma mb : Marks} (hf : f.Sound) (hne : a ≠ b)
    (ha : f.kind a = ma.kind fa) (hb : f.kind b = mb.kind fb)
    (hapart : ∀ x ∈ fa.values ++ fb.values, ¬f.Reaches (f.rep x) a ∧ ¬f.Reaches (f.rep x) b)
    (work : Worklist) : Rows (f.LedTo (fa.values ++ fb.values)) a b fa.find? fb.find? ma mb
      (Call.start f (some work)) where
  sound := Call.sound_start hf _
  commits := rfl
  realm := realm_ledTo hf.rooted _
  met _ hp := absurd hp List.not_mem_nil
  ne := hne
  left := row_ledTo ha (fun _ => List.mem_append_left _) fun y hy => (hapart y hy).1
  right := row_ledTo hb (fun _ => List.mem_append_right _) fun y hy => (hapart y hy).2

/-- The record that two records became has the labels that it is to have, and its fields lead to the
classes that theirs led to. -/
theorem fields_of_became {g : Forest} {fa fb : Fields TermId none} {ma mb : Marks}
    (h : Unifier.Became g a b (joint ma.isOpen mb.isOpen fa.find? fb.find?) (ma.join mb))
    (hmerged : ∀ l x y, fa.find? l = some x → fb.find? l = some y → g.rep x = g.rep y) :
    ∃ fields, g.kind (g.rep a) = (ma.join mb).kind fields ∧
      (∀ l, l ∈ fields.labels ↔ Retains ma.isOpen mb.isOpen (l ∈ fa.labels) (l ∈ fb.labels)) ∧
      ∀ l z, fields.find? l = some z →
        (∀ x, fa.find? l = some x → g.rep z = g.rep x) ∧
        (∀ y, fb.find? l = some y → g.rep z = g.rep y) := by
  obtain ⟨fields, hk⟩ := h.record
  have hfield : ∀ l, (fields.find? l).map g.rep =
      (joint ma.isOpen mb.isOpen fa.find? fb.find? l).map g.rep := by
    intro l
    have hfield := h.field l
    rwa [hk] at hfield
  refine ⟨fields, hk, fun l => ?_, fun l z hz => ?_⟩
  · rw [Fields.mem_labels, Fields.mem_labels, Fields.mem_labels, ← isSome_joint,
      ← Option.isSome_map (f := g.rep), hfield, Option.isSome_map]
  · have hz := hfield l ▸ congrArg (Option.map g.rep) hz
    obtain ⟨w, hw, hwz⟩ := Option.map_eq_some_iff.1 hz
    refine ⟨fun x hx => ?_, fun y hy => ?_⟩
    · rw [← hwz]
      rcases joint_of_left hx hw with rfl | hy
      · rfl
      · exact (hmerged l x w hx hy).symm
    · rw [← hwz, joint_of_right hy hw]

/-- Two records to which none of their fields leads back become one record when they are unified, in
either order.  Its sites are those of both, it is open if both were and may be nil if one might.  It has
the labels of either record if both were open, those of the closed one if one was, and those that both
had if both were closed.  The fields of a label that both had are merged, and every label that is left
leads to the class that it led to. -/
theorem records_unified {fa fb : Fields TermId none} {sa sb : IdSet} {oa ob na nb : Bool}
    (hf : f.Sound) (hne : a ≠ b) (ha : f.kind a = .record fa sa oa na)
    (hb : f.kind b = .record fb sb ob nb)
    (hapart : ∀ x ∈ fa.values ++ fb.values, ¬f.Reaches (f.rep x) a ∧ ¬f.Reaches (f.rep x) b)
    {work : Worklist} {depth : Nat} {r : Bool} {u : Unifier}
    (h : Unifier.unify depth a b (Call.start f (some work)) = some (r, u) ∨
      Unifier.unify depth b a (Call.start f (some work)) = some (r, u)) :
    u.forest.rep a = u.forest.rep b ∧
      (∀ l x y, fa.find? l = some x → fb.find? l = some y → u.forest.rep x = u.forest.rep y) ∧
      ∃ fields, u.forest.kind (u.forest.rep a) = .record fields (sa.union sb) (oa && ob) (na || nb) ∧
        (∀ l, l ∈ fields.labels ↔ Retains oa ob (l ∈ fa.labels) (l ∈ fb.labels)) ∧
        ∀ l z, fields.find? l = some z →
          (∀ x, fa.find? l = some x → u.forest.rep z = u.forest.rep x) ∧
          (∀ y, fb.find? l = some y → u.forest.rep z = u.forest.rep y) := by
  have hka : f.kind a = Marks.kind ⟨sa, oa, na⟩ fa := ha
  have hkb : f.kind b = Marks.kind ⟨sb, ob, nb⟩ fb := hb
  have hrows : Rows _ a b fa.find? fb.find? ⟨sa, oa, na⟩ ⟨sb, ob, nb⟩ (Call.start f (some work)) :=
    rows_start hf hne hka hkb hapart work
  rcases h with h | h
  · obtain ⟨hbecame, hmerged⟩ := Unifier.unify_rows hrows h
    exact ⟨hbecame.rep, hmerged, fields_of_became hbecame hmerged⟩
  · obtain ⟨hbecame, hmerged⟩ := Unifier.unify_rows hrows.symm h
    obtain ⟨fields, hk, hlabels, hfields⟩ := fields_of_became hbecame hmerged
    refine ⟨hbecame.rep.symm, fun l x y hx hy => (hmerged l y x hy hx).symm, fields, ?_,
      fun l => (hlabels l).trans retains_comm, fun l z hz => (hfields l z hz).symm⟩
    rw [← hbecame.rep, hk, Marks.join_comm]
    rfl

/-- An open record with the fields `x` and `y`, and a closed one with `x` and `z`: the record that they
become is closed and has `x` and `z`. -/
theorem records_unified_closed : ∃ f r u fields,
    performAll [.base (.int (.const 1)), .var, .var,
      .record (.cons "x" trivial 0 (.cons "y" (by decide) 1 .nil)) (.singleton 1) true,
      .record (.cons "x" trivial 2 (.cons "z" (by decide) 1 .nil)) (.singleton 2) false] empty =
        some f ∧
      Unifier.unify 3 3 4 (Call.start f (some .empty)) = some (r, u) ∧
      (∀ x ∈ [0, 1, 2, 1], ¬f.Reaches (f.rep x) 3 ∧ ¬f.Reaches (f.rep x) 4) ∧
      u.forest.rep 3 = u.forest.rep 4 ∧ u.forest.rep 0 = u.forest.rep 2 ∧
      u.forest.kind (u.forest.rep 3) =
        .record fields ((IdSet.singleton 1).union (.singleton 2)) false false ∧
      ∀ l, l ∈ fields.labels ↔ l ∈ ["x", "z"] := by
  have hrun : ((performAll [.base (.int (.const 1)), .var, .var,
      .record (.cons "x" trivial 0 (.cons "y" (by decide) 1 .nil)) (.singleton 1) true,
      .record (.cons "x" trivial 2 (.cons "z" (by decide) 1 .nil)) (.singleton 2) false] empty).bind
        fun f => (Unifier.unify 3 3 4 (Call.start f (some .empty))).map fun _ =>
          (f.size, [0, 1, 2, 1].all fun x => !(f.reach x).contains 3 && !(f.reach x).contains 4)) =
      some (5, true) := by
    decide +kernel
  have hkinds : (performAll [.base (.int (.const 1)), .var, .var,
      .record (.cons "x" trivial 0 (.cons "y" (by decide) 1 .nil)) (.singleton 1) true,
      .record (.cons "x" trivial 2 (.cons "z" (by decide) 1 .nil)) (.singleton 2) false] empty).map
        (fun f => (f.kind 3, f.kind 4)) =
      some (.record (.cons "x" trivial 0 (.cons "y" (by decide) 1 .nil)) (.singleton 1) true false,
        .record (.cons "x" trivial 2 (.cons "z" (by decide) 1 .nil)) (.singleton 2) false false) :=
    rfl
  obtain ⟨f, hf, hrun⟩ := Option.bind_eq_some_iff.1 hrun
  obtain ⟨⟨r, u⟩, hunify, hfacts⟩ := Option.map_eq_some_iff.1 hrun
  rw [hf, Option.map_some, Option.some.injEq, Prod.mk.injEq] at hkinds
  simp only [Prod.mk.injEq, List.all_eq_true, Bool.and_eq_true, Bool.not_eq_true',
    List.contains_eq_mem, decide_eq_false_iff_not] at hfacts
  obtain ⟨hsize, happart⟩ := hfacts
  have hsound := performAll_sound hf
  have hapart : ∀ x ∈ [0, 1, 2, 1], ¬f.Reaches (f.rep x) 3 ∧ ¬f.Reaches (f.rep x) 4 := by
    intro x hx
    have hlt : x < f.size := by
      rw [hsize]
      revert x
      decide
    obtain ⟨h3, h4⟩ := happart x hx
    exact ⟨fun h => h3 ((mem_reach hsound hlt).2 h), fun h => h4 ((mem_reach hsound hlt).2 h)⟩
  obtain ⟨hrep, hmerged, fields, hk, hlabels, -⟩ := records_unified hsound (by decide) hkinds.1 hkinds.2
    hapart (Or.inl hunify)
  exact ⟨f, r, u, fields, hf, hunify, hapart, hrep, hmerged "x" 0 2 rfl rfl, hk, hlabels⟩

end Forest

end TypeFlow
