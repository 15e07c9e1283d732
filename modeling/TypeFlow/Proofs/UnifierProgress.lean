import TypeFlow.Proofs.ForestChanges
import TypeFlow.Proofs.LookUps
import TypeFlow.Proofs.VariableUnification

/-!
# Progress of the unifier

The unifier changes the forest step by step, and each step tells who is registered with the classes that it
disturbs.  Looking classes up tidies links, slots and wrappers up and changes no class; a new term has not
been told to anyone.

Main definitions:

- `Forest.IsClass`: a term is a class of its own.
- `Unifier.Looks`: nothing happened but look-ups.
- `Unifier.Proceeds`: the forest was changed, and the worklist holds all that were to be told.

Main results:

- `Unifier.find_looks`, `Unifier.child_looks`: looking up a class or a child is a look-up.
- `Unifier.alloc_error_proceeds`: making an error proceeds.
-/

namespace TypeFlow

namespace Kind

/-- A class without slots has no children. -/
theorem children_of_slots {k : Kind} (hk : k.isLink = false) (h : k.slots.isEmpty = true) :
    k.children = [] := by
  cases k with
  | link t => cases hk
  | nilable inner => cases h
  | function args ret fids nil => simp [slots] at h
  | record fields sites isOpen nil =>
    cases fields with
    | nil => rfl
    | cons l hl v rest => cases h
  | _ => rfl

/-- Only variables are told to be so. -/
theorem isVar_iff {k : Kind} : k.isVar = true ↔ k = .var := by
  cases k <;> simp [isVar]

/-- Kinds of one shape are both wrappers, or none is. -/
theorem isNilable_eq_of_shape {k k' : Kind} (h : k.shape = k'.shape) :
    k.isNilable = k'.isNilable := by
  cases k <;> cases k' <;> first | rfl | cases h

/-- Records are of one shape. -/
theorem isRecord_iff_shape {k : Kind} : k.isRecord = true ↔ k.shape = .record := by
  cases k <;> simp [isRecord, shape]

/-- A wrapper has no arity. -/
theorem arity?_of_isNilable {k : Kind} (h : k.isNilable = true) : k.arity? = none := by
  cases k <;> first | rfl | cases h

/-- Functions of one shape have as many parameters. -/
theorem arity?_eq_of_shape {k k' : Kind} (h : k.shape = k'.shape) : k.arity? = k'.arity? := by
  cases k <;> cases k' <;> simp_all [shape, arity?]

/-- What has no slots has no arity. -/
theorem arity?_of_slots {k : Kind} (h : k.slots.isEmpty = true) : k.arity? = none := by
  cases k with
  | function args ret fids nil => simp [slots] at h
  | _ => rfl

/-- Kinds of one shape are both errors, or none is. -/
theorem isError_eq_of_shape {k k' : Kind} (h : k.shape = k'.shape) : k.isError = k'.isError := by
  cases k <;> cases k' <;> simp_all [shape, isError]

/-- Only records have fields. -/
theorem eq_record_of_child? {k : Kind} {label : String} {x : TermId}
    (h : k.child? (.field label) = some x) :
    ∃ fields sites isOpen nil, k = .record fields sites isOpen nil ∧ fields.find? label = some x := by
  cases k with
  | record fields sites isOpen nil => exact ⟨fields, sites, isOpen, nil, rfl, h⟩
  | _ => cases h

/-- A record that loses a field says no less than before. -/
theorem refines_erase (fields : Fields TermId none) (sites : IdSet) (isOpen nil : Bool)
    (label : String) : (record fields sites isOpen nil).Refines
      (.record (fields.erase label) sites isOpen nil) := by
  refine ⟨rfl, rfl, .record (fun _ hx => hx) id id, fun y hy => ?_⟩
  obtain ⟨l, hl⟩ := Fields.mem_values.1 hy
  exact Fields.mem_values.2 ⟨l, Fields.find?_of_erase hl⟩

/-- An error has a cause. -/
theorem isError_iff {k : Kind} : k.isError = true ↔ ∃ cause, k = .error cause := by
  cases k <;> simp [isError]

end Kind

namespace Forest

variable {f g : Forest}

/-- The term is a class of its own. -/
structure IsClass (f : Forest) (t : TermId) : Prop where
  lt : t < f.size
  root : (f.kind t).isLink = false

/-- The type of the term is no variable. -/
def Known (f : Forest) (t : TermId) : Prop := f.kind (f.rep t) ≠ .var

/-- The representative of a term is a class. -/
theorem isClass_rep (hf : f.Sound) {t : TermId} (ht : t < f.size) : f.IsClass (f.rep t) :=
  ⟨rep_lt_size hf.rooted ht, not_isLink_rep hf.rooted t⟩

/-- What is a record is a class. -/
theorem isClass_of_isRecord {t : TermId} (h : (f.kind t).isRecord = true) : f.IsClass t := by
  refine ⟨lt_size_of_kind fun hvar => ?_, ?_⟩
  · rw [hvar] at h
    cases h
  · cases hk : f.kind t with
    | link u =>
      rw [hk] at h
      cases h
    | _ => rfl

/-- A record wraps nothing. -/
theorem calm_of_isRecord {t : TermId} (h : (f.kind t).isRecord = true) : f.Calm t := by
  refine calm_of_not_nilable (isClass_of_isRecord h).root ?_
  revert h
  cases f.kind t <;> first | exact fun _ => rfl | exact fun h => nomatch h

namespace IsClass

variable {t : TermId}

/-- A class represents itself. -/
theorem rep_eq (h : f.IsClass t) : f.rep t = t := rep_of_not_link h.root

/-- Classes stay so in a steady forest. -/
theorem of_steady (h : f.IsClass t) (hs : Steady f g) : g.IsClass t :=
  ⟨Nat.lt_of_lt_of_le h.lt hs.size, by rw [hs.isLink, h.root]⟩

/-- A class that is no variable is known. -/
theorem known (h : f.IsClass t) (hk : f.kind t ≠ .var) : f.Known t := by
  rw [Known, h.rep_eq]
  exact hk

end IsClass

/-- The forest with a copy of a class without nil added. -/
def withStripped (f : Forest) (t : TermId) : Forest :=
  (f.add { f.terms[t]?.getD default with kind := (f.kind t).withoutNil }).2

/-- The kind of a term is read off the terms. -/
theorem kind_getD (f : Forest) (t : TermId) : (f.terms[t]?.getD default).kind = f.kind t := by
  unfold kind
  cases f.terms[t]? <;> rfl

/-- A term that is changed right away may be added as it is then. -/
theorem update_add (f : Forest) (term : Term) (change : Term → Term) :
    (f.add term).2.update f.size change = (f.add (change term)).2 := by
  unfold update add size
  simp only [mk.injEq, and_true]
  apply Array.ext_getElem?
  intro i
  rw [Array.getElem?_modify, Array.getElem?_push, Array.getElem?_push]
  split <;> grind

/-- Nil may be taken from a copy after it is made. -/
theorem setKind_copy (f : Forest) (t : TermId) :
    let g := (f.add (f.terms[t]?.getD default)).2
    g.setKind f.size (g.kind f.size).withoutNil = f.withStripped t := by
  dsimp only
  rw [kind_add, if_pos rfl, setKind, update_add, kind_getD]
  rfl

/-- A wrapper of a variable and another class became one class, and the variable a copy of that
class without nil. -/
structure Collapses (wrapper leaf that : TermId) (f g : Forest) : Prop where
  rep : ∀ x, g.rep x =
    if f.rep x = leaf then f.size else if f.rep x = that then wrapper else f.rep x
  copy : ∃ k, (f.kind that).Refreshed f.rep k ∧ g.kind f.size = strippedKind (f.isInput leaf) k
  wrapper : g.kind wrapper = absorbedKind f.size (g.kind f.size)

/-- The wrapper stands for both. -/
theorem Collapses.rep_both {wrapper leaf that x : TermId} (h : Collapses wrapper leaf that f g)
    (hthat : f.IsClass that) (hx : f.kind wrapper = .nilable x) (hleaf : f.kind leaf = .var)
    (hknown : f.kind that ≠ .var) : g.rep wrapper = wrapper ∧ g.rep that = wrapper := by
  have hwrapper : f.rep wrapper = wrapper := rep_of_not_link (by rw [hx]; rfl)
  have hnewrapper : wrapper ≠ leaf := by
    rintro rfl
    rw [hleaf] at hx
    cases hx
  have hnethat : that ≠ leaf := by
    rintro rfl
    exact hknown hleaf
  rw [h.rep, h.rep, hwrapper, hthat.rep_eq, if_neg hnewrapper, if_neg hnethat, if_pos rfl]
  exact ⟨ite_self _ ▸ rfl, rfl⟩

end Forest

open Forest (IsClass Steady Evolves absorbedKind strippedKind)

namespace Unifier

variable {α : Type} {s t u : Unifier}

/-! ## Progress -/

/-- The node waits in the worklist, if there is one. -/
def Waiting (work : Option Worklist) (n : NodeId) : Prop := ∃ w, work = some w ∧ n ∈ w.pending

private theorem Waiting.wake {work : Option Worklist} {n : NodeId} (h : Waiting work n) (f : Forest)
    (t : TermId) : Waiting (work.map (f.wake t)) n := by
  obtain ⟨w, rfl, hn⟩ := h
  exact ⟨_, rfl, Forest.mem_wake.2 (Or.inl hn)⟩

/-- Who is registered with a class that a woken term leads to waits. -/
theorem waiting_wake {f : Forest} (hf : f.Sound) {work : Option Worklist}
    (hwork : work.isNone = false) {t c : TermId} (ht : t < f.size) {n : NodeId}
    (hn : n ∈ f.deps c) (hc : f.Reaches (f.rep t) c) : Waiting (work.map (f.wake t)) n := by
  cases work with
  | none => cases hwork
  | some w => exact ⟨_, rfl, Forest.mem_wake_of_reaches hf ht hn hc⟩

/-- The forest is sound, and instances are made of its terms. -/
structure Sound (s : Unifier) : Prop where
  forest : s.forest.Sound
  image : ∀ p ∈ s.image, p.2 < s.forest.size

/-- A change of the forest keeps the state sound. -/
theorem Sound.change {f : Forest} (hs : s.Sound) (h : s.forest.Change f) :
    Sound { s with forest := f } where
  forest := h.sound hs.forest
  image p hp := Nat.lt_of_lt_of_le (hs.image p hp) (h.evolves hs.forest).grows.size

/-- Nothing happened but look-ups. -/
structure Looks (s u : Unifier) : Prop where
  upkeeps : s.forest.Upkeeps u.forest
  work : u.work = s.work
  met : u.met = s.met
  image : u.image = s.image

/-- The forest was changed, and who is registered with a class that was disturbed waits now. -/
structure Proceeds (s u : Unifier) : Prop where
  sound : u.Sound
  probe : u.work.isNone = s.work.isNone
  waiting : ∀ n, Waiting s.work n → Waiting u.work n
  leads : Forest.Leads (Waiting u.work) s.forest u.forest

namespace Proceeds

/-- Doing nothing proceeds. -/
theorem refl (hs : s.Sound) : Proceeds s s := ⟨hs, rfl, fun _ hn => hn, .refl⟩

/-- Computations one after the other proceed. -/
theorem trans (h : Proceeds s t) (h' : Proceeds t u) : Proceeds s u where
  sound := h'.sound
  probe := h'.probe.trans h.probe
  waiting n hn := h'.waiting n (h.waiting n hn)
  leads := (h.leads.mono h'.waiting).trans h'.leads

/-- The forest evolves when a computation proceeds. -/
theorem evolves (hs : s.Sound) (h : Proceeds s u) : Evolves s.forest u.forest :=
  h.leads.evolves hs.forest

/-- Terms stay terms. -/
theorem lt (hs : s.Sound) (h : Proceeds s u) {x : TermId} (hx : x < s.forest.size) :
    x < u.forest.size :=
  Nat.lt_of_lt_of_le hx (h.evolves hs).grows.size

/-- A change may be made known later on. -/
theorem head {f : Forest} (h : s.forest.Change f) (hu : Proceeds { s with forest := f } u)
    (htold : ∀ c n, s.forest.Disturbs f c → n ∈ s.forest.deps c → Waiting u.work n) :
    Proceeds s u where
  sound := hu.sound
  probe := hu.probe
  waiting := hu.waiting
  leads := .head ⟨h, htold⟩ hu.leads

/-- Waking someone proceeds. -/
theorem wake (hs : s.Sound) (f : Forest) (x : TermId) :
    Proceeds s { s with work := s.work.map (f.wake x) } where
  sound := ⟨hs.forest, hs.image⟩
  probe := by cases s.work <;> rfl
  waiting _ hn := hn.wake f x
  leads := .refl

/-- New terms disturb nobody. -/
theorem sprouts {f : Forest} (hs : s.Sound) (h : s.forest.Sprouts f) :
    Proceeds s { s with forest := f } where
  sound := hs.change (.sprouts h)
  probe := rfl
  waiting _ hn := hn
  leads := .of_sprouts hs.forest h

/-- The pairs met do not matter, and neither do instances made of terms. -/
theorem of_memory (hs : s.Sound) {met image : List (TermId × TermId)}
    (himage : ∀ p ∈ image, p.2 < s.forest.size) : Proceeds s ⟨s.forest, s.work, met, image⟩ where
  sound := ⟨hs.forest, himage⟩
  probe := rfl
  waiting _ hn := hn
  leads := .refl

end Proceeds

namespace Looks

/-- Doing nothing is a look. -/
theorem refl (s : Unifier) : Looks s s := ⟨.refl, rfl, rfl, rfl⟩

/-- So are looks one after the other. -/
theorem trans (h : Looks s t) (h' : Looks t u) : Looks s u :=
  ⟨Relation.ReflTransGen.trans h.upkeeps h'.upkeeps, h'.work.trans h.work, h'.met.trans h.met,
    h'.image.trans h.image⟩

/-- Looks move no term to another class. -/
theorem steady (hs : s.Sound) (h : Looks s u) : Steady s.forest u.forest :=
  h.upkeeps.steady hs.forest.rooted

/-- Classes that wrap variables at most stay what they are up to their children. -/
theorem calm (hs : s.Sound) (h : Looks s u) {c : TermId} (hc : s.forest.Calm c) :
    (s.forest.kind c).Refreshed s.forest.rep (u.forest.kind c) ∧ u.forest.Calm c :=
  h.upkeeps.calm hs.forest.rooted hc

/-- Variables are variables when classes are looked up. -/
theorem var (hs : s.Sound) (h : Looks s u) {c : TermId} (hc : s.forest.kind c = .var) :
    u.forest.kind c = .var :=
  (h.calm hs (Forest.calm_of_not_nilable (by rw [hc]; rfl) (by rw [hc]; rfl))).1.eq_var.2 hc

/-- What is no wrapper is none when classes are looked up. -/
theorem plain (hs : s.Sound) (h : Looks s u) {c : TermId}
    (hc : (s.forest.kind c).isLink = false) (hplain : (s.forest.kind c).isNilable = false) :
    (u.forest.kind c).isNilable = false := by
  by_contra hnilable
  obtain ⟨inner, hinner⟩ := Kind.isNilable_eq_true.1 (Bool.eq_true_of_not_eq_false hnilable)
  obtain ⟨hrefreshed, -⟩ := h.calm hs (Forest.calm_of_not_nilable hc hplain)
  rw [hinner] at hrefreshed
  obtain ⟨x, hx, -⟩ := hrefreshed.nilable (Forest.rep_rep hs.forest.rooted)
  rw [hx] at hplain
  cases hplain

/-- A calm wrapper still wraps the same when classes are looked up. -/
theorem wraps (hs : s.Sound) (h : Looks s u) {w inner : TermId} (hw : s.forest.Calm w)
    (hk : s.forest.kind w = .nilable inner) :
    ∃ inner', u.forest.kind w = .nilable inner' ∧ s.forest.rep inner' = s.forest.rep inner := by
  obtain ⟨hrefreshed, -⟩ := h.calm hs hw
  rw [hk] at hrefreshed
  exact hrefreshed.wraps (Forest.rep_rep hs.forest.rooted)

/-- Looks proceed. -/
theorem proceeds (hs : s.Sound) (h : Looks s u) : Proceeds s u where
  sound := by
    refine ⟨h.upkeeps.sound hs.forest, fun p hp => ?_⟩
    rw [h.upkeeps.size]
    rw [h.image] at hp
    exact hs.image p hp
  probe := by rw [h.work]
  waiting n hn := by rwa [h.work]
  leads := .of_upkeeps hs.forest.rooted h.upkeeps

end Looks

/-! ## Looking up -/

/-- A computation that keeps the forest up only looks. -/
theorem looks_onForest {run : ForestM α} (hrun : Keeps Forest.KeptUp run) (hs : s.Sound) {a : α}
    (h : onForest run s = some (a, u)) : Looks s u := by
  obtain ⟨f, hf, rfl⟩ := onForest_eq_some.1 h
  exact ⟨hrun _ _ _ hf hs.forest.rooted, rfl, rfl, rfl⟩

/-- Looking a class up answers it. -/
theorem find_looks (hs : s.Sound) {x r : TermId} (h : find x s = some (r, u)) :
    r = s.forest.rep x ∧ Looks s u := by
  obtain ⟨f, hf, rfl⟩ := onForest_eq_some.1 h
  obtain ⟨hr, hup⟩ := Forest.find_upkeeps hs.forest.rooted hf
  exact ⟨hr, hup, rfl, rfl, rfl⟩

/-- What a look-up answers is a class. -/
theorem isClass_of_find (hs : s.Sound) {x r : TermId} (hx : x < s.forest.size)
    (h : find x s = some (r, u)) : u.forest.IsClass r := by
  obtain ⟨rfl, hlooks⟩ := find_looks hs h
  exact (Forest.isClass_rep hs.forest hx).of_steady (hlooks.steady hs)

/-- Looking up a child answers a class. -/
theorem child_looks (hs : s.Sound) {x : TermId} {slot : Slot} {r : Option TermId}
    (h : child x slot s = some (r, u)) : Looks s u ∧ ∀ y, r = some y → u.forest.IsClass y := by
  obtain ⟨f, hf, rfl⟩ := onForest_eq_some.1 h
  obtain ⟨hr, hup⟩ := Forest.child_upkeeps hs.forest.rooted hf
  refine ⟨⟨hup, rfl, rfl, rfl⟩, fun y hy => ?_⟩
  rw [hr] at hy
  obtain ⟨z, hz, rfl⟩ := Option.map_eq_some_iff.1 hy
  exact (Forest.isClass_rep hs.forest (hs.forest.child_lt hz)).of_steady
    (hup.steady hs.forest.rooted)

/-- It is that of the child. -/
theorem child_eq (hs : s.Sound) {x : TermId} {slot : Slot} {r : Option TermId}
    (h : child x slot s = some (r, u)) :
    r = ((s.forest.kind x).child? slot).map s.forest.rep := by
  obtain ⟨f, hf, rfl⟩ := onForest_eq_some.1 h
  exact (Forest.child_upkeeps hs.forest.rooted hf).1

/-- What a look-up answers wraps nothing but a variable. -/
theorem calm_of_find (hs : s.Sound) {x r : TermId} (h : find x s = some (r, u)) :
    u.forest.Calm r := by
  obtain ⟨f, hf, rfl⟩ := onForest_eq_some.1 h
  exact Forest.find_calm hs.forest.rooted hf

/-- Looking up what is no wrapper changes no type. -/
theorem find_of_not_nilable (hs : s.Sound) {x r c : TermId}
    (hx : (s.forest.kind (s.forest.rep x)).isNilable = false) (h : find x s = some (r, u))
    (hc : (s.forest.kind c).isLink = false) : u.forest.kind c = s.forest.kind c := by
  obtain ⟨f, hf, rfl⟩ := onForest_eq_some.1 h
  exact Forest.find_of_not_nilable hs.forest.rooted hx hf hc

/-- Two terms looked up in turn. -/
theorem find_both (hs : s.Sound) {a b ra rb : TermId} (ha : a < s.forest.size)
    (hb : b < s.forest.size) (h : find a s = some (ra, t)) (h' : find b t = some (rb, u)) :
    Looks s u ∧ (u.forest.Calm ra ∧ u.forest.Calm rb) ∧
      (ra = s.forest.rep a ∧ rb = s.forest.rep b) ∧ u.forest.IsClass ra ∧ u.forest.IsClass rb := by
  have hra := isClass_of_find hs ha h
  have hca := calm_of_find hs h
  obtain ⟨rfl, hlooks⟩ := find_looks hs h
  have hp := hlooks.proceeds hs
  have hrb := isClass_of_find hp.sound (hp.lt hs hb) h'
  have hcb := calm_of_find hp.sound h'
  obtain ⟨rfl, hlooks'⟩ := find_looks hp.sound h'
  refine ⟨hlooks.trans hlooks', ⟨(hlooks'.calm hp.sound hca).2, hcb⟩,
    ⟨rfl, (hlooks.steady hs).rep b⟩, ?_, hrb⟩
  exact hra.of_steady (hlooks'.steady hp.sound)

/-! ## New terms -/

/-- A new term is the last one. -/
theorem alloc_eq_some {kind : Kind} {x : TermId} :
    alloc kind s = some (x, u) ↔
      x = s.forest.size ∧ u = { s with forest := (s.forest.alloc kind).2 } := by
  have h : alloc kind s = some (s.forest.size, { s with forest := (s.forest.alloc kind).2 }) := rfl
  rw [h, Option.some.injEq, Prod.mk.injEq, eq_comm, eq_comm (a := u)]

/-- So is a copy. -/
theorem copy_eq_some {x c : TermId} :
    copy x s = some (c, u) ↔ c = s.forest.size ∧
      u = { s with forest := (s.forest.add (s.forest.terms[x]?.getD default)).2 } := by
  have h : copy x s = some (s.forest.size,
      { s with forest := (s.forest.add (s.forest.terms[x]?.getD default)).2 }) := rfl
  rw [h, Option.some.injEq, Prod.mk.injEq, eq_comm, eq_comm (a := u)]

/-- A term made of terms is a new class. -/
theorem add_proceeds (hs : s.Sound) (term : Term) (hlink : term.kind.isLink = false)
    (hrange : ∀ x ∈ term.kind.children, x < s.forest.size) :
    Proceeds s { s with forest := (s.forest.add term).2 } ∧
      Steady s.forest (s.forest.add term).2 ∧ (s.forest.add term).2.IsClass s.forest.size ∧
      (s.forest.add term).2.kind s.forest.size = term.kind := by
  have hkind : (s.forest.add term).2.kind s.forest.size = term.kind := by
    rw [Forest.kind_add, if_pos rfl]
  refine ⟨.sprouts hs (.single (.add hlink hrange)), Forest.steady_add hs.forest.rooted hlink,
    ⟨?_, ?_⟩, hkind⟩
  · rw [Forest.size_add]
    exact Nat.lt_succ_self _
  · rw [hkind, hlink]

/-- An error is a new class. -/
theorem alloc_error_proceeds (hs : s.Sound) {cause : TypeError} {x : TermId}
    (h : alloc (.error cause) s = some (x, u)) :
    Proceeds s u ∧ Steady s.forest u.forest ∧ u.forest.IsClass x ∧
      u.forest.kind x = .error cause := by
  obtain ⟨rfl, rfl⟩ := alloc_eq_some.1 h
  exact add_proceeds hs ⟨.error cause, .empty, false⟩ rfl fun y hy => absurd hy List.not_mem_nil

/-- A copy without nil is a new class, and all old terms are what they were. -/
theorem withStripped_proceeds (hs : s.Sound) {x : TermId} (hx : s.forest.IsClass x) :
    Proceeds s { s with forest := s.forest.withStripped x } ∧
      Steady s.forest (s.forest.withStripped x) ∧
      (s.forest.withStripped x).IsClass s.forest.size ∧
      (s.forest.withStripped x).kind s.forest.size = (s.forest.kind x).withoutNil ∧
      ∀ y, y < s.forest.size → (s.forest.withStripped x).kind y = s.forest.kind y ∧
        (s.forest.withStripped x).isInput y = s.forest.isInput y := by
  obtain ⟨hp, hsteady, hc, hkind⟩ := add_proceeds hs
    { s.forest.terms[x]?.getD default with kind := (s.forest.kind x).withoutNil }
    (by rw [Kind.isLink_withoutNil, hx.root])
    (fun y hy => by
      rw [Kind.children_withoutNil] at hy
      exact hs.forest.inRange x y hy)
  refine ⟨hp, hsteady, hc, hkind, fun y hy => ?_⟩
  rw [Forest.withStripped, Forest.kind_add, Forest.isInput_add, if_neg (Nat.ne_of_lt hy),
    if_neg (Nat.ne_of_lt hy)]
  exact ⟨rfl, rfl⟩

end Unifier

end TypeFlow
