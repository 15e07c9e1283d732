import Mathlib.Data.Finset.Card
import TypeFlow.Proofs.Growth

/-!
# Sound forests

In a sound forest all links lead to a class, all children are terms of the forest, and the terms that
are no class of their own any more are as many as the merges.  What changes a forest either leaves
the classes alone (`Forest.Steady`) or merges two of them; in both cases merged terms stay merged and
links stay links (`Forest.Evolves`), so among the terms that exist there are never more classes
later on.

Main definitions:

- `Forest.Sound`: links, children and the count of merges are in order.
- `Forest.Steady`: every term kept its representative.
- `Forest.Evolves`: equalities, links and what is known of a class stay.

Main results:

- `Kind.mem_children`: the children are what stands in the slots.
- `Forest.Sound.add`, `Forest.Sound.link`: new terms and merges keep a forest sound.
- `Forest.Evolves.classes_le`: among old terms, classes never become more.
-/

namespace TypeFlow

/-! ## Children -/

/-- The labels of fields are those that they are found under. -/
theorem Fields.mem_labels {α : Type} {bound : Option String} {f : Fields α bound} {l : String} :
    l ∈ f.labels ↔ (f.find? l).isSome = true := by
  induction f with
  | nil => exact iff_of_false List.not_mem_nil Bool.false_ne_true
  | cons k hk v rest ih =>
    rw [labels, List.mem_cons, ih, find?_cons]
    split
    · rename_i e
      exact iff_of_true (Or.inl e.symm) rfl
    · rename_i hne
      exact or_iff_right fun e => hne e.symm

namespace Kind

/-- A kind has a child under each of its labels. -/
theorem isSome_child?_of_mem_labels {k : Kind} {l : String} (h : l ∈ k.labels) :
    (k.child? (.field l)).isSome = true := by
  cases k with
  | record fields sites isOpen nil => exact Fields.mem_labels.1 h
  | _ => exact absurd h List.not_mem_nil

/-- The occupied slots are those with a child. -/
theorem mem_slots {k : Kind} {slot : Slot} : slot ∈ k.slots ↔ (k.child? slot).isSome = true := by
  cases k with
  | function args ret fids nil => cases slot <;> simp [slots, child?]
  | record fields sites isOpen nil => cases slot <;> simp [slots, child?, Fields.mem_labels]
  | _ => cases slot <;> simp [slots, child?]

/-- The children of a kind that is no link are what stands in its slots. -/
theorem mem_children {k : Kind} (h : k.isLink = false) {x : TermId} :
    x ∈ k.children ↔ ∃ slot, k.child? slot = some x := by
  cases k with
  | link t => cases h
  | nilable inner =>
    constructor
    · intro hx
      exact ⟨.inner, congrArg some (List.mem_singleton.1 hx).symm⟩
    · rintro ⟨slot, hslot⟩
      cases slot <;> simp_all [child?, children]
  | function args ret fids nil =>
    rw [children, List.mem_append, List.mem_singleton, List.mem_iff_getElem?]
    constructor
    · rintro (⟨i, hi⟩ | rfl)
      · exact ⟨.arg i, hi⟩
      · exact ⟨.ret, rfl⟩
    · rintro ⟨slot, hslot⟩
      cases slot with
      | arg i => exact Or.inl ⟨i, hslot⟩
      | ret => exact Or.inr (Option.some.inj hslot).symm
      | _ => cases hslot
  | record fields sites isOpen nil =>
    rw [children, Fields.mem_values]
    constructor
    · rintro ⟨l, hl⟩
      exact ⟨.field l, hl⟩
    · rintro ⟨slot, hslot⟩
      cases slot with
      | field l => exact ⟨l, hslot⟩
      | _ => cases hslot
  | _ =>
    constructor
    · intro hx
      cases hx
    · rintro ⟨slot, hslot⟩
      cases slot <;> cases hslot

/-- What has a child in a slot is no link. -/
theorem isLink_of_child? {k : Kind} {slot : Slot} {x : TermId} (h : k.child? slot = some x) :
    k.isLink = false := by
  cases k <;> cases slot <;> first | rfl | cases h

/-- What is in a slot is a child. -/
theorem mem_children_of_child? {k : Kind} {slot : Slot} {x : TermId} (h : k.child? slot = some x) :
    x ∈ k.children :=
  (mem_children (isLink_of_child? h)).2 ⟨slot, h⟩

/-- Putting a child into an occupied slot changes that slot only. -/
theorem child?_setChild {k : Kind} {slot : Slot} {x : TermId} (h : k.child? slot = some x)
    (child : TermId) (slot' : Slot) :
    (k.setChild slot child).child? slot' = if slot = slot' then some child else k.child? slot' := by
  cases k with
  | function args ret fids nil =>
    cases slot with
    | arg i =>
      have hi : i < args.length := (List.getElem?_eq_some_iff.1 h).1
      cases slot' <;> simp [setChild, child?, List.getElem?_set, hi]
    | ret => cases slot' <;> simp [setChild, child?]
    | _ => cases h
  | record fields sites isOpen nil =>
    cases slot with
    | field l => cases slot' <;> simp [setChild, child?, Fields.find?_insert]
    | _ => cases h
  | nilable inner =>
    cases slot with
    | inner => cases slot' <;> simp [setChild, child?]
    | _ => cases h
  | _ => cases slot <;> cases h

/-- A child that is found when one was put into a slot is that one or was there before. -/
theorem child?_of_setChild {k : Kind} {slot slot' : Slot} {child x : TermId}
    (h : (k.setChild slot child).child? slot' = some x) :
    slot' = slot ∧ x = child ∨ slot' ≠ slot ∧ k.child? slot' = some x := by
  cases k with
  | function args ret fids nil =>
    cases slot <;> cases slot' <;> simp_all [setChild, child?, List.getElem?_set]
    grind
  | record fields sites isOpen nil =>
    cases slot <;> cases slot' <;> simp_all [setChild, child?, Fields.find?_insert]
    grind
  | nilable inner => cases slot <;> cases slot' <;> simp_all [setChild, child?]
  | _ => cases slot <;> cases slot' <;> cases h

/-- Putting a child into any slot adds no other child. -/
theorem mem_children_setChild {k : Kind} {slot : Slot} {child x : TermId}
    (h : x ∈ (k.setChild slot child).children) : x = child ∨ x ∈ k.children := by
  cases k with
  | function args ret fids nil =>
    cases slot with
    | arg i =>
      rcases List.mem_append.1 h with h | h
      · exact (List.mem_or_eq_of_mem_set h).symm.imp_right (List.mem_append_left _)
      · exact Or.inr (List.mem_append_right _ h)
    | ret =>
      rcases List.mem_append.1 h with h | h
      · exact Or.inr (List.mem_append_left _ h)
      · exact Or.inl (List.mem_singleton.1 h)
    | _ => exact Or.inr h
  | record fields sites isOpen nil =>
    cases slot with
    | field l =>
      obtain ⟨k, hk⟩ := Fields.mem_values.1 h
      rw [Fields.find?_insert] at hk
      split at hk
      · exact Or.inl (Option.some.inj hk).symm
      · exact Or.inr (Fields.mem_values.2 ⟨k, hk⟩)
    | _ => exact Or.inr h
  | nilable inner =>
    cases slot with
    | inner => exact Or.inl (List.mem_singleton.1 h)
    | _ => exact Or.inr h
  | _ => exact Or.inr h

@[simp] theorem setChild_eq_link {k : Kind} {slot : Slot} {child t : TermId} :
    k.setChild slot child = .link t ↔ k = .link t := by
  cases k <;> cases slot <;> simp [setChild]

@[simp] theorem setChild_eq_var {k : Kind} {slot : Slot} {child : TermId} :
    k.setChild slot child = .var ↔ k = .var := by
  cases k <;> cases slot <;> simp [setChild]

@[simp] theorem shape_setChild (k : Kind) (slot : Slot) (child : TermId) :
    (k.setChild slot child).shape = k.shape := by
  cases k <;> cases slot <;> simp [setChild, shape]

@[simp] theorem isLink_setChild (k : Kind) (slot : Slot) (child : TermId) :
    (k.setChild slot child).isLink = k.isLink := by
  cases k <;> cases slot <;> rfl

@[simp] theorem children_withoutNil (k : Kind) : k.withoutNil.children = k.children := by
  cases k <;> rfl

@[simp] theorem isLink_withoutNil (k : Kind) : k.withoutNil.isLink = k.isLink := by
  cases k <;> rfl

@[simp] theorem orNil_eq_var {k : Kind} : k.orNil = .var ↔ k = .var := by
  cases k <;> simp [orNil]

end Kind

namespace Forest

/-! ## Adding terms -/

/-- A new term has its kind, and others have theirs. -/
theorem kind_add (f : Forest) (term : Term) (t : TermId) :
    (f.add term).2.kind t = if t = f.size then term.kind else f.kind t := by
  unfold add kind size
  rw [Array.getElem?_push]
  by_cases e : t = f.terms.size
  · rw [if_pos e, if_pos e]
  · rw [if_neg e, if_neg e]

/-- A new term has its nodes, and others have theirs. -/
theorem deps_add (f : Forest) (term : Term) (t : TermId) :
    (f.add term).2.deps t = if t = f.size then term.deps else f.deps t := by
  unfold add deps size
  rw [Array.getElem?_push]
  by_cases e : t = f.terms.size
  · rw [if_pos e, if_pos e]
  · rw [if_neg e, if_neg e]

/-- A new term has its mark, and others have theirs. -/
theorem isInput_add (f : Forest) (term : Term) (t : TermId) :
    (f.add term).2.isInput t = if t = f.size then term.isInput else f.isInput t := by
  unfold add isInput size
  rw [Array.getElem?_push]
  by_cases e : t = f.terms.size
  · rw [if_pos e, if_pos e]
  · rw [if_neg e, if_neg e]

@[simp] theorem add_fst (f : Forest) (term : Term) : (f.add term).1 = f.size := rfl

@[simp] theorem size_add (f : Forest) (term : Term) : (f.add term).2.size = f.size + 1 := by
  simp [add, size]

/-- What is no term yet is a variable. -/
theorem kind_of_size_le {f : Forest} {t : TermId} (h : f.size ≤ t) : f.kind t = .var := by
  by_contra hne
  exact absurd (lt_size_of_kind hne) (Nat.not_lt.2 h)

/-! ## Steady changes -/

/-- Every term kept its representative, variables were not made anew, and no registered node was
lost. -/
structure Steady (f g : Forest) : Prop where
  rooted : g.Rooted
  size : f.size ≤ g.size
  rep : ∀ t, g.rep t = f.rep t
  isLink : ∀ t, (g.kind t).isLink = (f.kind t).isLink
  firm : ∀ t, g.kind t = .var → f.kind t = .var
  deps : ∀ t n, n ∈ f.deps t → n ∈ g.deps t

/-- A forest is steady when nothing is done. -/
theorem Steady.refl {f : Forest} (h : f.Rooted) : Steady f f :=
  ⟨h, le_rfl, fun _ => rfl, fun _ => rfl, fun _ ht => ht, fun _ _ hn => hn⟩

/-- Forests are steady in turn. -/
theorem Steady.trans {f g h : Forest} (hfg : Steady f g) (hgh : Steady g h) : Steady f h where
  rooted := hgh.rooted
  size := hfg.size.trans hgh.size
  rep t := (hgh.rep t).trans (hfg.rep t)
  isLink t := (hgh.isLink t).trans (hfg.isLink t)
  firm t ht := hfg.firm t (hgh.firm t ht)
  deps t n hn := hgh.deps t n (hfg.deps t n hn)

/-- Links may be shortened to the representative. -/
theorem steady_of_links {f g : Forest} (h : f.Rooted) (hsize : f.size ≤ g.size)
    (hlink : ∀ t u, g.kind t = .link u →
      f.kind t = .link u ∨ (f.kind t).isLink = true ∧ u = f.rep t)
    (hisLink : ∀ t, (g.kind t).isLink = (f.kind t).isLink)
    (hfirm : ∀ t, g.kind t = .var → f.kind t = .var)
    (hdeps : ∀ t n, n ∈ f.deps t → n ∈ g.deps t) : Steady f g := by
  obtain ⟨hrooted, hrep⟩ := reps_of_links h hsize hlink fun t ht => by rw [← hisLink, ht]
  exact ⟨hrooted, hsize, hrep, hisLink, hfirm, hdeps⟩

/-- What is no link may become anything else that is none. -/
theorem steady_of_kinds {f g : Forest} (h : f.Rooted) (hsize : f.size ≤ g.size)
    (hkind : ∀ t, g.kind t = f.kind t ∨
      (f.kind t).isLink = false ∧ (g.kind t).isLink = false ∧ (g.kind t = .var → f.kind t = .var))
    (hdeps : ∀ t n, n ∈ f.deps t → n ∈ g.deps t) : Steady f g := by
  apply steady_of_links h hsize
  · intro t u hu
    rcases hkind t with e | ⟨-, hg, -⟩
    · exact Or.inl (e ▸ hu)
    · rw [hu] at hg
      cases hg
  · intro t
    rcases hkind t with e | ⟨hf, hg, -⟩
    · rw [e]
    · rw [hf, hg]
  · intro t ht
    rcases hkind t with e | ⟨-, -, hvar⟩
    · rw [← e, ht]
    · exact hvar ht
  · exact hdeps

/-! ## Evolution -/

/-- Merged terms stay merged, links stay links, no registered node is lost, and a class that is no
variable never becomes one. -/
structure Evolves (f g : Forest) : Prop where
  grows : Grows f g
  link : ∀ t, (f.kind t).isLink = true → (g.kind t).isLink = true
  firm : ∀ t, f.kind (f.rep t) ≠ .var → g.kind (g.rep t) ≠ .var

/-- A forest that is steady grows. -/
theorem Steady.grows {f g : Forest} (h : Steady f g) : Grows f g where
  rooted := h.rooted
  size := h.size
  rep t u htu := by rw [h.rep, h.rep, htu]
  deps t n hn := by
    rw [h.rep]
    exact h.deps _ n hn

/-- It evolves. -/
theorem Steady.evolves {f g : Forest} (h : Steady f g) : Evolves f g where
  grows := h.grows
  link t ht := by rw [h.isLink, ht]
  firm t ht hvar := by
    rw [h.rep] at hvar
    exact ht (h.firm _ hvar)

/-- A forest evolves from itself. -/
theorem Evolves.refl {f : Forest} (h : f.Rooted) : Evolves f f := (Steady.refl h).evolves

/-- Forests evolve in turn. -/
theorem Evolves.trans {f g h : Forest} (hfg : Evolves f g) (hgh : Evolves g h) : Evolves f h where
  grows := hfg.grows.trans hgh.grows
  link t ht := hgh.link t (hfg.link t ht)
  firm t ht := hgh.firm t (hfg.firm t ht)

/-- A term goes where its representative goes. -/
theorem Evolves.rep_rep {f g : Forest} (h : Evolves f g) (hf : f.Rooted) (t : TermId) :
    g.rep (f.rep t) = g.rep t :=
  h.grows.rep _ _ (Forest.rep_rep hf t)

/-- A merge is an evolution, unless it gives a known type up for a variable. -/
theorem evolves_link {f : Forest} {loser winner : TermId} (h : f.Rooted)
    (hloser : (f.kind loser).isLink = false) (hwinner : (f.kind winner).isLink = false)
    (hne : loser ≠ winner) (hl : loser < f.size) (hw : winner < f.size)
    (hvar : f.kind winner = .var → f.kind loser = .var) : Evolves f (f.link loser winner) where
  grows := link_grows h hloser hwinner hne hl hw
  link t ht := by
    rw [kind_link hl]
    split
    · rfl
    · exact ht
  firm t ht := by
    rw [rep_link_eq h hloser hwinner hne hl hw, kind_link hl]
    split
    · rename_i e
      exact fun hw => ht (by rw [e]; exact hvar hw)
    · rename_i e
      rw [if_neg (Ne.symm e)]
      exact ht

/-! ## Counting classes -/

/-- The classes of their own among the first terms. -/
def roots (f : Forest) (upto : Nat) : Finset TermId :=
  (Finset.range (min upto f.size)).filter fun t => (f.kind t).isLink = false

/-- The roots below a bound are the terms below it that are no links. -/
theorem mem_roots {f : Forest} {upto : Nat} {t : TermId} :
    t ∈ f.roots upto ↔ (t < upto ∧ t < f.size) ∧ (f.kind t).isLink = false := by
  rw [roots, Finset.mem_filter, Finset.mem_range, Nat.lt_min]

/-- The classes below a bound are counted by their roots. -/
theorem classes_eq_card (f : Forest) (upto : Nat) : f.classes upto = (f.roots upto).card := by
  unfold classes
  rw [Array.foldl_eq_foldl_extract, ← Array.foldl_toList, Array.toList_extract]
  simp only [List.extract, List.drop_zero, Nat.sub_zero]
  induction upto with
  | zero => simp [roots]
  | succ n ih =>
    rw [List.take_add_one, List.foldl_append, ih, Array.getElem?_toList]
    by_cases hn : n < f.size
    · have hterm : f.terms[n]? = some f.terms[n] := Array.getElem?_eq_getElem hn
      have hkind : f.kind n = f.terms[n].kind := by rw [kind, hterm]
      have hroots : f.roots (n + 1) =
          if (f.kind n).isLink then f.roots n else insert n (f.roots n) := by
        ext t
        split
        · rename_i hlink
          rw [mem_roots, mem_roots]
          have : (f.kind t).isLink = false → t ≠ n := by
            rintro ht rfl
            rw [hlink] at ht
            cases ht
          grind
        · rename_i hlink
          rw [Finset.mem_insert, mem_roots, mem_roots]
          grind
      have hfresh : n ∉ f.roots n := fun hmem => Nat.lt_irrefl n (mem_roots.1 hmem).1.1
      rw [hterm, hroots, hkind]
      cases hlink : f.terms[n].kind.isLink with
      | true => simp [hlink]
      | false => simp [hlink, Finset.card_insert_of_notMem hfresh]
    · have hnone : f.terms[n]? = none := Array.getElem?_eq_none (Nat.le_of_not_lt hn)
      have hroots : f.roots (n + 1) = f.roots n := by
        ext t
        rw [mem_roots, mem_roots]
        refine and_congr_left fun _ => ⟨fun ht => ⟨?_, ht.2⟩, fun ht => ⟨?_, ht.2⟩⟩
        · exact Nat.lt_of_lt_of_le ht.2 (Nat.le_of_not_lt hn)
        · exact Nat.lt_succ_of_lt ht.1
      rw [hnone, hroots]
      rfl

/-- Among the terms that exist there are never more classes later on. -/
theorem Evolves.classes_le {f g : Forest} (h : Evolves f g) {upto : Nat} (hle : upto ≤ f.size) :
    g.classes upto ≤ f.classes upto := by
  rw [classes_eq_card, classes_eq_card]
  apply Finset.card_le_card
  intro t ht
  obtain ⟨⟨hlt, -⟩, hroot⟩ := mem_roots.1 ht
  refine mem_roots.2 ⟨⟨hlt, Nat.lt_of_lt_of_le hlt hle⟩, ?_⟩
  cases hk : (f.kind t).isLink with
  | false => rfl
  | true =>
    rw [h.link t hk] at hroot
    cases hroot

/-! ## Sound forests -/

/-- All links lead to a class, all children are terms, and every term is a class of its own or was
merged once. -/
structure Sound (f : Forest) : Prop where
  rooted : f.Rooted
  inRange : ∀ t, ∀ x ∈ (f.kind t).children, x < f.size
  counted : f.unions + f.classes f.size = f.size

/-- A forest without terms is sound. -/
theorem sound_empty : Sound empty where
  rooted := ⟨fun _ => 0, fun t u hu => by cases hu⟩
  inRange t x hx := by cases hx
  counted := rfl

/-- A child in a slot is a term, and so is its representative. -/
theorem Sound.child_lt {f : Forest} (h : f.Sound) {t x : TermId} {slot : Slot}
    (hx : (f.kind t).child? slot = some x) : x < f.size :=
  h.inRange t x (Kind.mem_children_of_child? hx)

/-- A steady change of the terms that there are keeps a forest sound, as far as children go. -/
theorem Sound.of_steady {f g : Forest} (h : f.Sound) (hs : Steady f g) (hsize : g.size = f.size)
    (hunions : g.unions = f.unions) (hrange : ∀ t, ∀ x ∈ (g.kind t).children, x < f.size) :
    g.Sound where
  rooted := hs.rooted
  inRange t x hx := by
    rw [hsize]
    exact hrange t x hx
  counted := by
    have hroots : g.roots g.size = f.roots f.size := by
      ext t
      rw [mem_roots, mem_roots, hsize, hs.isLink]
    rw [classes_eq_card, hroots, ← classes_eq_card, hunions, hsize, h.counted]

/-- A new term that is no link leaves the old ones alone. -/
theorem steady_add {f : Forest} (h : f.Rooted) {term : Term} (hlink : term.kind.isLink = false) :
    Steady f (f.add term).2 := by
  apply steady_of_kinds h
  · rw [size_add]
    exact Nat.le_succ _
  · intro t
    rw [kind_add]
    split
    · rename_i e
      have hvar := kind_of_size_le e.ge
      exact Or.inr ⟨by rw [hvar]; rfl, hlink, fun _ => hvar⟩
    · exact Or.inl rfl
  · intro t n hn
    rw [deps_add, if_neg (Nat.ne_of_lt (lt_size_of_deps hn))]
    exact hn

/-- A new term that is made of old ones keeps a forest sound. -/
theorem Sound.add {f : Forest} (h : f.Sound) {term : Term} (hlink : term.kind.isLink = false)
    (hrange : ∀ x ∈ term.kind.children, x < f.size) : (f.add term).2.Sound where
  rooted := (steady_add h.rooted hlink).rooted
  inRange t x hx := by
    rw [size_add]
    rw [kind_add] at hx
    split at hx
    · exact Nat.lt_succ_of_lt (hrange x hx)
    · exact Nat.lt_succ_of_lt (h.inRange t x hx)
  counted := by
    have hroots : (f.add term).2.roots (f.size + 1) = insert f.size (f.roots f.size) := by
      ext t
      rw [Finset.mem_insert, mem_roots, mem_roots, size_add, kind_add]
      split
      · rename_i e
        simp [e, hlink]
      · grind
    have hfresh : f.size ∉ f.roots f.size := fun hmem => Nat.lt_irrefl _ (mem_roots.1 hmem).1.1
    have hunions : (f.add term).2.unions = f.unions := rfl
    rw [size_add, classes_eq_card, hroots, Finset.card_insert_of_notMem hfresh, ← classes_eq_card,
      hunions, ← Nat.add_assoc, h.counted]

private theorem unions_link (f : Forest) (loser winner : TermId) :
    (f.link loser winner).unions = f.unions + 1 := by
  have hlink : (f.link loser winner).unions = (f.handOver loser winner).unions + 1 := rfl
  rw [hlink, handOver, unions_addDeps]
  rfl

/-- So does linking two classes. -/
theorem Sound.link {f : Forest} (h : f.Sound) {loser winner : TermId}
    (hloser : (f.kind loser).isLink = false) (hwinner : (f.kind winner).isLink = false)
    (hne : loser ≠ winner) (hl : loser < f.size) (hw : winner < f.size) :
    (f.link loser winner).Sound where
  rooted := rooted_link h.rooted hloser hwinner hne hl hw
  inRange t x hx := by
    rw [size_link]
    rw [kind_link hl] at hx
    split at hx
    · rw [List.mem_singleton.1 hx]
      exact hw
    · exact h.inRange t x hx
  counted := by
    have hroots : (f.link loser winner).roots f.size = (f.roots f.size).erase loser := by
      ext t
      rw [Finset.mem_erase, mem_roots, mem_roots, size_link, kind_link hl]
      split
      · rename_i e
        simp [e, Kind.isLink]
      · rename_i e
        simp [Ne.symm e]
    have hmem : loser ∈ f.roots f.size := mem_roots.2 ⟨⟨hl, hl⟩, hloser⟩
    have hpos : 0 < (f.roots f.size).card := Finset.card_pos.2 ⟨loser, hmem⟩
    have hcounted := h.counted
    rw [classes_eq_card] at hcounted
    rw [size_link, classes_eq_card, hroots, Finset.card_erase_of_mem hmem, unions_link]
    omega

end Forest

end TypeFlow
