import TypeFlow.Proofs.SeatedUses

/-!
# Definitions that share nothing with their uses

A definition whose type is a tree is instantiated for a use that has nothing in common with it.  What has the place
of a known class in the use has no other place where anything is done to it: that of another known class, of a
wrapper, or of a variable that occurs more than once.  Then the use can be laid out: what has the place of a class
that is known and no wrapper gets its seat, and it does not matter where else it lies.  So the use is an instance
afterwards, whatever is known of it, and that is in place if wrappers come to an end still.

Main definitions:

- `Forest.Lies`: a class of the use lies where the definition has a place.
- `Forest.Unshared`: a definition that is a tree, and that a use can be laid out for.
- `Forest.Facing`: two classes have the same place in a definition and in an instance.

Main results:

- `Forest.Unshared.laid`: the use is laid out at first.
- `Forest.Unshared.inPlace`: the use has an instance in place afterwards.
-/

namespace TypeFlow

namespace Forest

variable {f : Forest} {t a b c d e x y : TermId} {slot : Slot} {z : Zone} {zone : TermId → Zone}

/-! ## Places in types -/

/-- Where what a class has in a slot lies, told by where the class does.  Below a seat it lies where the definition
has its place, and below anything else where the whole does. -/
noncomputable def zoneBelow (f : Forest) (d : TermId) : Zone → Slot → Zone
  | .seat a, slot => f.childPlace d a slot
  | z, _ => z

/-- The class lies in the zone in the type of a use of the definition.  If there is more than one way to it, it may
lie in more than one zone. -/
inductive Lies (f : Forest) (d e : TermId) : Zone → TermId → Prop
  | root : Lies f d e (f.place d d) e
  | child {z : Zone} {c x : TermId} {slot : Slot} (h : Lies f d e z c) (hx : (f.kind c).child? slot = some x) :
    Lies f d e (f.zoneBelow d z slot) (f.rep x)

/-- Where nothing is barred, nothing below is. -/
theorem zoneBelow_ne_barred (hz : z ≠ .barred) (slot : Slot) : f.zoneBelow d z slot ≠ .barred := by
  cases z with
  | seat a => exact childPlace_ne_barred f d a slot
  | _ => exact hz

namespace Lies

/-- What lies somewhere is led to. -/
theorem reaches (h : f.Lies d e z c) : f.Reaches e c := by
  induction h with
  | root => exact .refl
  | child _ hx ih => exact ih.tail ⟨_, _, hx, rfl⟩

/-- Nothing of a use lies where it is barred. -/
theorem ne_barred (h : f.Lies d e z c) : z ≠ .barred := by
  induction h with
  | root => exact place_ne_barred f d d
  | child _ _ ih => exact zoneBelow_ne_barred ih _

/-- A use without children lies where the definition has its place, and nothing else does anywhere. -/
theorem of_children (h : f.Lies d e z c) (hchildren : (f.kind e).children = []) : z = f.place d d ∧ c = e := by
  induction h with
  | root => exact ⟨rfl, rfl⟩
  | child _ hx ih =>
    have hmem := Kind.mem_children_of_child? hx
    rw [ih.2, hchildren] at hmem
    cases hmem

end Lies

/-! ## Definitions and uses that share nothing -/

/-- The definition is a tree of which nothing occurs in the use or in pinned types.  What lies in the seat of a class
in the use lies nowhere else but outside, and it is no wrapper if nothing is known of a base type but that. -/
structure Unshared (f : Forest) (definition use : TermId) (pinned : List TermId) : Prop where
  tree : f.Tree (f.rep definition)
  apart : ∀ a, f.Reaches (f.rep definition) a → ¬f.Reaches (f.rep use) a
  unreached : ∀ a, f.Reaches (f.rep definition) a → ¬f.ReachedFrom pinned a
  lone : ∀ a z c, f.Lies (f.rep definition) (f.rep use) (.seat a) c → f.Lies (f.rep definition) (f.rep use) z c →
    z = .seat a ∨ z = .outside
  plain : ∀ a c, f.kind a = .base .any → f.Lies (f.rep definition) (f.rep use) (.seat a) c →
    (f.kind c).isNilable = false

open Classical in
/-- The zone of a term at first: a seat if it lies in one, and outside if it lies nowhere else. -/
noncomputable def firstZone (f : Forest) (d e t : TermId) : Zone :=
  if ∃ a, f.Reaches d a ∧ f.Reaches (f.rep t) a then .barred
  else if h : ∃ a, f.Lies d e (.seat a) (f.rep t) then .seat h.choose
  else if f.Lies d e .free (f.rep t) then .free
  else if t < f.size then .outside else .free

private theorem admits_link (hzone : zone x = z) (hbarred : z ≠ .barred) : f.Admits d zone z (.link x) := by
  have hmem : ∀ y ∈ (Kind.link x).children, zone y = z := fun y hy => by rw [List.mem_singleton.1 hy, hzone]
  cases z with
  | free => exact hmem
  | seat a =>
    exact ⟨fun y hy => by cases hy; exact hzone, fun slot y hy => (by cases slot <;> cases hy),
      fun hk => (by cases hk)⟩
  | outside =>
    intro y hy
    rw [hmem y hy]
    exact Zone.noConfusion
  | barred => exact absurd rfl hbarred

/-- What leads to the definition is barred, and nothing else. -/
theorem firstZone_eq_barred : f.firstZone d e t = .barred ↔ ∃ a, f.Reaches d a ∧ f.Reaches (f.rep t) a := by
  unfold firstZone
  split
  · exact iff_of_true rfl ‹_›
  · refine iff_of_false ?_ ‹_›
    split
    · exact Zone.noConfusion
    · split
      · exact Zone.noConfusion
      · split <;> exact Zone.noConfusion

/-- What is not barred and does not lie in a seat or where everything is free is outside. -/
private theorem firstZone_cases (hbarred : f.firstZone d e t ≠ .barred) (ht : t < f.size) :
    f.firstZone d e t = .outside ∨ f.Lies d e (f.firstZone d e t) (f.rep t) := by
  rw [Ne, firstZone_eq_barred] at hbarred
  unfold firstZone
  rw [if_neg hbarred, if_pos ht]
  split
  · rename_i hseat
    exact Or.inr hseat.choose_spec
  · split
    · exact Or.inr ‹_›
    · exact Or.inl rfl

namespace Unshared

variable {definition use : TermId} {pinned : List TermId} (h : f.Unshared definition use pinned)

omit h in
/-- A record of variables shares nothing with a use without children. -/
theorem of_variables (hf : f.Rooted) (hrecord : (f.kind (f.rep definition)).isRecord = true)
    (hvars : ∀ x ∈ (f.kind (f.rep definition)).children, f.kind (f.rep x) = .var)
    (hchildren : (f.kind (f.rep use)).children = [])
    (hapart : ∀ a, f.Reaches (f.rep definition) a → ¬f.Reaches (f.rep use) a)
    (hunreached : ∀ a, f.Reaches (f.rep definition) a → ¬f.ReachedFrom pinned a) :
    f.Unshared definition use pinned where
  tree := .of_variables (not_isLink_rep hf _) (fun hvar => by rw [hvar] at hrecord; cases hrecord)
    (Kind.plain_of_isRecord hrecord).2 hvars
  apart := hapart
  unreached := hunreached
  lone a z c hc hc' := Or.inl ((hc'.of_children hchildren).1.trans (hc.of_children hchildren).1.symm)
  plain a c _ hc := by
    rw [(hc.of_children hchildren).2]
    cases hk : f.kind (f.rep use) <;> rw [hk] at hchildren <;> first | rfl | cases hchildren

/-- The definition is barred. -/
theorem firstZone_definition (hf : f.Rooted) (ha : f.Reaches (f.rep definition) a) :
    f.firstZone (f.rep definition) use a = .barred :=
  if_pos ⟨a, ha, by rw [ha.rep_eq hf (rep_rep hf definition)]; exact .refl⟩

include h

/-- The use does not lead to the definition. -/
private theorem firstZone_ne_barred (hc : f.Reaches (f.rep use) (f.rep t)) :
    f.firstZone (f.rep definition) (f.rep use) t ≠ .barred := fun hbarred => by
  obtain ⟨a, ha, hta⟩ := firstZone_eq_barred.1 hbarred
  exact h.apart a ha (hc.trans hta)

/-- What lies somewhere may stand there at first. -/
theorem firstZone_allows (hc : f.Lies (f.rep definition) (f.rep use) z (f.rep t)) :
    z.Allows (f.firstZone (f.rep definition) (f.rep use) t) := by
  have hbarred := h.firstZone_ne_barred hc.reaches
  cases z with
  | outside => exact hbarred
  | barred => exact absurd rfl hc.ne_barred
  | seat a =>
    have hex : ∃ b, f.Lies (f.rep definition) (f.rep use) (.seat b) (f.rep t) := ⟨a, hc⟩
    have hzone : f.firstZone (f.rep definition) (f.rep use) t = .seat hex.choose := by
      rw [Ne, firstZone_eq_barred] at hbarred
      rw [firstZone, if_neg hbarred, dif_pos hex]
    exact hzone.trans ((h.lone a _ _ hc hex.choose_spec).resolve_right Zone.noConfusion)
  | free =>
    rw [Ne, firstZone_eq_barred] at hbarred
    have hnone : ¬∃ b, f.Lies (f.rep definition) (f.rep use) (.seat b) (f.rep t) := fun ⟨b, hb⟩ =>
      (h.lone b _ _ hb hc).elim Zone.noConfusion Zone.noConfusion
    exact (if_neg hbarred).trans ((dif_neg hnone).trans (if_pos hc))

/-- A class of the use has a kind that the zone where it lies admits. -/
private theorem admits_lies (hlink : (f.kind c).isLink = false)
    (hc : f.Lies (f.rep definition) (f.rep use) z c) :
    f.Admits (f.rep definition) (f.firstZone (f.rep definition) (f.rep use)) z (f.kind c) := by
  cases z with
  | barred => trivial
  | seat a =>
    refine ⟨fun x hx => ?_, fun slot x hx => h.firstZone_allows (hc.child hx), fun hnilable hany => ?_⟩
    · rw [hx] at hlink
      cases hlink
    · rw [h.plain a c hany hc] at hnilable
      cases hnilable
  | _ =>
    intro x hx
    obtain ⟨slot, hslot⟩ := (Kind.mem_children hlink).1 hx
    exact h.firstZone_allows (hc.child hslot)

/-- The use is laid out in zones. -/
theorem zoned (hf : f.Sound) : f.Zoned (f.rep definition) (f.firstZone (f.rep definition) (f.rep use)) f := by
  intro t
  have hrooted := hf.rooted
  by_cases hbarred : f.firstZone (f.rep definition) (f.rep use) t = .barred
  · rw [hbarred]
    trivial
  by_cases hlt : t < f.size
  swap
  · rw [kind_of_size_le (Nat.le_of_not_lt hlt)]
    exact admits_var _
  cases hlink : (f.kind t).isLink with
  | true =>
    -- A link belongs where what it leads to belongs.
    obtain ⟨x, hx⟩ := Kind.isLink_eq_true.1 hlink
    have hlt' : x < f.size := hf.inRange t x (by rw [hx]; exact List.mem_singleton_self x)
    have hzone : f.firstZone (f.rep definition) (f.rep use) x = f.firstZone (f.rep definition) (f.rep use) t := by
      unfold firstZone
      rw [rep_link hrooted hx]
      simp only [hlt, hlt', if_true]
    rw [hx]
    exact admits_link hzone hbarred
  | false =>
    have hroot : f.rep t = t := rep_of_not_link hlink
    rcases firstZone_cases hbarred hlt with houtside | hlies
    · -- Nothing that a class leads to leads to the definition if it does not.
      rw [houtside]
      intro x hx hbarred'
      rw [firstZone_eq_barred, hroot] at hbarred
      obtain ⟨slot, hslot⟩ := (Kind.mem_children hlink).1 hx
      obtain ⟨a, ha, hxa⟩ := firstZone_eq_barred.1 hbarred'
      exact hbarred ⟨a, ha, .head ⟨slot, x, hslot, rfl⟩ hxa⟩
    · rw [hroot] at hlies
      exact h.admits_lies hlink hlies

end Unshared

/-! ## Classes in the same place -/

/-- The classes have the same place in a definition of the first forest and in a term of the second one. -/
inductive Facing (f g : Forest) : TermId → TermId → TermId → TermId → Prop
  | here {a b : TermId} : Facing f g a b a b
  | child {a b x y c e : TermId} {k : Kind} {slot : Slot} (hk : g.Shows (fun _ => True) b k)
    (hx : (f.kind a).child? slot = some x) (hy : k.child? slot = some y)
    (h : Facing f g (f.rep x) (g.rep y) c e) : Facing f g a b c e

namespace Facing

variable {g : Forest} {e e' : TermId} {k : Kind}

/-- What has a place in the definition it leads to. -/
theorem reaches (h : Facing f g a b c e) : f.Reaches a c := by
  induction h with
  | here => exact .refl
  | child _ hx _ _ ih => exact .head ⟨_, _, hx, rfl⟩ ih

/-- What has a place in a class it leads to. -/
theorem reaches' (hg : g.Rooted) (hb : g.rep b = b) (h : Facing f g a b c e) : g.Reaches b e := by
  induction h with
  | here => exact .refl
  | child hk _ hy _ ih =>
    have hreach := hk.reaches hy
    rw [hb] at hreach
    exact hreach.trans (ih (rep_rep hg _))

/-- Children of classes in the same place have the same place. -/
theorem tail (h : Facing f g a b c e) (hk : g.Shows (fun _ => True) e k) (hx : (f.kind c).child? slot = some x)
    (hy : k.child? slot = some y) : Facing f g a b (f.rep x) (g.rep y) := by
  induction h with
  | here => exact .child hk hx hy .here
  | child hk' hx' hy' _ ih => exact .child hk' hx' hy' (ih hk hx)

/-- One class has the place of the root of a tree. -/
theorem eq_of_root (htree : f.Tree a) (h : Facing f g a b a e) : e = b := by
  cases h with
  | here => rfl
  | child _ hx _ h => exact absurd h.reaches (htree.acyclic hx)

/-- One class has the place of what is no variable of a tree, or is wrapped there. -/
theorem unique (htree : f.Tree a) (hnever : ¬f.NeverWrapped a c) (h : Facing f g a b c e) (h' : Facing f g a b c e') :
    e' = e := by
  induction h with
  | here => exact h'.eq_of_root htree
  | @child a b x y c e k slot hk hx hy h ih =>
    cases h' with
    | here => exact absurd h.reaches (htree.acyclic hx)
    | @child _ _ x' y' _ _ k' slot' hk' hx' hy' h' =>
      by_cases heq : slot = slot'
      · subst heq
        cases hk.unique hk'
        cases hx.symm.trans hx'
        cases hy.symm.trans hy'
        by_cases hroot : f.rep x = c
        · subst hroot
          rw [h.eq_of_root (htree.child hx), h'.eq_of_root (htree.child hx)]
        · exact ih (htree.child hx) (fun hb => hnever (htree.neverWrapped_of_child hx h.reaches hroot hb)) h'
      · exact absurd (htree.neverWrapped heq hx hx' h.reaches h'.reaches) hnever

end Facing

end Forest

open Forest (Facing Template Zone)

namespace Unifier

variable {f : Forest} {d : TermId} {pinned : List TermId} {zone : TermId → Zone} {u : Unifier}
  {a b c e x y : TermId} {k : Kind} {slot : Slot}

namespace Seated

/-- Children of an instance are instances, if it is not one of a wrapper. -/
theorem child (hnilable : (f.kind a).isNilable = false) (h : Seated f zone u True a b)
    (hk : u.forest.Shows (fun _ => True) b k) (hx : (f.kind a).child? slot = some x) (hy : k.child? slot = some y) :
    Seated f zone u True (f.rep x) y := by
  cases h with
  | image hvar =>
    rw [hvar] at hx
    cases slot <;> cases hx
  | dead _ hdead =>
    obtain ⟨cause, hcause⟩ := Kind.isError_iff.1 hdead
    cases hk.unique (.known (C := fun _ => True) trivial hcause rfl)
    cases slot <;> cases hy
  | twin _ htwin =>
    cases htwin with
    | intro hk' _ _ _ hchildren =>
      cases hk.unique hk'
      exact .twin trivial (hchildren slot x y hx hy)
  | nilable hwrapper =>
    rw [hnilable] at hwrapper
    cases hwrapper
  | known _ hk' _ hchildren =>
    cases hk.unique hk'
    exact hchildren slot x y hx hy

/-- Only its image is an instance of a variable. -/
theorem image_of_var (h : Seated f zone u True a b) (hvar : f.kind a = .var) :
    ∃ c, u.image.lookup a = some c ∧ u.forest.rep c = u.forest.rep b := by
  cases h with
  | image _ hc hrep => exact ⟨_, hc, hrep⟩
  | dead hknown => exact absurd hvar hknown
  | twin _ htwin => exact absurd hvar (htwin.ne_var .refl)
  | nilable hwrapper =>
    rw [hvar] at hwrapper
    cases hwrapper
  | known hknown => exact absurd hvar hknown

/-- What has a place in an instance is an instance, or stands for a variable that is wrapped. -/
theorem facing (hs : u.Sound) (htree : f.Tree a) (h : Seated f zone u True a b)
    (hfacing : Facing f u.forest a b c e) : Seated f zone u True c e ∨ f.kind c = .var ∧ ¬f.NeverWrapped a c := by
  induction hfacing with
  | here => exact Or.inl h
  | @child a b x y c e k slot hk hx hy hrest ih =>
    cases hnilable : (f.kind a).isNilable with
    | false =>
      have hchild := (h.child hnilable hk hx hy).of_rep (Forest.rep_rep hs.forest.rooted _).symm
      exact (ih (htree.child hx) hchild).imp_right fun ⟨hvar, hnever⟩ =>
        ⟨hvar, fun hb => hnever (hb.of_reaches (.single ⟨slot, x, hx, rfl⟩))⟩
    | true =>
      obtain ⟨v, hv⟩ := Kind.isNilable_eq_true.1 hnilable
      rw [hv] at hx
      cases slot <;> cases hx
      have hvar := htree.wraps (by rw [hv]; rfl : (f.kind a).child? .inner = some x)
      obtain rfl := hrest.reaches.eq_of_var hvar
      exact Or.inr ⟨hvar, fun hb => hb.2 a x .refl hv rfl⟩

/-- An instance is enough for its class. -/
theorem enough (hf : f.Template d pinned) (hu : Laid f d pinned zone u) (ha : f.Reaches d a)
    (h : Seated f zone u True a b) (hk : u.forest.Shows (fun _ => True) b k) :
    u.forest.AlikeFor a b ∨ (u.forest.kind a).Suffices u.forest.Dead k := by
  have hsame := hu.stands.same a ha
  cases h with
  | image hvar =>
    rw [hvar] at hsame
    rw [Kind.isVar_iff.1 hsame.isVar]
    exact Or.inr (.var k)
  | dead _ hdead =>
    obtain ⟨cause, hcause⟩ := Kind.isError_iff.1 hdead
    rw [hk.unique (.known (C := fun _ => True) trivial hcause rfl)]
    exact Or.inr (.error _ cause)
  | twin _ htwin => exact Or.inl (htwin.alikeFor hf.tree ha hu.sound.forest.rooted hu.stands)
  | nilable hwrapper hb =>
    exact Or.inr (.of_takesNil (hsame.isNilable.trans hwrapper) (hb.shows hu.sound.forest.rooted hk))
  | known _ hk' hechoes =>
    rw [hk.unique hk']
    refine Or.inr (.echoes (hechoes.of_same (fun y y' hyy hy => ?_) hsame rfl))
    rw [Forest.Dead, hyy]
    exact hy

/-- A class has an instance that is no error only if it is none itself. -/
theorem isError (h : Seated f zone u True a b) (hk : u.forest.Shows (fun _ => True) b k)
    (hplain : k.isError = false) : (f.kind a).isError = false := by
  cases h with
  | image hvar => rw [hvar]; rfl
  | dead _ hdead =>
    obtain ⟨cause, hcause⟩ := Kind.isError_iff.1 hdead
    rw [hk.unique (.known (C := fun _ => True) trivial hcause rfl)] at hplain
    cases hplain
  | twin _ htwin =>
    cases htwin with
    | intro hk' hnode =>
      rw [← Kind.isError_eq_of_shape (Forest.shape_of_sameNode hnode), ← hk.unique hk', hplain]
  | nilable hwrapper =>
    obtain ⟨x, hx⟩ := Kind.isNilable_eq_true.1 hwrapper
    rw [hx]
    rfl
  | known _ hk' hechoes => rw [← Kind.isError_eq_of_shape hechoes.shape, ← hk.unique hk', hplain]

/-- An instance is in place if wrappers come to an end. -/
theorem inPlace (hf : f.Template d pinned) (hu : Laid f d pinned zone u) (hb : u.forest.IsClass b)
    (hends : ∀ c, u.forest.Reaches b c → u.forest.Ends c) (hopens : u.forest.Opens pinned)
    (h : Seated f zone u True d b) : u.forest.InPlace pinned (Facing f u.forest d b) := by
  have hrooted := hu.sound.forest.rooted
  have hroot : ∀ {a c}, Facing f u.forest d b a c → u.forest.rep c = c := fun hfacing =>
    (hfacing.reaches' hrooted hb.rep_eq).rep_eq hrooted hb.rep_eq
  refine ⟨⟨fun a c hfacing => ?_, fun a c hfacing => ?_, fun a c hfacing => ?_, fun a c hfacing => ?_,
    fun a c hfacing _ slot x hx => ?_, fun a c hfacing _ k hk slot x y hx hy => ?_⟩,
    fun a c c' hfacing hfacing' => ?_, fun a c k hfacing _ hk hplain => ?_, fun a c k hfacing _ hk => ?_⟩
  · exact ⟨hu.lt_of_reaches hf hfacing.reaches, (hfacing.reaches' hrooted hb.rep_eq).lt_size hu.sound.forest hb.lt⟩
  · exact hu.stands.calm hfacing.reaches (hf.tree.reaches hfacing.reaches)
  · rw [← hroot hfacing]
    exact Forest.not_isLink_rep hrooted c
  · exact hends c (hfacing.reaches' hrooted hb.rep_eq)
  · obtain ⟨x', hx', hxx⟩ := hu.stands.child_of hfacing.reaches hx
    have hreach := hfacing.reaches.tail ⟨slot, x', hx', rfl⟩
    refine Forest.Calm.ends ?_
    rw [hxx]
    exact hu.stands.calm hreach (hf.tree.reaches hreach)
  · obtain ⟨x', hx', hxx⟩ := hu.stands.child_of hfacing.reaches hx
    rw [hxx]
    exact hfacing.tail hk hx' hy
  · -- A variable that is wrapped has one place, and any other one an image.
    by_cases hnever : f.NeverWrapped d a
    · obtain ⟨x, hx, hrep⟩ := ((h.facing hu.sound hf.tree hfacing).resolve_right fun hnot =>
        hnot.2 hnever).image_of_var hnever.1
      obtain ⟨x', hx', hrep'⟩ := ((h.facing hu.sound hf.tree hfacing').resolve_right fun hnot =>
        hnot.2 hnever).image_of_var hnever.1
      cases hx.symm.trans hx'
      rw [← hroot hfacing, ← hroot hfacing', ← hrep, ← hrep']
    · exact hfacing.unique hf.tree hnever hfacing'
  · refine ⟨hopens, ?_⟩
    have herror : (f.kind a).isError = false := by
      rcases h.facing hu.sound hf.tree hfacing with hseated | ⟨hvar, -⟩
      · exact hseated.isError hk hplain
      · rw [hvar]
        rfl
    rcases hu.definition a hfacing.reaches with hbarred | hdead
    · exact hu.not_reachedFrom hbarred
    · rw [herror] at hdead
      cases hdead.1
  · rcases h.facing hu.sound hf.tree hfacing with hseated | ⟨hvar, -⟩
    · exact hseated.enough hf hu hfacing.reaches hk
    · have hsame := hu.stands.same a hfacing.reaches
      rw [hvar] at hsame
      rw [Kind.isVar_iff.1 hsame.isVar]
      exact Or.inr (.var k)

end Seated

end Unifier

namespace Forest.Unshared

open Unifier (Call Laid)

variable {f : Forest} {definition use : TermId} {pinned : List TermId} {depth : Nat} {r : Bool} {w : Worklist}
  {u : Unifier}

/-- The definition is a template. -/
theorem template (hf : f.Sound) (hdefinition : definition < f.size) (hpinned : ∀ t ∈ pinned, t < f.size)
    (h : f.Unshared definition use pinned) : f.Template (f.rep definition) pinned :=
  ⟨hf, rep_rep hf.rooted definition, rep_lt_size hf.rooted hdefinition, h.tree, hpinned⟩

/-- The use is laid out at first. -/
theorem laid (hf : f.Sound) (hdefinition : definition < f.size) (huse : use < f.size)
    (h : f.Unshared definition use pinned) :
    Laid f (f.rep definition) pinned (f.firstZone (f.rep definition) (f.rep use)) (Call.start f (some w)) where
  sound := Call.sound_start hf _
  commits := rfl
  size := le_rfl
  stands := .refl hf.rooted (rep_rep hf.rooted definition)
  zoned := h.zoned hf
  unborn t ht := by
    replace ht : f.size ≤ t := ht
    have hroot : f.rep t = t := rep_of_size_le ht
    have hout : ∀ {a}, f.Reaches (f.rep a) t → ¬a < f.size := fun hreach hlt =>
      absurd (hreach.lt_size hf (rep_lt_size hf.rooted hlt)) (Nat.not_lt.2 ht)
    rw [firstZone, hroot, if_neg, dif_neg fun ⟨_, hlies⟩ => hout hlies.reaches huse,
      if_neg fun hlies => hout hlies.reaches huse, if_neg (Nat.not_lt.2 ht)]
    rintro ⟨a, ha, hta⟩
    obtain rfl := hta.eq_of_var (kind_of_size_le ht)
    exact hout ha hdefinition
  definition a ha := Or.inl (firstZone_definition hf.rooted ha)
  pinned t ht hbarred := by
    obtain ⟨a, ha, hta⟩ := firstZone_eq_barred.1 hbarred
    exact h.unreached a ha ⟨t, ht, hta⟩
  keys p hp := absurd hp List.not_mem_nil
  image x c _ _ hc := by cases hc
  met p hp := absurd hp List.not_mem_nil

/-- The use has an instance in place afterwards, if wrappers come to an end. -/
theorem inPlace (hf : f.Sound) (hdefinition : definition < f.size) (huse : use < f.size)
    (hpinned : ∀ t ∈ pinned, t < f.size) (h : f.Unshared definition use pinned)
    (hrun : Unifier.instantiateWithin pinned depth definition use (Call.start f (some w)) = some (r, u))
    (hends : u.forest.EndsFrom (use :: pinned)) :
    ∃ R, u.forest.InPlace pinned R ∧ R (u.forest.rep definition) (u.forest.rep use) := by
  have htemplate := h.template hf hdefinition hpinned
  have hlaid := h.laid hf hdefinition huse (w := w)
  obtain ⟨zone, hworks, hseated⟩ := Unifier.instantiateWithin_visits htemplate depth _ _ definition use r u hlaid
    .refl huse (h.firstZone_allows .root) (fun x hx _ => ⟨rfl, firstZone_definition hf.rooted hx⟩) hrun
  have hu := hworks.laid
  have hrooted := hu.sound.forest.rooted
  have hroot : u.forest.rep definition = f.rep definition :=
    (hu.stands.later definition).symm.trans (hu.stands.rep _ .refl)
  refine ⟨_, (hseated.of_rep (rep_rep hrooted use).symm).inPlace htemplate hu
    (isClass_rep hu.sound.forest (Nat.lt_of_lt_of_le huse hworks.size))
    (fun c hc => hends c ⟨use, List.mem_cons_self, hc⟩)
    ⟨fun t ht => Nat.lt_of_lt_of_le (hpinned t ht) hu.size,
      fun c ⟨t, ht, hc⟩ => hends c ⟨t, List.mem_cons_of_mem use ht, hc⟩⟩, ?_⟩
  rw [hroot]
  exact .here

end Forest.Unshared

end TypeFlow
