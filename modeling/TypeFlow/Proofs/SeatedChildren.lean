import TypeFlow.Proofs.SeatedErrors

/-!
# Children in seats

A function or record of the use gets instances of the children of a class of the definition in turn.  What it has
in other slots is not touched by the work for one.  A field that it lacks is copied if it is open, and becomes an
error of both if the definition is open.  It loses the fields that a closed definition lacks, errors excepted, and
takes over function ids, sites and marks at the end.  Then it is an instance.

Main definitions:

- `Unifier.Visits`: a computation makes instances of uses.
- `Unifier.Furnished`: a use that has instances of the children in all but some slots.

Main results:

- `Unifier.instantiateSlots_furnishes`: the slots are done in turn.
- `Unifier.dropExtra_furnishes`: fields that a closed definition lacks are dropped.
- `Unifier.instantiateChildren_seats`: a use of the shape of the definition becomes an instance.
-/

namespace TypeFlow

namespace Kind

variable {k l m : Kind} {slot : Slot} {label : String} {y : TermId}

/-- What a field is set to. -/
theorem child?_setField (hk : k.isRecord = true) :
    (k.setChild (.field label) y).child? slot = if slot = .field label then some y else k.child? slot := by
  cases k <;> cases hk
  cases slot with
  | field l =>
    refine (Fields.find?_insert _ _ _ _ _).trans ?_
    by_cases e : label = l
    · rw [if_pos e, if_pos (congrArg Slot.field e.symm)]
    · rw [if_neg e, if_neg fun h => e (Slot.field.inj h).symm]
      rfl
  | _ => rfl

/-- Setting a field leaves the shape, and whether the record is open. -/
theorem setField_eq (label : String) (y : TermId) (hk : k.isRecord = true) :
    (k.setChild (.field label) y).shape = k.shape ∧ (k.setChild (.field label) y).isOpen = k.isOpen := by
  cases k <;> cases hk
  exact ⟨rfl, rfl⟩

/-- What is neither a variable nor a base type, wrapper, record or error is a function. -/
theorem isFunction_of_not (hlink : k.isLink = false) (hvar : k ≠ .var) (hbase : k.baseFlow? = none)
    (hnilable : k.isNilable = false) (hrecord : k.isRecord = false) (herror : k.isError = false) :
    k.isFunction = true := by
  cases k with
  | function => rfl
  | var => exact absurd rfl hvar
  | base => cases hbase
  | nilable => cases hnilable
  | record => cases hrecord
  | error => cases herror
  | link => cases hlink

/-- A record is no link and no wrapper. -/
theorem plain_of_isRecord (hk : k.isRecord = true) : k.isLink = false ∧ k.isNilable = false := by
  cases k <;> cases hk
  exact ⟨rfl, rfl⟩

/-- A record has children in fields only. -/
theorem exists_field_of_child? (hk : k.isRecord = true) (hy : k.child? slot = some y) :
    ∃ label, slot = .field label := by
  cases k <;> cases hk
  cases slot <;> first | exact ⟨_, rfl⟩ | cases hy

/-- There is a label for each field. -/
theorem mem_labels_of_child? (hy : k.child? (.field label) = some y) : label ∈ k.labels := by
  cases k with
  | record => exact Fields.mem_labels.2 (Option.isSome_of_eq_some hy)
  | _ => cases hy

/-- A kind of the shape of another is open only if it is a record as well. -/
theorem isOpen_of_not_record (hk : k.isRecord = false) : k.isOpen = false := by
  cases k <;> first | rfl | cases hk

/-- What is taken over changes no child, and nothing is left to be taken over then. -/
theorem refinedKind?_settles (k l : Kind) : ((Unifier.refinedKind? k l).getD l).shape = l.shape ∧
    (∀ slot, ((Unifier.refinedKind? k l).getD l).child? slot = l.child? slot) ∧
    Unifier.refinedKind? k ((Unifier.refinedKind? k l).getD l) = none ∧
    (l.isOpen = false → ((Unifier.refinedKind? k l).getD l).isOpen = false) := by
  cases hm : Unifier.refinedKind? k l with
  | none => exact ⟨rfl, fun _ => rfl, hm, id⟩
  | some m =>
    have habsorb : ∀ s t : IdSet, s.union (s.union t) = s.union t := fun s t =>
      IdSet.union_eq_right.2 fun x hx => IdSet.mem_union.2 (Or.inl hx)
    have hor : ∀ n m : Bool, (n || (n || m)) = (n || m) := by decide
    have hand : ∀ n m : Bool, (n && (n && m)) = (n && m) := by decide
    rw [Option.getD_some]
    cases k <;> cases l <;> simp only [Unifier.refinedKind?, Option.ite_none_right_eq_some, Option.some.injEq,
      reduceCtorEq] at hm
    all_goals
      obtain ⟨-, rfl⟩ := hm
      refine ⟨rfl, fun slot => by cases slot <;> rfl, ?_, ?_⟩
      · simp [Unifier.refinedKind?, habsorb, hor, hand]
      · simp +contextual [isOpen]

end Kind

open Forest (IsClass Steady Template Zone)

namespace Unifier

variable {f : Forest} {d : TermId} {pinned : List TermId} {A : TermId → Prop} {zone zone' : TermId → Zone}
  {s t u : Unifier} {a b c x y : TermId} {label : String} {slot : Slot} {slots rest : List Slot}
  {missing r : Bool}

/-- A known class of a seat that is not touched stays one of the same kind. -/
theorem Works.same (h : Works f d pinned A zone s zone' u)
    (hb : s.forest.IsClass b) (hzone : zone b = .seat a) (hA : ¬A a)
    (hnilable : (s.forest.kind b).isNilable = false) :
    u.forest.IsClass b ∧ (s.forest.kind b).Same u.forest.rep (u.forest.kind b) := by
  have hshows : s.forest.Shows (· = b) b (s.forest.kind b) := .known hb.rep_eq (by rw [hb.rep_eq]) hnilable
  obtain ⟨k, hk, hsame⟩ := h.shows _ b _ (fun c hc htouched => hA (by rwa [hc, hzone] at htouched)) hshows
  refine ⟨⟨Nat.lt_of_lt_of_le hb.lt h.size, ?_⟩, hk.eq_of_one.1 ▸ hsame⟩
  have hroot := Forest.not_isLink_rep h.laid.sound.forest.rooted b
  rwa [hk.rep_mem] at hroot

/-- The computation makes what belongs where a class of the definition has its place an instance of that. -/
def Visits (f : Forest) (d : TermId) (pinned : List TermId) (inst : TermId → TermId → UnifyM Bool) : Prop :=
  ∀ zone s x y r u, Laid f d pinned zone s → f.Reaches d (s.forest.rep x) → y < s.forest.size →
    (f.place d (s.forest.rep x)).Allows (zone y) → Vacant f d zone s (s.forest.rep x) → inst x y s = some (r, u) →
    ∃ zone', Works f d pinned (f.Reaches (s.forest.rep x)) zone s zone' u ∧
      Seated f zone' u True (s.forest.rep x) y

/-! ## Uses that are furnished -/

/-- A class of the seat has the shape of the class of the definition, which is no wrapper.  In all but some slots it
has instances of the children, or nothing where neither of the two is open.  If nothing was missing, it has no
other slots. -/
structure Furnished (f : Forest) (zone : TermId → Zone) (a : TermId) (slots : List Slot) (missing : Bool)
    (s : Unifier) (b : TermId) : Prop where
  isClass : s.forest.IsClass b
  seat : zone b = .seat a
  plain : (f.kind a).isNilable = false
  shape : (s.forest.kind b).shape = (f.kind a).shape
  done : ∀ slot x y, slot ∉ slots → (f.kind a).child? slot = some x → (s.forest.kind b).child? slot = some y →
    Seated f zone s True (f.rep x) y
  lacking : ∀ slot x, slot ∉ slots → (f.kind a).child? slot = some x → (s.forest.kind b).child? slot = none →
    (f.kind a).isOpen = false ∧ (s.forest.kind b).isOpen = false
  whole : missing = false → (s.forest.kind b).slots.length = (f.kind a).slots.length ∧
    ∀ slot ∈ (f.kind a).slots, slot ∉ slots → slot ∈ (s.forest.kind b).slots

namespace Furnished

/-- It is no wrapper. -/
theorem isNilable (h : Furnished f zone a slots missing s b) : (s.forest.kind b).isNilable = false := by
  rw [Kind.isNilable_eq_of_shape h.shape, h.plain]

/-- It stays so while other work is done. -/
theorem works (hs : Laid f d pinned zone s) (hworks : Works f d pinned A zone s zone' u)
    (ha : f.Reaches d a) (hA : ¬A a) (hapart : ∀ slot x, slot ∉ slots → (f.kind a).child? slot = some x →
      ∀ w, f.Reaches (f.rep x) w → f.Single d w → ¬A w) (h : Furnished f zone a slots missing s b) :
    Furnished f zone' a slots missing u b := by
  obtain ⟨hclass, hsame⟩ := hworks.same h.isClass h.seat hA h.isNilable
  refine ⟨hclass, hs.zone_of_works hworks h.seat, h.plain, hsame.shape.trans h.shape, fun slot x y hslot hx hy => ?_,
    fun slot x hslot hx hnone => ?_, fun hmissing => ?_⟩
  · obtain ⟨y', hy', hyy'⟩ := hsame.exists_child? hy
    exact ((h.done slot x y' hslot hx hy').works hs hworks (ha.tail ⟨slot, x, hx, rfl⟩)
      (hapart slot x hslot hx)).of_rep hyy'.symm
  · rw [hsame.isOpen]
    exact h.lacking slot x hslot hx (hsame.child?_eq_none.1 hnone)
  · rw [hsame.slots]
    exact h.whole hmissing

/-- The child in a slot is an instance now. -/
theorem fill (hx : (f.kind a).child? slot = some x) (hy : (s.forest.kind b).child? slot = some y)
    (hseated : Seated f zone s True (f.rep x) y) (h : Furnished f zone a (slot :: rest) missing s b) :
    Furnished f zone a rest missing s b := by
  have hother : ∀ {slot'}, slot' ∉ rest → slot' ≠ slot → slot' ∉ slot :: rest := fun hrest hne hmem =>
    (List.mem_cons.1 hmem).elim hne hrest
  refine { h with done := fun slot' x' y' hslot' hx' hy' => ?_, lacking := fun slot' x' hslot' hx' hnone => ?_,
                  whole := fun hmissing => ⟨(h.whole hmissing).1, fun slot' hmem hslot' => ?_⟩ }
  all_goals by_cases hne : slot' = slot
  · subst hne
    cases hx.symm.trans hx'
    cases hy.symm.trans hy'
    exact hseated
  · exact h.done slot' x' y' (hother hslot' hne) hx' hy'
  · subst hne
    cases hy.symm.trans hnone
  · exact h.lacking slot' x' (hother hslot' hne) hx' hnone
  · subst hne
    exact Kind.mem_slots.2 (Option.isSome_of_eq_some hy)
  · exact (h.whole hmissing).2 slot' hmem (hother hslot' hne)

/-- Nothing is done for a child that is missing if neither side is open. -/
theorem skip (hnone : (s.forest.kind b).child? slot = none) (hopen : (f.kind a).isOpen = false)
    (hopen' : (s.forest.kind b).isOpen = false) (h : Furnished f zone a (slot :: rest) missing s b) :
    Furnished f zone a rest true s b := by
  have hother : ∀ {slot'}, slot' ∉ rest → slot' ≠ slot → slot' ∉ slot :: rest := fun hrest hne hmem =>
    (List.mem_cons.1 hmem).elim hne hrest
  refine { h with done := fun slot' x' y' hslot' hx' hy' => h.done slot' x' y' (hother hslot' ?_) hx' hy',
                  lacking := fun _ _ _ _ _ => ⟨hopen, hopen'⟩, whole := fun hmissing => nomatch hmissing }
  rintro rfl
  cases hnone.symm.trans hy'

/-- The record is edited: it has the shape that it had, and instances where it has children that it had not. -/
theorem edit (hf : f.Template d pinned) (hs : Laid f d pinned zone s) (ha : f.Reaches d a)
    (hworks : Works f d pinned (fun w => w = a) zone s zone u) (hclass : u.forest.IsClass b)
    (hshape : (u.forest.kind b).shape = (s.forest.kind b).shape)
    (hopen : (u.forest.kind b).isOpen = (s.forest.kind b).isOpen)
    (hchild : ∀ slot x, (f.kind a).child? slot = some x → slot ∉ slots →
      (u.forest.kind b).child? slot = (s.forest.kind b).child? slot)
    (h : Furnished f zone a slots missing s b) : Furnished f zone a slots true u b := by
  refine ⟨hclass, h.seat, h.plain, hshape.trans h.shape, fun slot x y hslot hx hy => ?_,
    fun slot x hslot hx hnone => ?_, fun hmissing => nomatch hmissing⟩
  · rw [hchild slot x hx hslot] at hy
    exact (h.done slot x y hslot hx hy).works hs hworks (ha.tail ⟨slot, x, hx, rfl⟩)
      fun w hw _ e => hf.not_reaches ha hx (e ▸ hw)
  · rw [hchild slot x hx hslot] at hnone
    rw [hopen]
    exact h.lacking slot x hslot hx hnone

/-- If nothing was missing, it has no slots but those of the definition. -/
theorem mem_slots (hfunction : missing = true → (f.kind a).isFunction = true)
    (hy : (s.forest.kind b).child? slot = some y) (h : Furnished f zone a [] missing s b) :
    slot ∈ (f.kind a).slots := by
  have hmem : slot ∈ (s.forest.kind b).slots := Kind.mem_slots.2 (Option.isSome_of_eq_some hy)
  cases missing with
  | true => rwa [Kind.slots_of_shape (hfunction rfl) h.shape] at hmem
  | false =>
    obtain ⟨hlength, hall⟩ := h.whole rfl
    have hsub : (f.kind a).slots ⊆ (s.forest.kind b).slots := fun slot hmem => hall slot hmem List.not_mem_nil
    exact ((List.subperm_of_subset (Kind.nodup_slots _) hsub).perm_of_length_le hlength.le).mem_iff.2 hmem

end Furnished

section Step

variable (hf : f.Template d pinned) (hs : Laid f d pinned zone s) (ha : f.Reaches d a)
  (herror : (f.kind a).isError = false)

include hf hs ha herror

/-- A record gains an instance of a field that it lacked. -/
theorem addField_furnishes (hx : (f.kind a).child? (.field label) = some x) (hc : c < s.forest.size)
    (hzone : (f.place d (f.rep x)).Allows (zone c)) (hseated : Seated f zone s True (f.rep x) c)
    (h : Furnished f zone a (.field label :: rest) missing s b) (hadd : addField b label c s = some (r, u)) :
    Works f d pinned (fun w => w = a) zone s zone u ∧ Furnished f zone a rest true u b := by
  have hrecord : (s.forest.kind b).isRecord = true := by
    rw [Kind.isRecord_iff_shape, h.shape, ← Kind.isRecord_iff_shape]
    exact isRecord_of_field hx
  obtain ⟨hp, hsteady⟩ := addField_proceeds hs.sound hs.commits hc hadd
  rw [addField_record hrecord] at hadd
  cases hadd
  have hplain : (s.forest.kind b).isError = false := by rw [Kind.isError_eq_of_shape h.shape, herror]
  have hkind : (s.forest.withField b label c).kind b = (s.forest.kind b).setChild (.field label) c :=
    (Forest.kind_withField _ _ _ _ _).trans (if_pos rfl)
  have hfields : ∀ slot, ((s.forest.withField b label c).kind b).child? slot =
      if slot = .field label then some c else (s.forest.kind b).child? slot := fun slot => by
    rw [hkind, Kind.child?_setField hrecord]
  have hrecord' : ((s.forest.withField b label c).kind b).isRecord = true := by
    rw [Kind.isRecord_iff_shape, hkind, (Kind.setField_eq label c hrecord).1, ← Kind.isRecord_iff_shape, hrecord]
  have hplain' := Kind.plain_of_isRecord hrecord'
  have hworks : Works f d pinned (fun w => w = a) zone s zone ⟨s.forest.withField b label c,
      s.work.map ((s.forest.withField b label c).wake b), s.met, s.image⟩ := by
    refine hs.edit (b := b) (hs.not_reaches h.seat hplain) (by rw [h.seat]; rfl) hp.sound hp.probe hsteady
      (Forest.size_withField _ _ _ _) (fun e he => ?_) ?_ ?_ rfl rfl
    · exact (Forest.kind_withField _ _ _ _ _).trans (if_neg (Ne.symm he))
    · have haccrues := hp.leads.accrues hs.sound.forest b
      rwa [hsteady.rep, h.isClass.rep_eq] at haccrues
    · have hadmits := hs.zoned b
      rw [h.seat] at hadmits ⊢
      refine .of_known hplain'.1 hplain'.2 fun slot y hy => ?_
      dsimp only at hy
      rw [hfields] at hy
      split at hy
      · rename_i e
        cases hy
        rwa [e, Forest.childPlace_of_child Slot.noConfusion hx]
      · exact hadmits.child slot y hy
  have hsame := Kind.setField_eq label c hrecord
  have hclass : (s.forest.withField b label c).IsClass b := h.isClass.of_steady hsteady
  have hb := h.edit (u := ⟨s.forest.withField b label c, s.work.map ((s.forest.withField b label c).wake b), s.met,
    s.image⟩) hf hs ha hworks hclass (hkind ▸ hsame.1) (hkind ▸ hsame.2) fun slot x _ hslot =>
      (hfields slot).trans (if_neg fun e => hslot (e ▸ List.mem_cons_self))
  exact ⟨hworks, hb.fill hx ((hfields _).trans (if_pos rfl)) (hseated.works hs hworks (ha.tail ⟨_, x, hx, rfl⟩)
    fun w hw _ e => hf.not_reaches ha hx (e ▸ hw))⟩

/-- A record loses a field that the definition lacks. -/
theorem dropField_furnishes (hlacks : (f.kind a).child? (.field label) = none)
    (h : Furnished f zone a [] missing s b) (hdrop : dropField b label s = some (r, u)) :
    Works f d pinned (fun w => w = a) zone s zone u ∧ Furnished f zone a [] true u b ∧
      ∀ slot y, (u.forest.kind b).child? slot = some y →
        slot ≠ .field label ∧ (s.forest.kind b).child? slot = some y := by
  obtain ⟨hp, hsteady⟩ := dropField_proceeds hs.sound hs.commits hdrop
  have hclass := h.isClass.of_steady hsteady
  have hplain : (s.forest.kind b).isError = false := by rw [Kind.isError_eq_of_shape h.shape, herror]
  obtain ⟨hsize, hmet, himage, hkinds, hshape, hopen, hchild⟩ : u.forest.size = s.forest.size ∧ u.met = s.met ∧
      u.image = s.image ∧ (∀ e, e ≠ b → u.forest.kind e = s.forest.kind e) ∧
      (u.forest.kind b).shape = (s.forest.kind b).shape ∧ (u.forest.kind b).isOpen = (s.forest.kind b).isOpen ∧
      ∀ slot, (u.forest.kind b).child? slot =
        if slot = .field label then none else (s.forest.kind b).child? slot := by
    cases hfield : (s.forest.kind b).child? (.field label) with
    | none =>
      rw [dropField_of_none hfield] at hdrop
      cases hdrop
      refine ⟨rfl, rfl, rfl, fun _ _ => rfl, rfl, rfl, fun slot => ?_⟩
      split
      · rename_i e
        exact e ▸ hfield
      · rfl
    | some y =>
      obtain ⟨fields, sites, isOpen, nil, hk, hy⟩ := Kind.eq_record_of_child? hfield
      rw [dropField_record hk (by rw [hy]; rfl)] at hdrop
      cases hdrop
      have hkind : ∀ e, (s.forest.setKind b (.record (fields.erase label) sites isOpen nil)).kind e =
          if b = e then .record (fields.erase label) sites isOpen nil else s.forest.kind e := fun e => by
        rw [Forest.kind_setKind]
        exact if_congr (and_iff_left h.isClass.lt) rfl rfl
      dsimp only
      refine ⟨Forest.size_setKind _ _ _, rfl, rfl, fun e he => (hkind e).trans (if_neg (Ne.symm he)), ?_, ?_,
        fun slot => ?_⟩
      · rw [hkind, if_pos rfl, hk]
        rfl
      · rw [hkind, if_pos rfl, hk]
        rfl
      · rw [hkind, if_pos rfl, hk]
        cases slot with
        | field l =>
          refine (Fields.find?_erase _ _ _).trans ?_
          by_cases e : label = l
          · rw [if_pos e, if_pos (congrArg Slot.field e.symm)]
          · rw [if_neg e, if_neg fun h => e (Slot.field.inj h).symm]
            rfl
        | _ => rfl
  have hworks : Works f d pinned (fun w => w = a) zone s zone u := by
    refine hs.edit (b := b) (hs.not_reaches h.seat hplain) (by rw [h.seat]; rfl) hp.sound hp.probe hsteady hsize
      hkinds ?_ ?_ hmet himage
    · have haccrues := hp.leads.accrues hs.sound.forest b
      rwa [hsteady.rep, h.isClass.rep_eq] at haccrues
    · have hadmits := hs.zoned b
      rw [h.seat] at hadmits ⊢
      refine .of_known hclass.root ?_ fun slot y hy => ?_
      · rw [Kind.isNilable_eq_of_shape hshape, h.isNilable]
      · rw [hchild] at hy
        split at hy
        · cases hy
        · exact hadmits.child slot y hy
  refine ⟨hworks, h.edit hf hs ha hworks hclass hshape hopen fun slot x hx _ => ?_, fun slot y hy => ?_⟩
  · rw [hchild, if_neg]
    rintro rfl
    cases hx.symm.trans hlacks
  · rw [hchild] at hy
    split at hy
    · cases hy
    · exact ⟨‹_›, hy⟩

omit herror in
/-- What is done for a child concerns no other slot. -/
theorem Furnished.works_child (hworks : Works f d pinned (f.Reaches (f.rep x)) zone s zone' u)
    (hx : (f.kind a).child? slot = some x) (h : Furnished f zone a (slot :: rest) missing s b) :
    Furnished f zone' a (slot :: rest) missing u b :=
  h.works hs hworks ha (hf.not_reaches ha hx) fun slot' _ hslot' =>
    hf.apart ha (fun e : slot = slot' => hslot' (e ▸ List.mem_cons_self)) hx

/-- A field that is missing is an instance when it was copied or became an error of both, and is not needed if
neither side is open. -/
theorem instantiateMissing_furnishes {inst : TermId → TermId → UnifyM Bool} (hinst : Visits f d pinned inst)
    {answer : Option Bool} (hx : (f.kind a).child? (.field label) = some x)
    (hnone : (s.forest.kind b).child? (.field label) = none) (hvacant : Vacant f d zone s (f.rep x))
    (hb : Furnished f zone a (.field label :: rest) missing s b)
    (h : instantiateMissing inst pinned a b (f.rep x) label s = some (answer, u)) :
    ∃ changed zone', answer = some changed ∧
      Works f d pinned (fun w => w = a ∨ f.Reaches (f.rep x) w) zone s zone' u ∧
      Furnished f zone' a rest true u b := by
  have hreach : f.Reaches d (f.rep x) := ha.tail ⟨_, x, hx, rfl⟩
  have hroot := hs.stands.rep _ hreach
  replace h := of_bind_view h
  rcases ite_eq_some.1 h with ⟨-, h⟩ | ⟨hopen', h⟩
  · replace h := of_commits hs.commits h
    obtain ⟨c, s₁, hcopy, h⟩ := bind_eq_some.1 h
    obtain ⟨added, s₂, hadd, h⟩ := bind_eq_some.1 h
    obtain ⟨rfl, rfl⟩ := pure_eq_some.1 h
    obtain ⟨-, hc, zone₁, hworks₁, hzone, hreplica⟩ := freshCopyWithin_draws hf _ zone s (f.rep x) c s₁ hs
      (by rwa [hroot]) (by rwa [hroot]) (of_bind_view hcopy)
    rw [hroot] at hworks₁ hzone hreplica
    obtain ⟨hworks₂, hb₂⟩ := addField_furnishes hf hworks₁.laid ha herror hx hc hzone hreplica.seated
      (hb.works_child hf hs ha hworks₁ hx) hadd
    exact ⟨_, zone₁, rfl, (hworks₁.mono fun _ => Or.inr).trans hs (hworks₂.mono fun _ => Or.inl), hb₂⟩
  replace h := of_bind_view h
  rcases ite_eq_some.1 h with ⟨-, h⟩ | ⟨hopen, h⟩
  · replace h := of_bind_view (of_commits hs.commits h)
    obtain ⟨e, s₁, halloc, h⟩ := bind_eq_some.1 h
    obtain ⟨changed, s₂, hrun, h⟩ := bind_eq_some.1 h
    obtain ⟨added, s₃, hadd, h⟩ := bind_eq_some.1 h
    obtain ⟨rfl, rfl⟩ := pure_eq_some.1 h
    -- The error belongs where the field does.
    obtain ⟨hworks₁, he, -, -, -⟩ := hs.allocError (A := fun _ => False) hf (f.place d (f.rep x)) halloc
    have hs₁ := hworks₁.laid
    have hroot₁ := hs₁.stands.rep _ hreach
    obtain ⟨zone₂, hworks₂, hseated⟩ := hinst _ s₁ (f.rep x) e changed s₂ hs₁ (by rwa [hroot₁]) he.lt
      (by rw [Function.update_self, hroot₁]; exact .refl (f.place_ne_barred d _))
      (by rw [hroot₁]; exact hvacant.works hf hs hworks₁ hreach fun _ _ _ => id) hrun
    rw [hroot₁] at hworks₂ hseated
    have hzone : (f.place d (f.rep x)).Allows (zone₂ e) := by
      rw [hworks₂.zone_eq he.lt, Function.update_self]
      · exact .refl (f.place_ne_barred d _)
      · rw [Function.update_self]
        exact f.place_ne_barred d _
    have hb₁ := hb.works hs hworks₁ ha id fun _ _ _ _ _ _ _ => id
    obtain ⟨hworks₃, hb₃⟩ := addField_furnishes hf hworks₂.laid ha herror hx (Nat.lt_of_lt_of_le he.lt hworks₂.size)
      hzone hseated (hb₁.works_child hf hs₁ ha hworks₂ hx) hadd
    exact ⟨_, zone₂, rfl, (hworks₁.mono fun _ => False.elim).trans hs ((hworks₂.mono fun _ => Or.inr).trans hs₁
      (hworks₃.mono fun _ => Or.inl)), hb₃⟩
  · obtain ⟨rfl, rfl⟩ := pure_eq_some.1 h
    rw [Bool.not_eq_true] at hopen hopen'
    exact ⟨false, zone, rfl, .refl hs, hb.skip hnone ((hs.stands.same a ha).isOpen.symm.trans hopen) hopen'⟩

omit herror in
/-- A child that is there is an instance when it was instantiated. -/
theorem visit_furnishes {inst : TermId → TermId → UnifyM Bool} (hinst : Visits f d pinned inst)
    (hx : (f.kind a).child? slot = some x) (hy : (s.forest.kind b).child? slot = some y) (hc : c < s.forest.size)
    (hzone : (f.place d (f.rep x)).Allows (zone c)) (hcy : s.forest.rep c = s.forest.rep y)
    (hvacant : Vacant f d zone s (f.rep x))
    (hb : Furnished f zone a (slot :: rest) missing s b) (h : inst (f.rep x) c s = some (r, u)) :
    ∃ zone', Works f d pinned (f.Reaches (f.rep x)) zone s zone' u ∧ Furnished f zone' a rest missing u b := by
  have hroot := hs.stands.rep (f.rep x) (ha.tail ⟨slot, x, hx, rfl⟩)
  obtain ⟨zone', hworks, hseated⟩ := hinst zone s (f.rep x) c r u hs (by rw [hroot]; exact ha.tail ⟨slot, x, hx, rfl⟩)
    hc (by rwa [hroot]) (by rwa [hroot]) h
  rw [hroot] at hworks hseated
  obtain ⟨-, hsame⟩ := hworks.same hb.isClass hb.seat (hf.not_reaches ha hx) hb.isNilable
  obtain ⟨y', hy', hyy'⟩ := Kind.Same.exists_child? (Eq.symm hsame) hy
  exact ⟨zone', hworks, (hb.works_child hf hs ha hworks hx).fill hx hy'
    (hseated.of_rep ((hworks.rep _ _ hcy).trans hyy'))⟩

/-- The child in a slot of the use is an instance, if there is one, when it was seen to.  Whatever comes next is
told what was changed. -/
private theorem instantiateSlot_furnishes {inst : TermId → TermId → UnifyM Bool}
    {next : Option Bool → UnifyM SlotOutcome} {outcome : SlotOutcome} {rhs? : Option TermId} (h : (
      match rhs?, slot with
      | some rhs, _ => do
        let changed ← inst (f.rep x) rhs
        let changed? ← pure (some changed)
        next changed?
      | none, .field label => do
        let changed? ← instantiateMissing inst pinned a b (f.rep x) label
        next changed?
      | none, _ => do
        let changed? ← pure (some false)
        next changed? : UnifyM SlotOutcome) s = some (outcome, u))
    (hinst : Visits f d pinned inst) (hx : (f.kind a).child? slot = some x) (hvacant : Vacant f d zone s (f.rep x))
    (hb : Furnished f zone a (slot :: rest) missing s b)
    (hrhs : ∀ rhs, rhs? = some rhs → rhs < s.forest.size ∧ (f.place d (f.rep x)).Allows (zone rhs) ∧
      ∃ y, (s.forest.kind b).child? slot = some y ∧ s.forest.rep rhs = s.forest.rep y)
    (hnone : rhs? = none → (s.forest.kind b).child? slot = none) :
    ∃ changed zone' t, Works f d pinned (fun w => w = a ∨ f.Reaches (f.rep x) w) zone s zone' t ∧
      Furnished f zone' a rest (missing || rhs?.isNone) t b ∧ next (some changed) t = some (outcome, u) := by
  cases rhs? with
  | some rhs =>
    obtain ⟨hlt, hzone, y, hy, hrep⟩ := hrhs rhs rfl
    obtain ⟨changed, t, hrun, h⟩ := bind_eq_some.1 h
    obtain ⟨changed?, t', hpure, h⟩ := bind_eq_some.1 h
    obtain ⟨rfl, rfl⟩ := pure_eq_some.1 hpure
    obtain ⟨zone', hworks, hb'⟩ := visit_furnishes hf hs ha hinst hx hy hlt hzone hrep hvacant hb hrun
    rw [Option.isNone_some, Bool.or_false]
    exact ⟨changed, zone', _, hworks.mono fun _ => Or.inr, hb', h⟩
  | none =>
    rw [Option.isNone_none, Bool.or_true]
    cases slot with
    | field label =>
      obtain ⟨answer, t, hmissing, h⟩ := bind_eq_some.1 h
      obtain ⟨changed, zone', rfl, hworks, hb'⟩ :=
        instantiateMissing_furnishes hf hs ha herror hinst hx (hnone rfl) hvacant hb hmissing
      exact ⟨changed, zone', t, hworks, hb', h⟩
    | _ =>
      obtain ⟨changed?, t, hpure, h⟩ := bind_eq_some.1 h
      obtain ⟨rfl, rfl⟩ := pure_eq_some.1 hpure
      have hrecord : (f.kind a).isRecord = false := by
        cases hk : f.kind a <;> rw [hk] at hx <;> first | rfl | cases hx
      refine ⟨false, zone, _, .refl hs, hb.skip (hnone rfl) (Kind.isOpen_of_not_record hrecord)
        (Kind.isOpen_of_not_record ?_), h⟩
      rw [← Bool.not_eq_true, Kind.isRecord_iff_shape, hb.shape, ← Kind.isRecord_iff_shape, hrecord]
      exact Bool.false_ne_true

omit herror in
/-- The children in a slot are looked up. -/
private theorem children_look (hx : (f.kind a).child? slot = some x)
    (hb : Furnished f zone a (slot :: rest) missing s b) {lhs? rhs? : Option TermId}
    (hlhs : child a slot s = some (lhs?, t)) (hrhs : child b slot t = some (rhs?, u)) :
    Works f d pinned (fun _ => False) zone s zone u ∧
      (∀ rhs, rhs? = some rhs → rhs < u.forest.size ∧ (f.place d (f.rep x)).Allows (zone rhs) ∧
        ∃ y, (u.forest.kind b).child? slot = some y ∧ u.forest.rep rhs = u.forest.rep y) ∧
      (rhs? = none → (u.forest.kind b).child? slot = none) := by
  have hworks₁ : Works f d pinned (fun _ => False) zone s zone t := hs.looks hf (child_looks hs.sound hlhs).1
  have ht := hworks₁.laid
  have hb₁ := hb.works hs hworks₁ ha id fun _ _ _ _ _ _ _ => id
  obtain ⟨hlooks, hclass⟩ := child_looks ht.sound hrhs
  have hworks₂ : Works f d pinned (fun _ => False) zone t zone u := ht.looks hf hlooks
  have hsame := (hworks₂.same hb₁.isClass hb₁.seat id hb₁.isNilable).2
  have hrhs' := child_eq ht.sound hrhs
  refine ⟨hworks₁.trans hs hworks₂, fun rhs hsome => ?_, fun hnone => ?_⟩
  · rw [hsome] at hrhs'
    obtain ⟨y, hy, rfl⟩ := Option.map_eq_some_iff.1 hrhs'.symm
    obtain ⟨y', hy', hyy'⟩ := Kind.Same.exists_child? (Eq.symm hsame) hy
    refine ⟨(hclass _ hsome).lt, ?_, y', hy', (hworks₂.rep_rep ht y).trans hyy'⟩
    exact (ht.zoned.child hb₁.seat hy).2.child (Kind.ne_inner hb₁.plain hx) hx
  · rw [hsame.child?_eq_none]
    exact Option.map_eq_none_iff.1 (hrhs'.symm.trans hnone)

/-- Children are instantiated in turn. -/
theorem instantiateSlots_furnishes {inst : TermId → TermId → UnifyM Bool} (hinst : Visits f d pinned inst)
    {progress : Bool} {outcome : SlotOutcome} (hnodup : slots.Nodup) (hslots : slots ⊆ (f.kind a).slots)
    (hvacant : ∀ slot ∈ slots, ∀ x, (f.kind a).child? slot = some x → Vacant f d zone s (f.rep x))
    (hb : Furnished f zone a slots missing s b)
    (h : instantiateSlots inst pinned a slots b progress missing s = some (outcome, u)) :
    ∃ progress' missing' zone', outcome = .ongoing b progress' missing' ∧
      Works f d pinned (f.Reaches a) zone s zone' u ∧ Furnished f zone' a [] missing' u b := by
  induction slots generalizing s zone progress missing with
  | nil =>
    obtain ⟨rfl, rfl⟩ := pure_eq_some.1 h
    exact ⟨progress, missing, zone, rfl, .refl hs, hb⟩
  | cons slot rest ih =>
    obtain ⟨hslot, hnodup⟩ := List.nodup_cons.1 hnodup
    obtain ⟨x, hx⟩ := Option.isSome_iff_exists.1 (Kind.mem_slots.1 (hslots List.mem_cons_self))
    obtain ⟨lhs?, s₁, hlhs, h⟩ := bind_eq_some.1 h
    obtain rfl : lhs? = some (f.rep x) := by
      obtain ⟨x', hx', hxx⟩ := hs.stands.child_to ha hx
      rw [child_eq hs.sound hlhs, hx', Option.map_some, hxx]
    obtain ⟨rhs?, s₂, hrhs, h⟩ := bind_eq_some.1 h
    obtain ⟨hworks₂, hsome, hnone⟩ := children_look hf hs ha hx hb hlhs hrhs
    have hs₂ := hworks₂.laid
    have hvacant₂ : ∀ slot' ∈ slot :: rest, ∀ x', (f.kind a).child? slot' = some x' →
        Vacant f d zone s₂ (f.rep x') := fun slot' hslot' x' hx' =>
      (hvacant slot' hslot' x' hx').works hf hs hworks₂ (ha.tail ⟨slot', x', hx', rfl⟩) fun _ _ _ => id
    obtain ⟨changed, zone₃, s₃, hworks₃, hb₃, h⟩ := instantiateSlot_furnishes hf hs₂ ha herror h hinst hx
      (hvacant₂ slot List.mem_cons_self x hx) (hb.works hs hworks₂ ha id fun _ _ _ _ _ _ _ => id) hsome hnone
    -- The use is looked up again, and is no error.
    have hs₃ := hworks₃.laid
    obtain ⟨that, s₄, hfind, h⟩ := bind_eq_some.1 h
    obtain ⟨rfl, hlooks₄⟩ := find_looks hs₃.sound hfind
    rw [hb₃.isClass.rep_eq] at h
    have hworks₄ : Works f d pinned (fun _ => False) zone₃ s₃ zone₃ s₄ := hs₃.looks hf hlooks₄
    have hs₄ := hworks₄.laid
    have hb₄ := hb₃.works hs₃ hworks₄ ha id fun _ _ _ _ _ _ _ => id
    replace h := of_bind_view h
    rw [Kind.isError_eq_of_shape hb₄.shape, herror, if_neg Bool.false_ne_true] at h
    obtain ⟨probing, s₅, hprobe, h⟩ := bind_eq_some.1 h
    obtain ⟨rfl, rfl⟩ := isProbe_eq_some.1 hprobe
    rw [hs₄.commits, Bool.and_false, if_neg Bool.false_ne_true] at h
    have hvacant₄ : ∀ slot' ∈ rest, ∀ x', (f.kind a).child? slot' = some x' → Vacant f d zone₃ s₄ (f.rep x') := by
      intro slot' hslot' x' hx'
      have hreach' : f.Reaches d (f.rep x') := ha.tail ⟨slot', x', hx', rfl⟩
      refine ((hvacant₂ slot' (List.mem_cons_of_mem _ hslot') x' hx').works hf hs₂ hworks₃ hreach'
        fun w hw hvar hA => ?_).works hf hs₃ hworks₄ hreach' fun _ _ _ => id
      rcases hA with rfl | hA
      · exact hf.not_reaches ha hx' hw
      · exact hf.apart ha (fun e : slot = slot' => hslot (e ▸ hslot')) hx hx' w hw hvar hA
    obtain ⟨progress', missing', zone', houtcome, hworks₅, hb₅⟩ := ih hs₄ hnodup
      (fun _ h => hslots (List.mem_cons_of_mem _ h)) hvacant₄ hb₄ h
    refine ⟨progress', missing', zone', houtcome, ?_, hb₅⟩
    exact (hworks₂.mono fun _ => False.elim).trans hs ((hworks₃.mono fun w hw => hw.elim (fun e => e ▸ .refl)
      (.head ⟨slot, x, hx, rfl⟩)).trans hs₂ ((hworks₄.mono fun _ => False.elim).trans hs₃ hworks₅))

/-- A use loses the fields that the definition lacks, errors excepted. -/
theorem dropExtra_furnishes {labels : List String} {progress : Bool} {answer : Option Bool}
    (hb : Furnished f zone a [] missing s b)
    (hextra : ∀ label y, (f.kind a).child? (.field label) = none →
      (s.forest.kind b).child? (.field label) = some y → label ∈ labels ∨ s.forest.Dead y)
    (h : dropExtra a b labels progress s = some (answer, u)) :
    ∃ progress' missing', answer = some progress' ∧ Works f d pinned (fun w => w = a) zone s zone u ∧
      Furnished f zone a [] missing' u b ∧ ∀ label y, (f.kind a).child? (.field label) = none →
        (u.forest.kind b).child? (.field label) = some y → u.forest.Dead y := by
  induction labels generalizing s progress missing with
  | nil =>
    obtain ⟨rfl, rfl⟩ := pure_eq_some.1 h
    exact ⟨progress, missing, rfl, .refl hs, hb, fun label y hlacks hy =>
      (hextra label y hlacks hy).resolve_left List.not_mem_nil⟩
  | cons label rest ih =>
    replace h := of_bind_view h
    rcases ite_eq_some.1 h with ⟨hhas, h⟩ | ⟨hlacks, h⟩
    · -- The definition has the field.
      obtain ⟨x, hx⟩ := Option.isSome_iff_exists.1 hhas
      obtain ⟨x', hx', -⟩ := hs.stands.child_of ha hx
      refine ih hs hb (fun label' y hlacks hy => ?_) h
      refine (hextra label' y hlacks hy).imp_left fun hmem => (List.mem_cons.1 hmem).resolve_left ?_
      rintro rfl
      cases hx'.symm.trans hlacks
    have hlacks' : (f.kind a).child? (.field label) = none := by
      refine Option.eq_none_iff_forall_ne_some.2 fun x hx => hlacks ?_
      obtain ⟨x', hx', -⟩ := hs.stands.child_to ha hx
      exact Option.isSome_of_eq_some hx'
    obtain ⟨child?, s₁, hchild, h⟩ := bind_eq_some.1 h
    have hlooks := (child_looks hs.sound hchild).1
    have hworks₁ : Works f d pinned (fun _ => False) zone s zone s₁ := hs.looks hf hlooks
    have hs₁ := hworks₁.laid
    have hb₁ := hb.works hs hworks₁ ha id fun _ _ _ _ _ _ _ => id
    have hsame := (hworks₁.same hb.isClass hb.seat id hb.isNilable).2
    have hextra₁ : ∀ label' y, (f.kind a).child? (.field label') = none →
        (s₁.forest.kind b).child? (.field label') = some y → label' ∈ label :: rest ∨ s₁.forest.Dead y := by
      intro label' y hlacks hy
      obtain ⟨y', hy', hyy'⟩ := hsame.exists_child? hy
      refine (hextra label' y' hlacks hy').imp_right fun hdead => ?_
      have hdead := hworks₁.dead y' hdead
      rwa [Forest.Dead, ← hyy'] at hdead
    obtain ⟨keep, hkeep, h⟩ : ∃ keep : Bool, (keep = true → ∀ y, (s₁.forest.kind b).child? (.field label) = some y →
        s₁.forest.Dead y) ∧ (if keep then dropExtra a b rest progress else do
          if ← isProbe then return none
          let changed ← dropField b label
          dropExtra a b rest (progress || changed)) s₁ = some (answer, u) := by
      cases child? with
      | some t =>
        refine ⟨(s₁.forest.kind t).isError, fun hdead y hy => ?_, h⟩
        obtain ⟨y', hy', hyy'⟩ := hsame.exists_child? hy
        have ht := child_eq hs.sound hchild
        rw [hy', Option.map_some] at ht
        cases ht
        rwa [Forest.Dead, hyy', ← (hlooks.steady hs.sound).rep y'] at *
      | none => exact ⟨false, fun hkeep => Bool.noConfusion hkeep, h⟩
    rcases ite_eq_some.1 h with ⟨hkept, h⟩ | ⟨-, h⟩
    · refine (ih hs₁ hb₁ (fun label' y hlacks hy => ?_) h).imp fun _ => Exists.imp fun _ h =>
        ⟨h.1, (hworks₁.mono fun _ => False.elim).trans hs h.2.1, h.2.2⟩
      rcases hextra₁ label' y hlacks hy with hmem | hdead
      · rcases List.mem_cons.1 hmem with rfl | hmem
        · exact Or.inr (hkeep hkept y hy)
        · exact Or.inl hmem
      · exact Or.inr hdead
    · replace h := of_commits hs₁.commits h
      obtain ⟨changed, s₂, hdrop, h⟩ := bind_eq_some.1 h
      obtain ⟨hworks₂, hb₂, hchild₂⟩ := dropField_furnishes hf hs₁ ha herror hlacks' hb₁ hdrop
      refine (ih hworks₂.laid hb₂ (fun label' y hlacks hy => ?_) h).imp fun _ => Exists.imp fun _ h =>
        ⟨h.1, (hworks₁.mono fun _ => False.elim).trans hs (hworks₂.trans hs₁ h.2.1), h.2.2⟩
      obtain ⟨hne, hy⟩ := hchild₂ _ y hy
      refine (hextra₁ label' y hlacks hy).imp (fun hmem => ?_) (hworks₂.dead y)
      exact (List.mem_cons.1 hmem).resolve_left fun e => hne (congrArg Slot.field e)

/-- A use with instances of all children is an instance when it has taken over the rest. -/
theorem refine_seats (hvar : f.kind a ≠ .var) (hbase : (f.kind a).baseFlow? = none)
    (hb : Furnished f zone a [] missing s b)
    (hextra : ∀ slot y, (f.kind a).child? slot = none → (s.forest.kind b).child? slot = some y →
      (f.kind a).isOpen = true ∨ s.forest.Dead y)
    (h : refine a b s = some (r, u)) :
    Works f d pinned (fun w => w = a) zone s zone u ∧ Seated f zone u True a b := by
  have hsame := hs.stands.same a ha
  have hplain : (s.forest.kind b).isError = false := by rw [Kind.isError_eq_of_shape hb.shape, herror]
  obtain ⟨hshape, hchild, hsettled, hopen⟩ := Kind.refinedKind?_settles (s.forest.kind a) (s.forest.kind b)
  -- The use has all that the definition has to hand over.
  obtain ⟨hworks, hclass, hkind⟩ : Works f d pinned (fun w => w = a) zone s zone u ∧ u.forest.IsClass b ∧
      u.forest.kind b = (refinedKind? (s.forest.kind a) (s.forest.kind b)).getD (s.forest.kind b) := by
    replace h := of_bind_view h
    replace h := of_bind_view h
    cases hrefined : refinedKind? (s.forest.kind a) (s.forest.kind b) with
    | none =>
      simp only [hrefined] at h
      obtain ⟨-, rfl⟩ := pure_eq_some.1 h
      exact ⟨.refl hs, hb.isClass, rfl⟩
    | some k =>
      simp only [hrefined] at h
      replace h := of_commits hs.commits h
      obtain ⟨v, s₁, hset, h⟩ := bind_eq_some.1 h
      obtain ⟨v', s₂, hwake, h⟩ := bind_eq_some.1 h
      obtain ⟨-, rfl⟩ := pure_eq_some.1 h
      obtain rfl := change_eq_some.1 hset
      obtain rfl := wake_eq_some.1 hwake
      rw [hrefined, Option.getD_some] at hshape hchild
      have hrefines := (refinedKind?_refines hrefined).1
      have hadmits := hs.zoned b
      rw [hb.seat] at hadmits
      have hsuits : f.Suits d zone a k := .of_known hrefines.root'
        (by rw [Kind.isNilable_eq_of_shape hshape, hb.isNilable]) fun slot y hy => by
          rw [hchild] at hy
          exact hadmits.child slot y hy
      exact ⟨hs.takeOver (A := fun w => w = a) hb.isClass (hs.not_reaches hb.seat hplain) (by rw [hb.seat]; rfl)
        hrefines (by rw [hb.seat]; exact hsuits) (s.work.map ((s.forest.setKind b k).wake b)) (by simp),
        hb.isClass.of_steady (Forest.refine_steady hs.sound.forest.rooted hrefines),
        (Forest.kind_setKind _ _ _ _).trans (if_pos ⟨rfl, hb.isClass.lt⟩)⟩
  rw [← hkind] at hshape hchild hsettled hopen
  have hshape := hshape.trans hb.shape
  refine ⟨hworks, .known (k := u.forest.kind b) hvar (.known ?_ ?_ ?_) ⟨hshape, fun x y hx => ?_, Or.inr ?_,
    fun slot x hx hnone => ?_, fun slot y hnone hy => ?_⟩ fun slot x y hx hy => ?_⟩
  · rw [hclass.rep_eq]
    exact hb.seat
  · rw [hclass.rep_eq]
  · rw [Kind.isNilable_eq_of_shape hshape, hb.plain]
  · rw [hbase] at hx
    cases hx
  · have hnone := hsame.refinedKind? (rfl : Kind.Same s.forest.rep (u.forest.kind b) _)
    rw [hsettled, Option.isNone_none] at hnone
    exact Option.isNone_iff_eq_none.1 hnone.symm
  · rw [hchild] at hnone
    obtain ⟨hopen₁, hopen₂⟩ := hb.lacking slot x List.not_mem_nil hx hnone
    exact ⟨hopen₁, hopen hopen₂⟩
  · rw [hchild] at hy
    exact (hextra slot y hnone hy).imp_right (hworks.dead y)
  · rw [hchild] at hy
    exact (hb.done slot x y List.not_mem_nil hx hy).works hs hworks (ha.tail ⟨slot, x, hx, rfl⟩)
      fun w hw _ e => hf.not_reaches ha hx (e ▸ hw)

omit hf hs ha herror in
/-- A use without children becomes an instance of a class without children when that is recorded. -/
private theorem childless_seats (hvar : f.kind a ≠ .var) (hnilable : (f.kind a).isNilable = false)
    (hbase : (f.kind a).baseFlow? = none) (hb : s.forest.IsClass b) (hzone : zone b = .seat a)
    (hshape : (s.forest.kind b).shape = (f.kind a).shape) (hempty : (f.kind a).slots = [])
    (hempty' : (s.forest.kind b).slots = []) :
    Seated f zone { s with image := (a, b) :: s.image } True a b := by
  have hnone : ∀ {k : Kind}, k.slots = [] → ∀ slot x, k.child? slot ≠ some x := fun hempty slot x hx => by
    have hmem := Kind.mem_slots.2 (Option.isSome_of_eq_some hx)
    rw [hempty] at hmem
    exact absurd hmem List.not_mem_nil
  refine .known (k := s.forest.kind b) hvar (.known ?_ ?_ ?_) ⟨hshape, fun x y hx => ?_, Or.inl ⟨hempty, hempty'⟩,
    fun slot x hx => absurd hx (hnone hempty slot x), fun slot y _ hy => absurd hy (hnone hempty' slot y)⟩
    fun slot x y hx => absurd hx (hnone hempty slot x)
  · dsimp only
    rw [hb.rep_eq]
    exact hzone
  · dsimp only
    rw [hb.rep_eq]
  · rw [Kind.isNilable_eq_of_shape hshape, hnilable]
  · rw [hbase] at hx
    cases hx

/-- What the definition lacks is dropped if need be.  Whatever comes next is told what was changed. -/
private theorem settleExtra_furnishes {next : Option Bool → UnifyM Bool} {progress : Bool}
    (hvar : f.kind a ≠ .var) (hbase : (f.kind a).baseFlow? = none) (hb : Furnished f zone a [] missing s b) (h : (
      if missing && !(s.forest.kind a).isOpen && (s.forest.kind b).isRecord then do
        let kind ← kindOf b
        let progress? ← dropExtra a b kind.labels progress
        next progress?
      else do
        let progress? ← pure (some progress)
        next progress? : UnifyM Bool) s = some (r, u)) :
    ∃ progress' missing' t, Works f d pinned (fun w => w = a) zone s zone t ∧ Furnished f zone a [] missing' t b ∧
      (∀ slot y, (f.kind a).child? slot = none → (t.forest.kind b).child? slot = some y →
        (f.kind a).isOpen = true ∨ t.forest.Dead y) ∧ next (some progress') t = some (r, u) := by
  rcases ite_eq_some.1 h with ⟨hdrops, h⟩ | ⟨hkeeps, h⟩
  · replace h := of_bind_view h
    obtain ⟨answer, t, hdrop, h⟩ := bind_eq_some.1 h
    obtain ⟨progress', missing', rfl, hworks, hb', hextra⟩ := dropExtra_furnishes hf hs ha herror hb
      (fun label y _ hy => Or.inl (Kind.mem_labels_of_child? hy)) hdrop
    refine ⟨progress', missing', t, hworks, hb', fun slot y hlacks hy => ?_, h⟩
    have hrecord : (t.forest.kind b).isRecord = true := by
      rw [Kind.isRecord_iff_shape, hb'.shape, ← hb.shape, ← Kind.isRecord_iff_shape]
      exact (Bool.and_eq_true_iff.1 hdrops).2
    obtain ⟨label, rfl⟩ := Kind.exists_field_of_child? hrecord hy
    exact Or.inr (hextra label y hlacks hy)
  · obtain ⟨answer, t, hpure, h⟩ := bind_eq_some.1 h
    obtain ⟨rfl, rfl⟩ := pure_eq_some.1 hpure
    refine ⟨progress, missing, _, .refl hs, hb, fun slot y hlacks hy => or_iff_not_imp_left.2 fun hclosed => ?_, h⟩
    -- All that the use has are children that the definition has.
    have hmem := hb.mem_slots (fun hmissing => ?_) hy
    · rw [Kind.mem_slots, hlacks] at hmem
      cases hmem
    have hrecord : (f.kind a).isRecord = false := by
      rw [← Bool.not_eq_true, Kind.isRecord_iff_shape, ← hb.shape, ← Kind.isRecord_iff_shape]
      intro hrecord
      rw [(hs.stands.same a ha).isOpen, Bool.eq_false_iff.2 hclosed, hmissing, hrecord] at hkeeps
      exact hkeeps rfl
    exact Kind.isFunction_of_not (hf.tree.reaches ha).calm.root hvar hbase hb.plain hrecord herror

/-- A use of the shape of the definition becomes an instance. -/
theorem instantiateChildren_seats {inst : TermId → TermId → UnifyM Bool} (hinst : Visits f d pinned inst)
    (hvar : f.kind a ≠ .var) (hnilable : (f.kind a).isNilable = false) (hbase : (f.kind a).baseFlow? = none)
    (hb : s.forest.IsClass b)
    (hzone : zone b = .seat a) (hshape : (s.forest.kind b).shape = (f.kind a).shape) (hvacant : Vacant f d zone s a)
    (h : instantiateChildren inst pinned a b s = some (r, u)) :
    ∃ zone', Works f d pinned (f.Reaches a) zone s zone' u ∧ Seated f zone' u True a b := by
  replace h := of_bind_view h
  replace h := of_bind_view h
  rw [(hs.stands.same a ha).slots] at h
  have hset : Works f d pinned (fun w => w = a) zone s zone { s with image := (a, b) :: s.image } :=
    hs.setImage (hs.lt_of_reaches hf ha) hb.lt (fun _ => rfl) fun _ hvar' => absurd hvar' hvar
  rcases ite_eq_some.1 h with ⟨hempty, h⟩ | ⟨-, h⟩
  · rw [Bool.and_eq_true, List.isEmpty_iff, List.isEmpty_iff] at hempty
    obtain ⟨v, s₁, himage, h⟩ := bind_eq_some.1 h
    obtain ⟨-, rfl⟩ := pure_eq_some.1 h
    obtain rfl := modify_eq_some.1 himage
    exact ⟨zone, hset.mono fun w hw => hw ▸ .refl,
      childless_seats hvar hnilable hbase hb hzone hshape hempty.1 hempty.2⟩
  obtain ⟨v, s₁, himage, h⟩ := bind_eq_some.1 h
  obtain rfl := modify_eq_some.1 himage
  obtain ⟨outcome, s₂, hrun, h⟩ := bind_eq_some.1 h
  have hstart : Furnished f zone a (f.kind a).slots
      (decide ((f.kind a).slots.length ≠ (s.forest.kind b).slots.length))
      { s with image := (a, b) :: s.image } b := by
    refine ⟨hb, hzone, hnilable, hshape, fun slot x y hslot hx => ?_, fun slot x hslot hx => ?_, fun hmissing => ?_⟩
    · exact absurd (Kind.mem_slots.2 (Option.isSome_of_eq_some hx)) hslot
    · exact absurd (Kind.mem_slots.2 (Option.isSome_of_eq_some hx)) hslot
    · exact ⟨(not_not.1 (of_decide_eq_false hmissing)).symm, fun slot hmem hslot => absurd hmem hslot⟩
  obtain ⟨progress, missing, zone', rfl, hworks₂, hb₂⟩ := instantiateSlots_furnishes hf hset.laid ha herror hinst
    (Kind.nodup_slots _) (fun _ h => h) (fun slot _ x hx => (hvacant.of_reaches (.single ⟨slot, x, hx, rfl⟩)).works
      hf hs hset (ha.tail ⟨slot, x, hx, rfl⟩) fun w hw _ e => hf.not_reaches ha hx (e ▸ hw)) hstart hrun
  have hs₂ := hworks₂.laid
  have hworks := (hset.mono fun w (hw : w = a) => (hw ▸ .refl : f.Reaches a w)).trans hs hworks₂
  replace h := of_bind_view h
  replace h := of_bind_view h
  obtain ⟨progress', missing', s₃, hworks₃, hb₃, hextra, h⟩ := settleExtra_furnishes hf hs₂ ha herror hvar hbase hb₂ h
  obtain ⟨refined, s₄, hrefine, h⟩ := bind_eq_some.1 h
  obtain ⟨-, rfl⟩ := pure_eq_some.1 h
  obtain ⟨hworks₄, hseated⟩ := refine_seats hf hworks₃.laid ha herror hvar hbase hb₃ hextra hrefine
  exact ⟨zone', hworks.trans hs ((hworks₃.trans hs₂ hworks₄).mono fun w hw => hw ▸ .refl), hseated⟩

end Step

end Unifier

end TypeFlow
