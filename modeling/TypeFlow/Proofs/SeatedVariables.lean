import TypeFlow.Proofs.FaithfulInstantiations
import TypeFlow.Proofs.SeatedCopies

/-!
# Variables in seats

A variable of the use that stands for a known class of the definition joins a copy of that, and is an instance
then.  A wrapper of the variable is one as well: the copy is made of what the class is apart from nil, and the
wrapper puts nil back in.

Main definitions:

- `Unifier.Stamped`: a term shows a copy of a class, with instances of the children.
- `Unifier.Fills`: a computation makes variables of a seat show copies.

Main results:

- `Unifier.instantiateVar_fills`: a variable that joins a copy shows that.
- `Unifier.instantiateWithin_fills`: so it does when it is instantiated.
- `Unifier.instantiateInner_seats`: the wrapper of a variable becomes an instance.
-/

namespace TypeFlow

open Forest (IsClass Steady Enters Template Zone)

namespace Unifier

variable {f : Forest} {d : TermId} {pinned : List TermId} {A : TermId → Prop} {zone zone' : TermId → Zone}
  {z : Zone} {s u : Unifier} {a b c t v x y : TermId} {k l : Kind} {slot : Slot} {depth : Nat} {r : Bool}

/-! ## Terms that show copies -/

/-- A term of the seat shows a copy of the class, maybe without nil and with inputs widened, and has instances of
the children. -/
structure Stamped (f : Forest) (zone : TermId → Zone) (a : TermId) (l : Kind) (s : Unifier) (b : TermId) (k : Kind) :
    Prop where
  shows : s.forest.Shows (fun c => zone c = .seat a) b k
  widens : ∃ l', l.Same (fun _ => 0) l' ∧ l'.Widens k
  children : ∀ slot x y, (f.kind a).child? slot = some x → k.child? slot = some y →
    Seated f zone s False (f.rep x) y

namespace Stamped

/-- It is an instance if the copy is one of all of the class. -/
theorem seated (hvar : f.kind a ≠ .var) (h : Stamped f zone a (f.kind a) s b k) : Seated f zone s False a b := by
  obtain ⟨l', hsame, hwidens⟩ := h.widens
  exact .known hvar h.shows (.widens (.same hsame) hwidens) h.children

/-- A wrapper of it is an instance even if the copy lacks nil. -/
theorem wrapped (hvar : f.kind a ≠ .var) (hl : (f.kind a).Sheds l) (hplain : f.kind a ≠ .base .any)
    (hb : zone (s.forest.rep b) = .seat a) (hk : s.forest.kind (s.forest.rep b) = .nilable v)
    (h : Stamped f zone a l s v k) : Seated f zone s False a b := by
  obtain ⟨l', hsame, hwidens⟩ := h.widens
  have hk' : k ≠ .var := hwidens.ne_var fun e => hvar <| Kind.isVar_iff.1 <| by
    rw [← hl.isVar, ← hsame.isVar, e]
    rfl
  refine .known hvar (.wrapped hb hk h.shows hk') ((Kind.echoes_orNil hplain hl hsame).widens hwidens.orNil) ?_
  intro slot x y hx hy
  rw [Kind.child?_orNil] at hy
  exact h.children slot x y hx hy

/-- All terms of a class show a copy, or none. -/
theorem of_rep (h : Stamped f zone a l s b k) (hrep : s.forest.rep b = s.forest.rep c) : Stamped f zone a l s c k :=
  ⟨h.shows.of_rep hrep, h.widens, h.children⟩

/-- Recording images changes nothing about it. -/
theorem of_image (hf : f.Template d pinned) (ha : f.Reaches d a) (hs : Laid f d pinned zone s)
    {image : List (TermId × TermId)}
    (hworks : Works f d pinned (fun w => w = a) zone s zone { s with image := image })
    (h : Stamped f zone a l s b k) : Stamped f zone a l { s with image := image } b k :=
  ⟨h.shows, h.widens, fun slot x y hx hy => (h.children slot x y hx hy).works hs hworks
    (ha.tail ⟨slot, x, hx, rfl⟩) fun _ hw _ e => hf.not_reaches ha hx (e ▸ hw)⟩

end Stamped

/-! ## Variables that join copies -/

/-- Merging classes records no image. -/
theorem image_of_merge (h : merge b c s = some (r, u)) : u.image = s.image :=
  (acts_merge (R := fun _ => True) trivial trivial s r u ⟨fun _ _ _ _ => trivial, fun _ _ => trivial⟩ h).1.image

/-- A variable of the seat that joins a copy shows it. -/
theorem merge_fills (hf : f.Template d pinned) (hs : Laid f d pinned zone s) (ha : f.Reaches d a)
    (hl : (f.kind a).Sheds l) (hvar : f.kind a ≠ .var) (hnilable : (f.kind a).isNilable = false)
    (hv : s.forest.IsClass v) (hkv : s.forest.kind v = .var) (hzone : zone v = .seat a)
    (hdrawn : Drawn f d zone (.seat a) a l [] s c) (h : merge v c s = some (r, u)) :
    Works f d pinned (f.Reaches a) zone s zone u ∧ Enters v c s.forest u.forest ∧
      ∃ k, Stamped f zone a l u v k := by
  have hc := hdrawn.isClass
  have hkc : s.forest.kind c ≠ .var := fun hkc => hvar <| Kind.isVar_iff.1 <| by
    rw [← hl.isVar, ← hdrawn.same.isVar, hkc]
    rfl
  have hne : v ≠ c := fun e => hkc (e ▸ hkv)
  have himage := image_of_merge h
  have henters := merge_enters hs.sound hs.commits hv hc hkv hne h
  have hp : Proceeds s u := (merge_proceeds hs.sound hv hc (fun _ => by rw [hkv]; rfl)
    (fun n m hn => by rw [hkv] at hn; cases hn) h).1
  have hworks := hs.enters hzone hdrawn.seat (hdrawn.sealed hs ha hl) (by rw [hkv]; rfl) hp henters
    (edits_sameMet.merge v c s r u h) himage
  have hrep : u.forest.rep v = c := by rw [henters.rep, hv.rep_eq, if_pos rfl]
  have hwidens : (s.forest.kind c).Widens (u.forest.kind c) := by
    rcases henters.kinds c (Ne.symm hne) with e | ⟨-, flow, hflow, hflow'⟩
    · rw [e]
      exact .refl _
    · rw [hflow, hflow']
      exact .base flow.sameKind_widen flow.covers_widen
  refine ⟨hworks, henters, u.forest.kind c, ⟨?_, ⟨_, hdrawn.same, hwidens⟩, fun slot x y hx hy => ?_⟩⟩
  · refine .known (by rw [hrep, hdrawn.seat]) (by rw [hrep]) ?_
    rw [hwidens.isNilable, hdrawn.same.isNilable, Kind.isNilable_eq_of_shape hl.shape, hnilable]
  · -- The variable belongs to the class, which is no part of its children.
    rw [hwidens.child?] at hy
    have hseated : Seated f zone s False (f.rep x) y := (hdrawn.done slot x y List.not_mem_nil hx hy).2.seated
    refine hseated.enters henters himage hworks.dead hworks.nils fun w hw e => ?_
    rw [hzone] at e
    cases e
    exact hf.not_reaches ha hx hw

/-- A variable of the seat shows a copy, and wrappers of it are so still. -/
structure TakesOver (f : Forest) (d : TermId) (pinned : List TermId) (a : TermId) (l : Kind) (v : TermId)
    (zone : TermId → Zone) (s : Unifier) (zone' : TermId → Zone) (u : Unifier) : Prop where
  works : Works f d pinned (f.Reaches a) zone s zone' u
  stamped : ∃ k, Stamped f zone' a l u v k
  wrappers : ∀ w x, s.forest.kind w = .nilable x → s.forest.rep x = v →
    ∃ x', u.forest.kind w = .nilable x' ∧ u.forest.rep x' = u.forest.rep v

/-- A variable of the seat that is to join a copy of a class shows it. -/
theorem instantiateVar_fills (hf : f.Template d pinned) (hs : Laid f d pinned zone s) (ha : f.Reaches d a)
    (hnilable : (f.kind a).isNilable = false) (ht : Original f a l s t) (hbarred : zone t = .barred)
    (hnew : s.image.lookup t = none)
    (hvacant : ∀ slot x, (f.kind a).child? slot = some x → Vacant f d zone s (f.rep x))
    (hv : s.forest.IsClass v) (hkv : s.forest.kind v = .var) (hzone : zone v = .seat a) (h : (do
      let c ← freshCopy pinned t
      let progress ← merge v c
      setImage t v
      return progress) s = some (r, u)) : ∃ zone', TakesOver f d pinned a l v zone s zone' u := by
  obtain ⟨c, s₁, hcopy, h⟩ := bind_eq_some.1 h
  obtain ⟨progress, s₂, hmerge, h⟩ := bind_eq_some.1 h
  obtain ⟨w, s₃, hset, h⟩ := bind_eq_some.1 h
  obtain ⟨-, rfl⟩ := pure_eq_some.1 h
  obtain rfl := modify_eq_some.1 hset
  obtain ⟨-, hsteady, -, -, hrefreshed⟩ := freshCopy_proceeds hs.sound ht.isClass.lt hcopy
  obtain ⟨zone₁, hworks₁, hdrawn⟩ := freshCopyWithin_original hf hs ha ht hbarred hnew hvacant (of_bind_view hcopy)
  rw [Forest.place_of_known ht.known hnilable] at hdrawn
  have hv₁ := hv.of_steady hsteady
  have hkv₁ := (hrefreshed v hv.lt (Forest.calm_of_not_nilable hv.root (by rw [hkv]; rfl))).eq_var.2 hkv
  obtain ⟨hworks₂, henters, k, hstamped⟩ := merge_fills hf hworks₁.laid ha ht.sheds ht.known hnilable hv₁ hkv₁
    (hs.zone_of_works hworks₁ hzone) hdrawn hmerge
  have hs₂ := hworks₂.laid
  have hlt : ∀ {x}, x < s.forest.size → x < s₂.forest.size := fun hx =>
    Nat.lt_of_lt_of_le hx (hworks₁.size.trans hworks₂.size)
  have hworks₃ := hs₂.setImage (A := fun w => w = a) (hlt ht.isClass.lt) (hlt hv.lt) ht.own fun hreach hvar =>
    absurd (ht.own (hf.lt_of_reaches hreach) ▸ hvar) ht.known
  refine ⟨zone₁, hworks₁.trans hs (hworks₂.trans hworks₁.laid (hworks₃.mono fun w hw => hw ▸ .refl)),
    ⟨k, hstamped.of_image hf ha hs₂ hworks₃⟩, fun w x hw hx => ?_⟩
  -- The wrapper is looked up at most.
  have hw' : (s.forest.kind w).isLink = false := by rw [hw]; rfl
  have hcalm : s.forest.Calm w := ⟨hw', fun x' hx' => by
    cases hw.symm.trans hx'
    rw [hx, hkv]⟩
  have hwlt : w < s.forest.size := Forest.lt_size_of_kind (by rw [hw]; exact Kind.noConfusion)
  have hrefreshed := hrefreshed w hwlt hcalm
  rw [hw] at hrefreshed
  obtain ⟨x', hx', hxx⟩ := hrefreshed.wraps (Forest.rep_rep hs.sound.forest.rooted)
  have hne : w ≠ v := by
    rintro rfl
    rw [hkv] at hw
    cases hw
  refine ⟨x', ?_, ?_⟩
  · rcases henters.kinds w hne with e | ⟨-, flow, hflow, -⟩
    · exact e.trans hx'
    · rw [hx'] at hflow
      cases hflow
  · exact hworks₂.rep _ _ (by rw [hsteady.rep, hsteady.rep, hxx, hx, hv.rep_eq])

/-- So it does when classes have been looked up before. -/
theorem TakesOver.after_looks (hf : f.Template d pinned) (hs : Laid f d pinned zone s) {t : Unifier}
    (hlooks : Looks s t) (hkv : s.forest.kind v = .var) (h : TakesOver f d pinned a l v zone t zone' u) :
    TakesOver f d pinned a l v zone s zone' u := by
  refine ⟨(hs.looks hf hlooks).trans hs h.works, h.stamped, fun w x hw hx => ?_⟩
  have hrooted := hs.sound.forest.rooted
  have hcalm : s.forest.Calm w := ⟨by rw [hw]; rfl, fun x' hx' => by
    cases hw.symm.trans hx'
    rw [hx, hkv]⟩
  have hrefreshed := (hlooks.upkeeps.calm hrooted hcalm).1
  rw [hw] at hrefreshed
  obtain ⟨x', hx', hxx⟩ := hrefreshed.wraps (Forest.rep_rep hrooted)
  exact h.wrappers w x' hx' (by rw [(hlooks.steady hs.sound).rep, hxx, hx])

/-- A variable of the seat shows a copy of the class that is instantiated for it. -/
theorem instantiateStep_fills {inst : TermId → TermId → UnifyM Bool} (hf : f.Template d pinned)
    (hs : Laid f d pinned zone s) (ha : f.Reaches d a) (herror : (f.kind a).isError = false)
    (hnilable : (f.kind a).isNilable = false) (ht : Original f a l s t) (hbarred : zone t = .barred)
    (hnew : s.image.lookup t = none)
    (hvacant : ∀ slot x, (f.kind a).child? slot = some x → Vacant f d zone s (f.rep x))
    (hv : s.forest.IsClass v) (hkv : s.forest.kind v = .var) (hzone : zone v = .seat a)
    (h : instantiateStep inst (unifyWithin depth) pinned t v s = some (r, u)) :
    ∃ zone', TakesOver f d pinned a l v zone s zone' u := by
  obtain ⟨x, s₁, hfind, h⟩ := bind_eq_some.1 h
  obtain ⟨y, s₂, hfind', h⟩ := bind_eq_some.1 h
  obtain ⟨hlooks, -, ⟨rfl, rfl⟩, -, -⟩ := find_both hs.sound ht.isClass.lt hv.lt hfind hfind'
  rw [ht.isClass.rep_eq, hv.rep_eq] at h
  -- Whatever is looked up, the original stays one, and the variable stays a variable.
  have hkeeps : ∀ {g}, Looks s g → Original f a l g t ∧ g.forest.kind v = .var ∧ g.forest.IsClass v := fun hlooks =>
    ⟨ht.refreshed hs.sound (hlooks.steady hs.sound)
      (hlooks.upkeeps.calm hs.sound.forest.rooted (ht.calm hf hs ha)).1, hlooks.var hs.sound hkv,
      hv.of_steady (hlooks.steady hs.sound)⟩
  have hkt : ∀ {g}, Original f a l g t → (g.forest.kind t).isError = false ∧ g.forest.kind t ≠ .var := fun ht => by
    refine ⟨?_, fun hvar => ht.known <| Kind.isVar_iff.1 ?_⟩
    · rw [ht.same.isError, Kind.isError_eq_of_shape ht.sheds.shape, herror]
    · rw [← ht.sheds.isVar, ← ht.same.isVar, hvar]
      rfl
  obtain ⟨image, s₃, himage, h⟩ := bind_eq_some.1 h
  obtain ⟨rfl, rfl⟩ := imageOf_eq_some.1 himage
  simp only [hlooks.image, hnew] at h
  obtain ⟨same, s₃, halike, h⟩ := bind_eq_some.1 h
  have hs₂ := (hlooks.proceeds hs.sound).sound
  obtain ⟨ht₂, hkv₂, hv₂⟩ := hkeeps hlooks
  obtain rfl : same = false := by
    obtain ⟨g, hg, -⟩ := onForest_eq_some.1 halike
    exact Forest.not_alike_var hs₂.forest.rooted (by rw [ht₂.isClass.rep_eq]; exact (hkt ht₂).2)
      (by rwa [hv₂.rep_eq]) hg
  have hlooks₃ := hlooks.trans (looks_onForest (Forest.keepsUp_alike _ _) hs₂ halike)
  have hs₃ := (hlooks₃.proceeds hs.sound).sound
  obtain ⟨ht₃, hkv₃, -⟩ := hkeeps hlooks₃
  rw [if_neg Bool.false_ne_true] at h
  replace h := of_bind_view h
  rw [hkv₃, if_neg (by exact Bool.false_ne_true)] at h
  obtain ⟨shared, s₄, hshared, h⟩ := bind_eq_some.1 h
  have hlooks₄ := hlooks₃.trans (shared_looks hs₃ hshared)
  have hworks₄ : Works f d pinned (fun _ => False) zone s zone s₄ := hs.looks hf hlooks₄
  obtain ⟨ht₄, hkv₄, hv₄⟩ := hkeeps hlooks₄
  obtain rfl := (hs.looks hf (A := fun _ => False) hlooks₃).laid.shared_eq ht₃.isClass.rep_eq hbarred hshared
  rw [(hkt ht₃).1] at h
  rw [if_neg Bool.false_ne_true] at h
  replace h := of_bind_view h
  replace h := of_bind_view h
  rw [if_neg (by rw [Kind.isVar_iff]; exact (hkt ht₄).2), hkv₄, if_pos (by rfl)] at h
  obtain ⟨zone', htakes⟩ := instantiateVar_fills hf hworks₄.laid ha hnilable ht₄ hbarred (by rw [hlooks₄.image, hnew])
    (fun slot x hx => (hvacant slot x hx).works hf hs hworks₄ (ha.tail ⟨slot, x, hx, rfl⟩) fun _ _ _ => id)
    hv₄ hkv₄ hzone (of_commits hworks₄.laid.commits h)
  exact ⟨zone', htakes.after_looks hf hs hlooks₄ hkv⟩

/-- The computation makes variables of a seat show copies of what it is called with. -/
def Fills (f : Forest) (d : TermId) (pinned : List TermId) (inst : TermId → TermId → UnifyM Bool) : Prop :=
  ∀ zone s a l t v r u, Laid f d pinned zone s → f.Reaches d a → (f.kind a).isError = false →
    (f.kind a).isNilable = false → Original f a l s t → zone t = .barred → s.image.lookup t = none →
    (∀ slot x, (f.kind a).child? slot = some x → Vacant f d zone s (f.rep x)) → s.forest.IsClass v →
    s.forest.kind v = .var → zone v = .seat a → inst t v s = some (r, u) →
    ∃ zone', TakesOver f d pinned a l v zone s zone' u

/-- Instantiating a class for a variable makes that show a copy. -/
theorem instantiateWithin_fills (hf : f.Template d pinned) (depth : Nat) :
    Fills f d pinned (instantiateWithin pinned depth) := by
  intro zone s a l t v r u hs ha herror hnilable ht hbarred hnew hvacant hv hkv hzone h
  cases depth with
  | zero => exact (failure_eq_some.1 h).elim
  | succ depth => exact instantiateStep_fills hf hs ha herror hnilable ht hbarred hnew hvacant hv hkv hzone h

/-! ## Wrappers of variables -/

/-- What is instantiated for the variable of a wrapper is an original. -/
theorem Source.original (hf : f.Template d pinned) (hs : Laid f d pinned zone s) (ha : f.Reaches d a)
    (hvar : f.kind a ≠ .var) (hbarred : zone a = .barred) (hnew : s.image.lookup a = none)
    (h : Source a t s u) : ∃ zone' l, Works f d pinned (fun _ => False) zone s zone' u ∧ Original f a l u t ∧
      zone' t = .barred ∧ u.image.lookup t = none := by
  have hsame := hs.stands.same a ha
  rcases h.form with ⟨rfl, rfl⟩ | ⟨hnil, rfl, term, hterm, rfl⟩
  · exact ⟨zone, f.kind t, .refl hs, ⟨hvar, Or.inl rfl, h.isClass, hsame, fun _ => rfl⟩, hbarred, hnew⟩
  · have hkind : (s.forest.add term).2.kind s.forest.size = term.kind :=
      (Forest.kind_add _ _ _).trans (if_pos rfl)
    refine ⟨Function.update zone s.forest.size .barred, (f.kind a).withoutNil, ?_, ⟨hvar,
      Or.inr ⟨hsame.mayNil.symm.trans hnil, rfl⟩, h.isClass, ?_, fun hlt => absurd hs.size (Nat.not_le.2 hlt)⟩,
      Function.update_self _ _ _, ?_⟩
    · have hlink := h.isClass.root
      dsimp only at hlink
      rw [hkind] at hlink
      refine hs.add hf hlink (fun x hx => ?_) trivial
      rw [hterm, Kind.children_withoutNil] at hx
      exact hs.sound.forest.inRange a x hx
    · dsimp only
      rw [hkind, hterm, funext h.steady.rep]
      exact hsame.withoutNil
    · refine List.lookup_eq_none_iff.2 fun p hp => ?_
      rw [bne_iff_ne]
      exact Nat.ne_of_gt (hs.keys p hp)

/-- A wrapper of the seat is an instance when its variable has joined a copy. -/
theorem instantiateInner_seats {inst : TermId → TermId → UnifyM Bool} (hinst : Fills f d pinned inst)
    (hf : f.Template d pinned) (hs : Laid f d pinned zone s) (ha : f.Reaches d a) (hvar : f.kind a ≠ .var)
    (herror : (f.kind a).isError = false) (hknown : (f.kind a).isNilable = false) (hvacant : Vacant f d zone s a)
    (hcalm : s.forest.Calm b) (hnilable : (s.forest.kind b).isNilable = true) (hzone : zone b = .seat a)
    (h : instantiateInner inst a b s = some (r, u)) :
    ∃ zone', Works f d pinned (f.Reaches a) zone s zone' u ∧ Seated f zone' u False a b := by
  obtain ⟨hnew, hbarred⟩ := hvacant a .refl (.of_known hvar)
  obtain ⟨x, hx⟩ := Kind.isNilable_eq_true.1 hnilable
  have hb : s.forest.IsClass b := ⟨Forest.lt_size_of_kind (by rw [hx]; exact Kind.noConfusion), hcalm.root⟩
  have hclass : s.forest.IsClass a := ⟨hs.lt_of_reaches hf ha,
    by rw [(hs.stands.same a ha).isLink, (hf.tree.reaches ha).calm.root]⟩
  obtain ⟨source, s₁, hsource, h⟩ := source_of_mayNil hs.sound hclass (of_commits hs.commits h)
  obtain ⟨zone₁, l, hworks₁, ht, hbarred₁, hnew₁⟩ := hsource.original hf hs ha hvar hbarred hnew
  have hs₁ := hworks₁.laid
  have hb₁ : zone₁ b = .seat a := hs.zone_of_works hworks₁ hzone
  have hx₁ : s₁.forest.kind b = .nilable x := (hsource.kinds b hb.lt).trans hx
  obtain ⟨inner?, s₂, hchild, h⟩ := bind_eq_some.1 h
  have hinner := child_eq hs₁.sound hchild
  rw [hx₁] at hinner
  subst hinner
  obtain ⟨hlooks, hv⟩ := child_looks hs₁.sound hchild
  have hv := hv _ rfl
  have hchild? : (s₁.forest.kind b).child? .inner = some x := by rw [hx₁]; rfl
  have hchild₀ : (s.forest.kind b).child? .inner = some x := by rw [hx]; rfl
  have hkv : s₁.forest.kind (s₁.forest.rep x) = .var := by
    rw [hsource.steady.rep, hsource.kinds _ (Forest.rep_lt_size hs.sound.forest.rooted
      (hs.sound.forest.child_lt hchild₀)), hcalm.wraps x hx]
  have hzone₁ : zone₁ (s₁.forest.rep x) = .seat a := (hs₁.zoned.child hb₁ hchild?).2.inner
  have hworks₂ : Works f d pinned (fun _ => False) zone₁ s₁ zone₁ s₂ := hs₁.looks hf hlooks
  have hcalm₁ : s₁.forest.Calm b := ⟨by rw [hx₁]; rfl, fun x' hx' => by cases hx₁.symm.trans hx'; exact hkv⟩
  obtain ⟨hrefreshed, -⟩ := hlooks.upkeeps.calm hs₁.sound.forest.rooted hcalm₁
  rw [hx₁] at hrefreshed
  obtain ⟨x₂, hx₂, hxx⟩ := hrefreshed.wraps (Forest.rep_rep hs₁.sound.forest.rooted)
  obtain ⟨progress, s₃, hrun, h⟩ := bind_eq_some.1 h
  obtain ⟨zone', htakes⟩ := hinst zone₁ s₂ a l source _ progress s₃ hworks₂.laid ha herror hknown
    (ht.refreshed hs₁.sound (hlooks.steady hs₁.sound)
      (hlooks.upkeeps.calm hs₁.sound.forest.rooted (ht.calm hf hs₁ ha)).1) hbarred₁ (by rw [hlooks.image, hnew₁])
    (fun slot x hx => ((hvacant.of_reaches (.single ⟨slot, x, hx, rfl⟩)).works hf hs hworks₁
      (ha.tail ⟨slot, x, hx, rfl⟩) fun _ _ _ => id).works hf hs₁ hworks₂ (ha.tail ⟨slot, x, hx, rfl⟩)
        fun _ _ _ => id) hv (hlooks.var hs₁.sound hkv) hzone₁ hrun
  have hworks := (hworks₁.mono fun _ => False.elim).trans hs
    ((hworks₂.mono fun _ => False.elim).trans hs₁ htakes.works)
  have hs₃ := htakes.works.laid
  obtain ⟨k, hstamped⟩ := htakes.stamped
  obtain ⟨x₃, hx₃, hxx₃⟩ := htakes.wrappers b x₂ hx₂ (by rw [(hlooks.steady hs₁.sound).rep, hxx])
  have hroot : s₃.forest.rep b = b := Forest.rep_of_not_link (by rw [hx₃]; rfl)
  have hplain : f.kind a ≠ .base .any := by
    have hadmits := hs.zoned b
    rw [hzone] at hadmits
    exact hadmits.plain hnilable
  have hzone' := hs.zone_of_works hworks hzone
  rcases ite_eq_some.1 h with ⟨-, h⟩ | ⟨-, h⟩
  · obtain ⟨v, s₄, hset, h⟩ := bind_eq_some.1 h
    obtain ⟨-, rfl⟩ := pure_eq_some.1 h
    obtain rfl := modify_eq_some.1 hset
    have hworks₄ := hs₃.setImage (A := fun w => w = a) (x := a) (c := b) (hs₃.lt_of_reaches hf ha)
      (Nat.lt_of_lt_of_le hb.lt hworks.size) (fun _ => rfl) fun _ hvar' => absurd hvar' hvar
    refine ⟨zone', hworks.trans hs (hworks₄.mono fun w hw => hw ▸ .refl), ?_⟩
    refine Stamped.wrapped hvar ht.sheds hplain ?_ ?_ ((hstamped.of_image hf ha hs₃ hworks₄).of_rep hxx₃.symm)
    · dsimp only
      rw [hroot]
      exact hzone'
    · dsimp only
      rw [hroot, hx₃]
  · obtain ⟨-, rfl⟩ := pure_eq_some.1 h
    exact ⟨zone', hworks, Stamped.wrapped hvar ht.sheds hplain (by rw [hroot]; exact hzone') (by rw [hroot, hx₃])
      (hstamped.of_rep hxx₃.symm)⟩

end Unifier

end TypeFlow
