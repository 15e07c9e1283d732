import TypeFlow.Proofs.EscapingFunctions
import TypeFlow.Proofs.ForestHistories

/-!
# Orderly forests

While a program is prepared a wrapper wraps a variable that nothing else is in one class with, and
only nodes that were added already are registered.  As long as that is so, every look-up returns,
and so does every unification of a variable, which wakes nobody who is not pending anyhow.

Main definitions:

- `Forest.Orderly`: wrappers wrap variables, and only the first nodes are registered.
- `Forest.Loose`: a term is in no class that is wrapped.
- `Forest.Spares`: a change keeps order, and loose terms loose.

Main results:

- `Forest.Orderly.upkeeps`, `Forest.Orderly.alloc`, `Forest.Orderly.link`: changes that do.
- `Unifier.unify_var_returns`: a unification of a variable returns and spares what was loose.
-/

namespace TypeFlow

namespace Forest

variable {f g h : Forest} {k : Nat} {t : TermId}

/-- Every wrapper wraps a variable, and none but the first so many nodes are registered. -/
structure Orderly (nodes : Nat) (f : Forest) : Prop where
  sound : f.Sound
  wraps : ∀ w x, f.kind w = .nilable x → f.kind x = .var
  deps : ∀ t n, n ∈ f.deps t → n < nodes

/-- The term is in no class that a wrapper wraps. -/
def Loose (f : Forest) (t : TermId) : Prop := ∀ w x, f.kind w = .nilable x → f.rep t ≠ x

/-- The forest is orderly after the change, and terms that were loose are still. -/
structure Spares (nodes : Nat) (f g : Forest) : Prop where
  orderly : g.Orderly nodes
  size : f.size ≤ g.size
  loose : ∀ t, t < f.size → f.Loose t → g.Loose t

/-- An orderly forest is leafy. -/
theorem Orderly.leafy (hf : f.Orderly k) : f.Leafy where
  rooted := hf.sound.rooted
  wraps w x hw := by
    have hvar := hf.wraps w x hw
    rw [rep_of_not_link (by rw [hvar]; rfl), hvar]

/-- A forest that is orderly for some nodes is so for more. -/
theorem Orderly.mono (hf : f.Orderly k) {k' : Nat} (hle : k ≤ k') : f.Orderly k' :=
  ⟨hf.sound, hf.wraps, fun t n hn => Nat.lt_of_lt_of_le (hf.deps t n hn) hle⟩

/-- All terms of a class are loose, or none. -/
theorem Loose.congr {u : TermId} (h : f.Loose t) (hrep : f.rep u = f.rep t) : f.Loose u :=
  fun w x hw => hrep ▸ h w x hw

/-- An orderly forest spares itself. -/
theorem Spares.refl (hf : f.Orderly k) : f.Spares k f := ⟨hf, le_rfl, fun _ _ => id⟩

/-- Forests are spared in turn. -/
theorem Spares.trans {k' : Nat} (hfg : f.Spares k g) (hgh : g.Spares k' h) : f.Spares k' h where
  orderly := hgh.orderly
  size := hfg.size.trans hgh.size
  loose t ht hloose := hgh.loose t (Nat.lt_of_lt_of_le ht hfg.size) (hfg.loose t ht hloose)

namespace Orderly

variable (hf : f.Orderly k)

include hf

/-- A change that merges no classes and makes no wrappers spares what was loose. -/
theorem spares (hg : g.Sound) (hsize : f.size ≤ g.size) (hrep : ∀ t, t < f.size → g.rep t = f.rep t)
    (hwrap : ∀ w x, g.kind w = .nilable x → f.kind w = .nilable x)
    (hvar : ∀ x, x < f.size → f.kind x = .var → g.kind x = .var)
    (hdeps : ∀ t n, n ∈ g.deps t → n < k) : f.Spares k g := by
  refine ⟨⟨hg, fun w x hw => ?_, hdeps⟩, hsize, fun t ht hloose w x hw => ?_⟩
  · have hw := hwrap w x hw
    refine hvar x (hf.sound.inRange w x ?_) (hf.wraps w x hw)
    rw [hw]
    exact List.mem_singleton_self x
  · rw [hrep t ht]
    exact hloose w x (hwrap w x hw)

/-! ## Changes -/

omit hf in
/-- Tidying up registers no other nodes. -/
theorem deps_upkeep (hdeps : ∀ t n, n ∈ f.deps t → n < k) (hup : f.Upkeep g) :
    ∀ t n, n ∈ g.deps t → n < k := by
  intro t n hn
  cases hup with
  | shorten => exact hdeps t n (by rwa [deps_setKind] at hn)
  | remember => exact hdeps t n (by rwa [deps_setChild] at hn)
  | absorb =>
    unfold absorb at hn
    split at hn
    · exact hdeps t n (by rwa [deps_setKind] at hn)
    · exact hdeps t n hn
    · rcases mem_deps_addDeps.1 hn with hn | ⟨hn, -⟩
      · exact hdeps t n (by rwa [deps_setKind] at hn)
      · exact hdeps _ n hn

/-- Tidying up spares an orderly forest. -/
theorem upkeeps (hup : f.Upkeeps g) : f.Spares k g := by
  have hs := hup.steady hf.sound.rooted
  have hdeps : ∀ t n, n ∈ g.deps t → n < k := by
    induction hup with
    | refl => exact hf.deps
    | tail hup hstep ih => exact deps_upkeep (ih (Upkeeps.steady hf.sound.rooted hup)) hstep
  have hcalm : ∀ c, (f.kind c).isLink = false → (f.kind c).Refreshed f.rep (g.kind c) :=
    fun c hc => (hup.calm hf.sound.rooted (hf.leafy.calm hc)).1
  refine hf.spares (hup.sound hf.sound) hup.size.ge (fun t _ => hs.rep t) (fun w x hw => ?_)
    (fun x _ hx => (hcalm x (by rw [hx]; rfl)).eq_var.2 hx) hdeps
  have hrefreshed := hcalm w (by rw [← hs.isLink, hw]; rfl)
  rw [hw] at hrefreshed
  obtain ⟨y, hy, rfl | rfl⟩ := hrefreshed.nilable (rep_rep hf.sound.rooted)
  · exact hy
  · rw [hy, rep_of_not_link (by rw [hf.wraps w y hy]; rfl)]

/-- Looking a class up returns and spares the forest. -/
theorem find_returns (t : TermId) :
    Returns (find t) f fun r g => r = f.rep t ∧ f.Spares k g ∧ ∀ u, g.rep u = f.rep u := by
  refine (Forest.find_returns hf.sound.rooted (hf.leafy.ends t)).imp ?_
  rintro r g - ⟨hr, hup, -⟩
  exact ⟨hr, hf.upkeeps hup, (hup.steady hf.sound.rooted).rep⟩

/-- A new term that is no wrapper. -/
theorem alloc (kind : Kind) (hlink : kind.isLink = false) (hwrap : kind.isNilable = false)
    (hkind : ∀ x ∈ kind.children, x < f.size) :
    f.Spares k (f.alloc kind).2 ∧ (f.alloc kind).2.Loose f.size := by
  have hext := alloc_extends hf.sound.rooted hlink
  have hold : ∀ w x, (f.alloc kind).2.kind w = .nilable x → f.kind w = .nilable x := by
    intro w x hw
    rw [kind_alloc] at hw
    split at hw
    · rw [hw] at hwrap
      cases hwrap
    · exact hw
  refine ⟨hf.spares ((becomes_alloc hlink hkind).sound hf.sound) hext.size
    (fun t ht => hext.rep t ht) hold (fun x hx hvar => hext.var x hx hvar) fun t n hn => ?_,
    fun w x hw => ?_⟩
  · have hadd : (f.alloc kind).2.deps t = if t = f.size then .empty else f.deps t := deps_add _ _ _
    rw [hadd] at hn
    split at hn
    · cases hn
    · exact hf.deps t n hn
  · have hx : x < f.size := by
      refine hf.sound.inRange w x ?_
      rw [hold w x hw]
      exact List.mem_singleton_self x
    exact Nat.ne_of_gt (Nat.lt_of_lt_of_le hx (hext.fresh f.size le_rfl))

/-- A new wrapper of a variable that is in one class with no term before it. -/
theorem allocNilable {x : TermId} (hx : f.kind x = .var) (hlt : x < f.size)
    (hnew : ∀ t, t < f.size → t ≠ x → f.rep t ≠ x) :
    (f.alloc (.nilable x)).2.Orderly k ∧ (f.alloc (.nilable x)).2.Loose f.size ∧
      ∀ t, t < f.size → t ≠ x → f.Loose t → (f.alloc (.nilable x)).2.Loose t := by
  have hext := alloc_extends hf.sound.rooted (k := .nilable x) rfl
  have hold : ∀ w y, (f.alloc (.nilable x)).2.kind w = .nilable y →
      y = x ∨ f.kind w = .nilable y ∧ y < f.size := by
    intro w y hw
    rw [kind_alloc] at hw
    split at hw
    · cases hw
      exact Or.inl rfl
    · refine Or.inr ⟨hw, hf.sound.inRange w y ?_⟩
      rw [hw]
      exact List.mem_singleton_self y
  have hchild : ∀ y ∈ (Kind.nilable x).children, y < f.size := List.forall_mem_singleton.2 hlt
  refine ⟨⟨(becomes_alloc rfl hchild).sound hf.sound, fun w y hw => ?_, fun t n hn => ?_⟩,
    fun w y hw => ?_, fun t ht hne hloose w y hw => ?_⟩
  · rcases hold w y hw with rfl | ⟨hw, hy⟩
    · exact hext.var y hlt hx
    · exact hext.var y hy (hf.wraps w y hw)
  · have hadd : (f.alloc (.nilable x)).2.deps t = if t = f.size then .empty else f.deps t :=
      deps_add _ _ _
    rw [hadd] at hn
    split at hn
    · cases hn
    · exact hf.deps t n hn
  · have hy : y < f.size := by
      rcases hold w y hw with rfl | ⟨-, hy⟩
      · exact hlt
      · exact hy
    exact Nat.ne_of_gt (Nat.lt_of_lt_of_le hy (hext.fresh f.size le_rfl))
  · rw [hext.rep t ht]
    rcases hold w y hw with rfl | ⟨hw, -⟩
    · exact hnew t ht hne
    · exact hloose w y hw

/-- Registering nodes spares an orderly forest. -/
theorem register (t : TermId) {nodes : List NodeId} (hnodes : ∀ n ∈ nodes, n < k) :
    f.Spares k (f.addDeps t nodes) := by
  have hs := addDeps_steady hf.sound.rooted t nodes
  refine hf.spares (addDeps_sound hf.sound t nodes) hs.size (fun t _ => hs.rep t) (fun w x hw => ?_)
    (fun x _ hx => ?_) fun u n hn => ?_
  · rwa [kind_addDeps] at hw
  · rwa [kind_addDeps]
  · rcases mem_deps_addDeps.1 hn with hn | ⟨hn, -⟩
    · exact hf.deps u n hn
    · exact hnodes n hn

/-- A record gets a field. -/
theorem setField (t : TermId) (label : String) {child : TermId} (hchild : child < f.size) :
    f.Spares k (f.setChild t (.field label) child) := by
  have hs := setChild_steady hf.sound.rooted t (.field label) child
  refine hf.spares (setChild_sound hf.sound t _ hchild) hs.size (fun t _ => hs.rep t)
    (fun w x hw => ?_) (fun x _ hx => ?_) fun u n hn => hf.deps u n (by rwa [deps_setChild] at hn)
  · rw [kind_setChild] at hw
    split at hw
    · cases hk : f.kind w with
      | nilable y =>
        rw [hk] at hw
        exact hw
      | _ =>
        rw [hk] at hw
        cases hw
    · exact hw
  · rw [kind_setChild]
    split
    · exact Kind.setChild_eq_var.2 hx
    · exact hx

private theorem widen (t : TermId) : f.Spares k (f.widenInputs t) := by
  have hs := widenInputs_steady hf.sound.rooted t
  refine hf.spares ((Becomes.single (.widen t)).sound hf.sound) hs.size (fun t _ => hs.rep t)
    (fun w x hw => ?_) (fun x _ hx => (widenInputs_eq_var f t x).2 hx)
    fun u n hn => hf.deps u n (by rwa [deps_widenInputs] at hn)
  rcases kind_widenInputs f t w with e | ⟨-, flow, flow', -, hflow⟩
  · rwa [e] at hw
  · rw [hflow] at hw
    cases hw

/-- A new function type. -/
theorem allocFunction (input : Bool) (fids : IdSet) {args : List TermId} {ret : TermId}
    (hterms : ∀ x ∈ args ++ [ret], x < f.size) :
    f.Spares k (f.allocFunction input fids args ret).2 ∧
      (f.allocFunction input fids args ret).2.Loose f.size := by
  have hwiden : ∀ (args : List TermId) (g : Forest), g.Orderly k →
      g.Spares k (args.foldl widenInputs g) ∧ (args.foldl widenInputs g).size = g.size := by
    intro args
    induction args with
    | nil => exact fun g hg => ⟨.refl hg, rfl⟩
    | cons t rest ih =>
      intro g hg
      obtain ⟨hrest, hsize⟩ := ih _ (hg.widen t).orderly
      exact ⟨(hg.widen t).trans hrest, hsize.trans (size_widenInputs g t)⟩
  unfold Forest.allocFunction
  cases input with
  | false => exact hf.alloc _ rfl rfl hterms
  | true =>
    obtain ⟨hspares, hsize⟩ := hwiden args f hf
    obtain ⟨halloc, hloose⟩ := hspares.orderly.alloc (.function args ret fids false) rfl rfl
      fun x hx => hsize ▸ hterms x hx
    rw [hsize] at hloose
    exact ⟨hspares.trans halloc, hloose⟩

omit hf in
/-- A class that takes over registered nodes takes over none but those. -/
theorem deps_link {loser winner : TermId} (hdeps : ∀ t n, n ∈ f.deps t → n < k) :
    ∀ t n, n ∈ (f.link loser winner).deps t → n < k := by
  intro t n hn
  rw [Forest.deps_link] at hn
  rcases mem_deps_addDeps.1 hn with hn | ⟨hn, -⟩
  · refine hdeps t n ?_
    have hempty : (f.update loser fun term => { term with deps := .empty }).terms[t]? =
        if loser = t then f.terms[t]?.map fun term => { term with deps := .empty }
          else f.terms[t]? := Array.getElem?_modify
    unfold Forest.deps at hn ⊢
    rw [hempty] at hn
    split_ifs at hn
    · cases hterm : f.terms[t]? with
      | none =>
        rw [hterm] at hn
        exact hn
      | some term =>
        rw [hterm] at hn
        cases hn
    · exact hn
  · exact hdeps loser n hn

/-- A variable is merged into a class, neither of which is wrapped. -/
theorem link {loser winner : TermId} (hvar : f.kind loser = .var)
    (hwinner : (f.kind winner).isLink = false) (hne : loser ≠ winner) (hl : loser < f.size)
    (hw : winner < f.size) (hloser' : f.Loose loser) (hwinner' : f.Loose winner) :
    f.Spares k (f.link loser winner) := by
  have hloser : (f.kind loser).isLink = false := by rw [hvar]; rfl
  have hold : ∀ w x, (f.link loser winner).kind w = .nilable x → f.kind w = .nilable x := by
    intro w x hw
    rw [kind_link hl] at hw
    split at hw
    · cases hw
    · exact hw
  refine ⟨⟨hf.sound.link hloser hwinner hne hl hw, fun w x hw => ?_, deps_link hf.deps⟩,
    (size_link _ _ _).ge, fun t _ hloose w x hx => ?_⟩
  · have hx := hloser' w x (hold w x hw)
    rw [rep_of_not_link hloser] at hx
    rw [kind_link hl, if_neg hx, hf.wraps w x (hold w x hw)]
  · rw [rep_link_eq hf.sound.rooted hloser hwinner hne hl hw]
    split
    · have hx := hwinner' w x (hold w x hx)
      rwa [rep_of_not_link hwinner] at hx
    · exact hloose w x (hold w x hx)

end Orderly

end Forest

/-! ## Waking -/

private theorem OrderedSet.insertAll_of_subset {α : Type} [DecidableEq α] {s : OrderedSet α} {as : List α}
    (h : ∀ a ∈ as, a ∈ s) : s.insertAll as = s := by
  induction as with
  | nil => rfl
  | cons a rest ih =>
    have hinsert : s.insert a = s := by
      unfold insert
      rw [dif_pos (contains_eq_true.2 (h a List.mem_cons_self))]
    rw [insertAll, List.foldl_cons, hinsert]
    exact ih fun b hb => h b (List.mem_cons_of_mem a hb)

/-- Waking nodes that all wait already changes nothing. -/
theorem Forest.wake_of_pending {f : Forest} {work : Worklist}
    (h : ∀ t n, n ∈ f.deps t → n ∈ work.pending) (t : TermId) : f.wake t work = work := by
  unfold wake
  induction f.reach t with
  | nil => rfl
  | cons r rest ih =>
    have hpush : work.pushAll (f.deps r).toList = work := by
      rw [Worklist.pushAll, OrderedSet.insertAll_of_subset fun n hn => h r n hn]
    rw [List.foldl_cons, hpush, ih]

/-! ## Unifying a variable -/

namespace Unifier

variable {s : Unifier} {k : Nat} {work : Worklist}

/-- The first so many nodes are registered, and they all wait. -/
structure Pending (nodes : Nat) (work : Worklist) (s : Unifier) : Prop where
  orderly : s.forest.Orderly nodes
  work_eq : s.work = some work
  pending : ∀ n, n < nodes → n ∈ work.pending

/-- Nobody was woken, and what was loose is still. -/
structure Leaves (nodes : Nat) (work : Worklist) (s u : Unifier) : Prop where
  spares : s.forest.Spares nodes u.forest
  work_eq : u.work = some work

private theorem Leaves.refl (hs : s.Pending k work) : Leaves k work s s := ⟨.refl hs.orderly, hs.work_eq⟩

private theorem Leaves.trans {t u : Unifier} (h : Leaves k work s t) (h' : Leaves k work t u) :
    Leaves k work s u := ⟨h.spares.trans h'.spares, h'.work_eq⟩

namespace Pending

variable (hs : s.Pending k work)

include hs

private theorem after {u : Unifier} (h : Leaves k work s u) : u.Pending k work :=
  ⟨h.spares.orderly, h.work_eq, hs.pending⟩

private theorem find_returns (t : TermId) : Returns (find t) s fun r u =>
    r = s.forest.rep t ∧ Leaves k work s u ∧ s.forest.Upkeeps u.forest := by
  obtain ⟨r, g, hfind, hr, hup, -⟩ :=
    Forest.find_returns hs.orderly.sound.rooted (hs.orderly.leafy.ends t)
  exact ⟨r, _, onForest_eq_some.2 ⟨g, hfind, rfl⟩, hr, ⟨hs.orderly.upkeeps hup, hs.work_eq⟩, hup⟩

/-- A variable is merged into another class. -/
theorem merge_returns {loser winner : TermId} (hvar : s.forest.kind loser = .var)
    (hwinner : (s.forest.kind winner).isLink = false) (hl : loser < s.forest.size)
    (hw : winner < s.forest.size) (hloser' : s.forest.Loose loser)
    (hwinner' : s.forest.Loose winner) :
    Returns (merge loser winner) s fun _ u => Leaves k work s u := by
  have hisSome : s.work.isNone = false := by rw [hs.work_eq]; rfl
  by_cases hne : loser = winner
  · rw [merge, if_pos hne]
    exact returns_pure (.refl hs)
  rw [Returns, merge_of_var hisSome hvar, settle_eq hisSome hne]
  refine ⟨true, _, rfl, ?_⟩
  have hpass : s.forest.Spares k (s.forest.passInput loser winner) := by
    unfold Forest.passInput
    split
    · exact hs.orderly.widen winner
    · exact .refl hs.orderly
  have hsteady := Forest.passInput_steady hs.orderly.sound.rooted loser winner
  have hvar' : (s.forest.passInput loser winner).kind loser = .var := by
    rcases Forest.kind_passInput_or s.forest loser winner loser with e | e <;> rw [e]
    · exact hvar
    · exact (Forest.widenInputs_eq_var _ _ _).2 hvar
  constructor
  · refine hpass.trans (hpass.orderly.link hvar' ?_ hne (Nat.lt_of_lt_of_le hl hpass.size)
      (Nat.lt_of_lt_of_le hw hpass.size) (hpass.loose _ hl hloser') (hpass.loose _ hw hwinner'))
    rw [hsteady.isLink, hwinner]
  · have hwake : ∀ t, (s.forest.passInput loser winner).wake t work = work :=
      Forest.wake_of_pending fun u n hn => hs.pending n (hpass.orderly.deps u n hn)
    rw [hs.work_eq, Option.map_some, hwake, Option.map_some, hwake]

end Pending

variable {a b : TermId} {rec : TermId → TermId → UnifyM Bool}

/-- Two classes are looked up in turn. -/
theorem Pending.find_both_returns {k' : TermId → TermId → UnifyM Bool} (hs : s.Pending k work)
    (hk : ∀ u, Leaves k work s u → s.forest.Upkeeps u.forest →
      Returns (k' (s.forest.rep a) (s.forest.rep b)) u fun _ v => Leaves k work u v) :
    Returns (do let x ← find a; let y ← find b; k' x y) s fun _ v => Leaves k work s v := by
  refine returns_bind (hs.find_returns a) ?_
  rintro _ s₁ - ⟨rfl, hleaves₁, hup₁⟩
  refine returns_bind ((hs.after hleaves₁).find_returns b) ?_
  rintro _ s₂ - ⟨rfl, hleaves₂, hup₂⟩
  rw [(hup₁.steady hs.orderly.sound.rooted).rep]
  have hleaves := hleaves₁.trans hleaves₂
  exact (hk s₂ hleaves (hup₁.trans hup₂)).imp fun _ _ _ hv => hleaves.trans hv

/-- Unifying a variable with a term is merging two classes, so it returns, however shallow. -/
theorem unifyStep_var_returns (hs : s.Pending k work) (hvar : s.forest.kind (s.forest.rep a) = .var)
    (ha : a < s.forest.size) (hb : b < s.forest.size) (ha' : s.forest.Loose a)
    (hb' : s.forest.Loose b) :
    Returns (unifyStep rec a b) s fun _ u => Leaves k work s u := by
  refine hs.find_both_returns fun u hleaves hup => ?_
  have hrooted := hs.orderly.sound.rooted
  have hsteady := hup.steady hrooted
  have hu := hs.after hleaves
  have hlt : ∀ t, t < s.forest.size → s.forest.rep t < u.forest.size := fun t ht => by
    rw [hup.size]
    exact Forest.rep_lt_size hrooted ht
  have hroot : ∀ t, (u.forest.kind (s.forest.rep t)).isLink = false := fun t => by
    rw [hsteady.isLink]
    exact Forest.not_isLink_rep hrooted t
  have hloose : ∀ t, t < s.forest.size → s.forest.Loose t → u.forest.Loose (s.forest.rep t) :=
    fun t ht h => (hleaves.spares.loose t ht h).congr (by
      rw [hsteady.rep, hsteady.rep, Forest.rep_rep hrooted])
  have hkind : u.forest.kind (s.forest.rep a) = .var :=
    (hup.calm hrooted (hs.orderly.leafy.calm (by rw [hvar]; rfl))).1.eq_var.2 hvar
  have hmerge := hu.merge_returns hkind (hroot b) (hlt a ha) (hlt b hb) (hloose a ha ha')
    (hloose b hb hb')
  refine returns_ite (fun _ => returns_pure (.refl hu)) fun hne => ?_
  refine returns_view (returns_view (returns_ite (fun hslots => ?_) fun _ => ?_))
  · rw [hkind]
    rcases ranked_var (a := s.forest.rep a) (b := s.forest.rep b) (hroot b) with hr | ⟨hkb, hr⟩
    · rw [hr]
      exact hmerge
    · rw [hr]
      exact hu.merge_returns hkb (hroot a) (hlt b hb) (hlt a ha) (hloose b hb hb') (hloose a ha ha')
  · refine returns_ite (fun _ => hmerge) fun hnot => ?_
    rw [hkind] at hnot
    exact absurd rfl hnot

/-- Unifying a variable with a term returns, spares what was loose and wakes nobody new. -/
theorem unify_var_returns (depth : Nat) (hs : s.Pending k work)
    (hvar : s.forest.kind (s.forest.rep a) = .var) (ha : a < s.forest.size)
    (hb : b < s.forest.size) (ha' : s.forest.Loose a) (hb' : s.forest.Loose b) :
    Returns (unify (depth + 1) a b) s fun _ u => Leaves k work s u := by
  refine hs.find_both_returns fun u hleaves hup => ?_
  have hrooted := hs.orderly.sound.rooted
  have hsteady := hup.steady hrooted
  have hu := hs.after hleaves
  refine returns_ite (fun _ => returns_pure (.refl hu)) fun hne => ?_
  refine returns_bind (P := fun _ t => t = { u with met := [] }) ⟨(), _, rfl, rfl⟩ ?_
  rintro v t - rfl
  have hrep : ∀ t, u.forest.rep (s.forest.rep t) = s.forest.rep t := fun t => by
    rw [hsteady.rep, Forest.rep_rep hrooted]
  have hloose : ∀ t, t < s.forest.size → s.forest.Loose t → u.forest.Loose (s.forest.rep t) :=
    fun t ht h => (hleaves.spares.loose t ht h).congr (by rw [hrep, hsteady.rep])
  have hempty : Pending k work { u with met := [] } := ⟨hu.orderly, hu.work_eq, hu.pending⟩
  refine (unifyStep_var_returns hempty ?_ ?_ ?_ (hloose a ha ha') (hloose b hb hb')).imp ?_
  · dsimp only
    rw [hrep]
    exact (hup.calm hrooted (hs.orderly.leafy.calm (by rw [hvar]; rfl))).1.eq_var.2 hvar
  · exact hup.size ▸ Forest.rep_lt_size hrooted ha
  · exact hup.size ▸ Forest.rep_lt_size hrooted hb
  · exact fun _ _ _ hleaves => ⟨hleaves.spares, hleaves.work_eq⟩

end Unifier

end TypeFlow
