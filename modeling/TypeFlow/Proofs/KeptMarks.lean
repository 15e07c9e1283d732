import TypeFlow.Proofs.MarkedInstantiations
import TypeFlow.Proofs.Probes

/-!
# Marks over time

Whatever is done to a forest, a marked class stays marked unless it becomes an error, and a base type
that is marked is widened.  There are two exceptions.  A class that joins a nilable wrapper is redirected
to it as it is, so its mark is lost unless the wrapper has one.  And the copy that an instantiation makes
of a wrapper carries the mark of the wrapper, though it may wrap a type of the use that is not widened.

Main definitions:

- `Forest.Operation.Unmarks`: what joins the term in an operation may lose its mark.
- `Forest.Unmarking`: what joins the term in one of several operations may.
- `Forest.Copied`: the term was made by a call when or after wrappers were copied.

Main results:

- `Forest.perform_marked`, `Forest.perform_secured`: one operation keeps marks and guards.
- `Forest.marks_kept`: whatever is done keeps marks, and marked base types are widened.
- `Forest.marks_lost`: both exceptions happen.
-/

namespace TypeFlow

namespace Unifier.Call

open Forest (Heeds Upholds)

/-- The call makes copies of types. -/
def isInstantiation : Call → Bool
  | unify _ _ => false
  | instantiate _ _ _ => true

variable {call : Call} {depth : Nat} {s u : Unifier} {f₀ : Forest} {C : TermId → Prop} {r : Bool}

/-- A call that is carried out heeds marks. -/
theorem run_heeds (hs : s.Sound) (hwork : s.work.isNone = false)
    (hterms : ∀ t ∈ call.terms, t < s.forest.size)
    (hcopies : call.isInstantiation = true → f₀.HasWrappers → ∃ x, C x)
    (h : call.run depth s = some (r, u)) : Heeds f₀ C s.forest u.forest := by
  cases call with
  | unify a b =>
    obtain ⟨ra, s₁, hfind, h⟩ := bind_eq_some.1 h
    obtain ⟨rb, s₂, hfind', h⟩ := bind_eq_some.1 h
    obtain ⟨hlooks, -, -, hra, hrb⟩ := find_both hs (hterms a List.mem_cons_self)
      (hterms b (List.mem_cons_of_mem _ List.mem_cons_self)) hfind hfind'
    have hp := hlooks.proceeds hs
    rcases ite_eq_some.1 h with ⟨-, h⟩ | ⟨-, h⟩
    · obtain ⟨-, rfl⟩ := pure_eq_some.1 h
      exact hlooks.heeds hs
    obtain ⟨v, s₃, hmodify, h⟩ := bind_eq_some.1 h
    obtain rfl := modify_eq_some.1 hmodify
    have hs₃ : Sound { s₂ with met := [] } := ⟨hp.sound.forest, hp.sound.image⟩
    have hheeds : Heeds f₀ C s₂.forest u.forest :=
      unifyWithin_heeding depth ra rb { s₂ with met := [] } r u hs₃ (hlooks.work ▸ hwork) hra.lt
        hrb.lt h
    exact (hlooks.heeds hs).trans hs.forest hheeds
  | instantiate definition use pinned =>
    obtain ⟨v, s₁, hmodify, h⟩ := bind_eq_some.1 h
    obtain rfl := modify_eq_some.1 hmodify
    have hs₁ : Sound { s with met := [], image := [] } :=
      ⟨hs.forest, fun _ hp => absurd hp List.not_mem_nil⟩
    exact instantiateWithin_heeding (hcopies rfl) pinned depth definition use
      { s with met := [], image := [] } r u hs₁ hwork (hterms definition List.mem_cons_self)
      (hterms use (List.mem_cons_of_mem _ List.mem_cons_self)) h

/-- A call that only probes upholds marks. -/
theorem run_upholds (hs : s.Sound) (hwork : s.work.isNone = true)
    (h : call.run depth s = some (r, u)) : Upholds s.forest u.forest := by
  have hspares : Spares s u := by
    cases call with
    | unify a b => exact spares_unify depth a b _ _ _ h
    | instantiate definition use pinned => exact spares_instantiate depth definition use pinned _ _ _ h
  exact Forest.upholds_upkeeps hs.forest.rooted (hspares hwork hs.forest.rooted).1

end Unifier.Call

namespace Forest

open Unifier (Call)

variable {f g : Forest} {C : TermId → Prop} {op : Operation} {t x : TermId}

/-! ## One operation -/

namespace Operation

/-- The operation is a call that is carried out. -/
def isCommitted : Operation → Bool
  | call _ _ work => work.isSome
  | _ => false

/-- The operation makes copies of types. -/
def copies : Operation → Bool
  | call c _ work => work.isSome && c.isInstantiation
  | _ => false

/-- What joins the term in the course of the operation, which leads from `f` to `g`, may lose its mark:
the term was a wrapper without a mark, or it was made where wrappers may be copied. -/
def Unmarks (op : Operation) (f g : Forest) (x : TermId) : Prop :=
  op.isCommitted = true ∧ (f.kind x).isNilable = true ∧ ¬f.IsMarked x ∨
    op.copies = true ∧ f.HasWrappers ∧ f.size ≤ x ∧ x < g.size

end Operation

private theorem upholds_alloc (hf : f.Rooted) {k : Kind} (hlink : k.isLink = false) :
    Upholds f (f.alloc k).2 :=
  upholds_add hf hlink rfl

/-- What takes values in from callers is widened and marked, and then the function is made. -/
theorem upholds_allocFunction (hf : f.Sound) (input : Bool) (fids : IdSet) {args : List TermId}
    (ret : TermId) (hargs : ∀ x ∈ args, x < f.size) :
    Upholds f (f.allocFunction input fids args ret).2 := by
  have hwiden : ∀ f : Forest, f.Sound → (∀ x ∈ args, x < f.size) →
      Upholds f (args.foldl widenInputs f) ∧ (args.foldl widenInputs f).Rooted := by
    clear hargs
    induction args with
    | nil => exact fun f hf _ => ⟨.refl f, hf.rooted⟩
    | cons t rest ih =>
      intro f hf hargs
      obtain ⟨hrest, hrooted⟩ := ih (f.widenInputs t) ((Becomes.single (.widen t)).sound hf)
        fun x hx => by
          rw [size_widenInputs]
          exact hargs x (List.mem_cons_of_mem _ hx)
      exact ⟨(upholds_widenInputs hf (hargs t List.mem_cons_self)).trans hrest, hrooted⟩
  unfold allocFunction
  cases input with
  | false => exact upholds_alloc hf.rooted rfl
  | true =>
    obtain ⟨hwidened, hrooted⟩ := hwiden f hf hargs
    exact hwidened.trans (upholds_alloc hrooted rfl)

private theorem upholds_of_keptUp {α : Type} {m : ForestM α} (hm : Keeps KeptUp m) (hf : f.Sound)
    (h : (m f).map Prod.snd = some g) : Upholds f g := by
  obtain ⟨⟨a, g'⟩, hrun, rfl⟩ := Option.map_eq_some_iff.1 h
  exact upholds_upkeeps hf.rooted (hm f a g' hrun hf.rooted)

/-- What is no call, or a call that only probes, upholds marks. -/
theorem perform_upholds (hf : f.Sound) (hop : op.isCommitted = false) (h : perform op f = some g) :
    Upholds f g := by
  obtain ⟨hterms, h⟩ := perform_eq_some.1 h
  cases op with
  | var | base | error | nilable | record =>
    cases h
    exact upholds_alloc hf.rooted rfl
  | function input fids args ret =>
    cases h
    exact upholds_allocFunction hf input fids ret fun x hx => hterms x (List.mem_append_left _ hx)
  | find t => exact upholds_of_keptUp (keepsUp_find t) hf h
  | child t slot => exact upholds_of_keptUp (keepsUp_child t slot) hf h
  | occurs t types => exact upholds_of_keptUp (keepsUp_occursInAny t types) hf h
  | alike a b => exact upholds_of_keptUp (keepsUp_alike a b) hf h
  | register t node =>
    cases h
    exact upholds_addDeps hf.rooted t [node]
  | widen t =>
    cases h
    exact upholds_widenInputs hf (hterms t List.mem_cons_self)
  | call c depth work =>
    obtain ⟨⟨r, u⟩, hrun, rfl⟩ := Option.map_eq_some_iff.1 h
    exact Call.run_upholds (Call.sound_start hf work) (Option.isSome_eq_false_iff.1 hop) hrun

/-- A call that is carried out heeds marks. -/
theorem perform_heeds (hf : f.Sound) (hop : op.isCommitted = true)
    (hcopies : op.copies = true → f.HasWrappers → ∃ x, C x) (h : perform op f = some g) :
    Heeds f C f g := by
  obtain ⟨hterms, h⟩ := perform_eq_some.1 h
  cases op with
  | call c depth work =>
    obtain ⟨⟨r, u⟩, hrun, rfl⟩ := Option.map_eq_some_iff.1 h
    rw [Operation.isCommitted] at hop
    refine Call.run_heeds (Call.sound_start hf work) (Option.isNone_eq_false_iff.2 hop) hterms
      (fun hc => hcopies ?_) hrun
    rw [Operation.copies, hop, hc]
    rfl
  | _ => cases hop

/-- An operation leaves a class marked or makes an error of it, unless it takes the mark. -/
theorem perform_marked (hf : f.Sound) (h : perform op f = some g) (ht : f.IsMarked t) :
    g.IsMarked t ∨ g.IsError t ∨ g.Holds (op.Unmarks f g) t := by
  cases hop : op.isCommitted with
  | false => exact Or.inl ((perform_upholds hf hop h).marked t ht)
  | true =>
    have hheeds : Heeds f (fun x => op.copies = true ∧ f.HasWrappers ∧ f.size ≤ x) f g :=
      perform_heeds hf hop (fun hcopies hsome => ⟨f.size, hcopies, hsome, le_rfl⟩) h
    refine (hheeds.marked (accounted_self ?_) t ht).imp_right (Or.imp_right ?_)
    · rintro ⟨x, hcopies, hsome, -⟩ y hy
      exact ⟨hcopies, hsome, hy⟩
    · rintro ⟨x, hx, hxt⟩
      have htlt : t < g.size := ht.lt_size.trans_le (hheeds.becomes.evolves hf).grows.size
      have hlt : x < g.size :=
        lt_size_of_rep_lt (hxt ▸ rep_lt_size (hheeds.becomes.sound hf).rooted htlt)
      exact ⟨x, hx.imp (fun hbare => ⟨hop, hbare⟩)
        fun hnew => ⟨hnew.1, hnew.2.1, hnew.2.2, hlt⟩, hxt⟩

/-- After an operation every marked type is guarded, unless its class holds a copy: what counted as one
before, or, once there are copies, what a call makes. -/
theorem perform_secured (hf : f.Sound) (h : perform op f = some g) (hsecured : f.Secured C) :
    g.Secured fun x => C x ∨ op.isCommitted = true ∧
      (op.copies = true ∧ f.HasWrappers ∨ ∃ y, C y) ∧ f.size ≤ x ∧ x < g.size := by
  cases hop : op.isCommitted with
  | false =>
    have hup := perform_upholds hf hop h
    exact (hsecured.of_fresh hup.rep hup.guarded hup.fresh).mono fun _ => Or.inl
  | true =>
    have hheeds : Heeds f
        (fun x => C x ∨ (op.copies = true ∧ f.HasWrappers ∨ ∃ y, C y) ∧ f.size ≤ x) f g :=
      perform_heeds hf hop
        (fun hcopies hsome => ⟨f.size, Or.inr ⟨Or.inl ⟨hcopies, hsome⟩, le_rfl⟩⟩) h
    have hg := hheeds.secured (accounted_self ?_) (hsecured.mono fun _ => Or.inl)
    · refine (hg.of_lt_size (hheeds.becomes.sound hf)).mono ?_
      rintro x ⟨hx | ⟨hcopies, hx⟩, hlt⟩
      · exact Or.inl hx
      · exact Or.inr ⟨rfl, hcopies, hx, hlt⟩
    · rintro ⟨x, hx | ⟨hcopies, -⟩⟩ y hy
      · exact Or.inr ⟨Or.inr ⟨x, hx⟩, hy⟩
      · exact Or.inr ⟨hcopies, hy⟩

/-! ## Several operations -/

/-- One of the operations may take the mark of whatever joins the term. -/
inductive Unmarking : List Operation → Forest → TermId → Prop
  | now {op rest f g x} : perform op f = some g → op.Unmarks f g x → Unmarking (op :: rest) f x
  | later {op rest f g x} : perform op f = some g → Unmarking rest g x → Unmarking (op :: rest) f x

/-- After the operations on an empty forest the term counts as a copy: it was made by an instantiation
where there were wrappers, or by any call after one that made copies there. -/
inductive Copied : List Operation → TermId → Prop
  | first {before op f g x} : performAll before empty = some f → perform op f = some g →
      op.copies = true → f.HasWrappers → f.size ≤ x → x < g.size → Copied (before ++ [op]) x
  | next {before op f g x y} : performAll before empty = some f → perform op f = some g →
      op.isCommitted = true → Copied before y → f.size ≤ x → x < g.size → Copied (before ++ [op]) x
  | kept {before op x} : Copied before x → Copied (before ++ [op]) x

/-- Operations leave a class marked or make an error of it, unless one of them takes the mark. -/
theorem performAll_marked {ops : List Operation} (hf : f.Sound) (h : performAll ops f = some g)
    (ht : f.IsMarked t) : g.IsMarked t ∨ g.IsError t ∨ g.Holds (Unmarking ops f) t := by
  induction ops generalizing f with
  | nil =>
    cases h
    exact Or.inl ht
  | cons op rest ih =>
    obtain ⟨f₁, hop, hrest⟩ := Option.bind_eq_some_iff.1 h
    have hf₁ := (perform_becomes hf hop).sound hf
    have hbecomes := performAll_becomes hf₁ hrest
    rcases perform_marked hf hop ht with ht | ht | ht
    · rcases ih hf₁ hrest ht with ht | ht | ⟨x, hx, hxt⟩
      · exact Or.inl ht
      · exact Or.inr (Or.inl ht)
      · exact Or.inr (Or.inr ⟨x, .later hop hx, hxt⟩)
    · exact Or.inr (Or.inl (hbecomes.isError hf₁ ht))
    · obtain ⟨x, hx, hxt⟩ := ht.mono (hbecomes.evolves hf₁).grows.rep
      exact Or.inr (Or.inr ⟨x, .now hop hx, hxt⟩)

/-- Whatever was done to a forest, every marked type is guarded unless its class holds a copy. -/
theorem secured_copied {before : List Operation} (h : performAll before empty = some f) :
    f.Secured (Copied before) := by
  induction before using List.reverseRecOn generalizing f with
  | nil =>
    cases h
    intro t ht
    exact absurd ht.lt_size (Nat.not_lt_zero t)
  | append_singleton before op ih =>
    rw [performAll_append] at h
    obtain ⟨f₁, hbefore, h⟩ := Option.bind_eq_some_iff.1 h
    obtain ⟨g, hop, hnil⟩ := Option.bind_eq_some_iff.1 h
    cases hnil
    refine (perform_secured (performAll_sound hbefore) hop (ih hbefore)).mono ?_
    rintro x (hx | ⟨hcommitted, ⟨hcopies, hsome⟩ | ⟨y, hy⟩, hle, hlt⟩)
    · exact .kept hx
    · exact .first hbefore hop hcopies hsome hle hlt
    · exact .next hbefore hop hcommitted hy hle hlt

/-- Whatever was done to a forest and is done to it afterwards, what is marked stays so or becomes an
error, unless by then it has joined a wrapper that had no mark or a copy; and every base type that is
marked is widened, unless its class holds a copy. -/
theorem marks_kept {before after : List Operation} (hf : performAll before empty = some f)
    (hg : performAll after f = some g) (ht : f.IsMarked t) :
    (g.IsMarked t ∨ g.IsError t ∨ g.Holds (Unmarking after f) t) ∧
      ∀ flow, f.kind (f.rep t) = .base flow → flow.widen = flow ∨ f.Holds (Copied before) t := by
  refine ⟨performAll_marked (performAll_sound hf) hg ht, fun flow hflow => ?_⟩
  refine (secured_copied hf t ht).imp_left fun hguarded => ?_
  have hwide := hguarded.widened
  rw [hflow] at hwide
  exact Kind.widenedKind_base.1 hwide

/-- A text that callers hand in is not the constant that it was, and unified with another constant it is
none either. -/
theorem marks_kept_constants : ∃ f g,
    performAll [.base (.text (some "a") false), .function true .empty [0] 0] empty = some f ∧
      performAll [.base (.text (some "b") false), .call (.unify 0 2) 5 (some .empty)] f = some g ∧
      (f.IsMarked 0 ∧ f.kind (f.rep 0) = .base (.text none false) ∧
        g.rep 0 = g.rep 2 ∧ g.kind (g.rep 0) = .base (.text none false)) ∧
      (g.IsMarked 0 ∨ g.IsError 0 ∨ g.Holds
        (Unmarking [.base (.text (some "b") false), .call (.unify 0 2) 5 (some .empty)] f) 0) ∧
      ∀ flow, f.kind (f.rep 0) = .base flow → flow.widen = flow ∨ f.Holds
        (Copied [.base (.text (some "a") false), .function true .empty [0] 0]) 0 := by
  have hrun : ((performAll [.base (.text (some "a") false), .function true .empty [0] 0] empty).bind
      fun f => (performAll [.base (.text (some "b") false), .call (.unify 0 2) 5 (some .empty)] f).map
        fun g => decide (f.isInput (f.rep 0) = true ∧ f.kind (f.rep 0) = .base (.text none false) ∧
          g.rep 0 = g.rep 2 ∧ g.kind (g.rep 0) = .base (.text none false))) = some true := by
    decide +kernel
  obtain ⟨f, hf, hrun⟩ := Option.bind_eq_some_iff.1 hrun
  obtain ⟨g, hg, hkinds⟩ := Option.map_eq_some_iff.1 hrun
  have hkinds := of_decide_eq_true hkinds
  exact ⟨f, g, hf, hg, hkinds, marks_kept hf hg hkinds.1⟩

/-- A marked text loses its mark when it joins a nilable wrapper without one.  And where a record with a
wrapper that callers reach is instantiated, the wrapper that the use gets is marked like that one and
wraps a constant of the use, which it turns into. -/
theorem marks_lost :
    (¬∀ (before after : List Operation) (f g : Forest) (t : TermId),
      performAll before empty = some f → performAll after f = some g → f.IsMarked t →
        g.IsMarked t ∨ g.IsError t) ∧
    ¬∀ (before : List Operation) (f : Forest) (t : TermId) (flow : Flow),
      performAll before empty = some f → f.IsMarked t → f.kind (f.rep t) = .base flow →
        flow.widen = flow := by
  constructor
  · intro hkept
    have hrun : ((performAll [.var, .nilable 0, .base (.text none false), .function true .empty [2] 0]
        empty).bind fun f => (performAll [.call (.unify 1 2) 5 (some .empty)] f).map fun g =>
          decide (f.isInput (f.rep 2) = true ∧ g.isInput (g.rep 2) = false ∧
            (g.kind (g.rep 2)).isError = false)) = some true := by
      decide +kernel
    obtain ⟨f, hf, hrun⟩ := Option.bind_eq_some_iff.1 hrun
    obtain ⟨g, hg, hmarks⟩ := Option.map_eq_some_iff.1 hrun
    obtain ⟨hmarked, hlost, herror⟩ := of_decide_eq_true hmarks
    rcases hkept _ _ f g 2 hf hg hmarked with h | h
    · exact Bool.false_ne_true (hlost.symm.trans h)
    · exact Bool.false_ne_true (herror.symm.trans h)
  · intro hwidened
    have hrun : (performAll [.var, .nilable 0,
        .record (.cons "a" trivial 0 (.cons "b" (by decide) 1 .nil)) (.singleton 1) false,
        .function true .empty [1] 0, .base (.text (some "c") false),
        .record (.cons "a" trivial 4 .nil) (.singleton 2) true,
        .call (.instantiate 2 5 []) 9 (some .empty), .find 6] empty).map (fun f =>
          decide (f.isInput (f.rep 6) = true ∧ f.kind (f.rep 6) = .base (.text (some "c") true))) =
            some true := by
      decide +kernel
    obtain ⟨f, hf, hmarks⟩ := Option.map_eq_some_iff.1 hrun
    obtain ⟨hmarked, hconstant⟩ := of_decide_eq_true hmarks
    exact absurd (hwidened _ f 6 _ hf hmarked hconstant) (by decide)

end Forest

end TypeFlow
