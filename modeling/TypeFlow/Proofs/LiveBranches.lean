import TypeFlow.Analysis.Listing
import TypeFlow.Proofs.FaithfulRuns
import TypeFlow.Proofs.PrimitiveRules

/-!
# Branches that can run

The type step of a conditional unifies the result with the branches that its predicate lets run.  It
cannot be taken back, though the predicate may still fall.  It need not be: a predicate that falls
keeps every branch that could run, so what was unified once would be unified again by every later
step, and the flow of a conditional falls with its predicate and both its branches.

Main definitions:

- `Program.liveAt`: the branches that the type step of a conditional unifies.

Main results:

- `Program.condStep_joins`: the type step unifies the result with these branches.
- `Program.branches_stay`: they can run and stay unified in every later state of a run.
-/

namespace TypeFlow

open Unifier (Continues Call)

/-! ## Results of functions -/

namespace Unifier

variable {s u : Unifier}

/-- A function keeps its result while classes are looked up. -/
theorem Looks.ret (hs : s.Sound) (h : Looks s u) {c ret : TermId}
    (hret : (s.forest.kind c).child? .ret = some ret) :
    ∃ ret', (u.forest.kind c).child? .ret = some ret' ∧ s.forest.rep ret' = s.forest.rep ret := by
  have hcalm : s.forest.Calm c := by
    refine Forest.calm_of_not_nilable (Kind.isLink_of_child? hret) ?_
    cases hk : s.forest.kind c <;> rw [hk] at hret <;> first | rfl | cases hret
  obtain ⟨hrefreshed, -⟩ := h.calm hs hcalm
  have hsome := hrefreshed.isSome_child? .ret
  rw [hret] at hsome
  obtain ⟨ret', hret'⟩ := Option.isSome_iff_exists.1 hsome
  obtain ⟨x, hx, hsame⟩ := hrefreshed.child? (Forest.rep_rep hs.forest.rooted) hret'
  obtain rfl := Option.some.inj (hret.symm.trans hx)
  refine ⟨ret', hret', ?_⟩
  rcases hsame with rfl | rfl
  · rfl
  · exact Forest.rep_rep hs.forest.rooted _

end Unifier

namespace Program

variable {p : Program} {s t : State}

/-- The branches of a conditional that its type step unifies.  Without flows both can run. -/
def liveAt (p : Program) (flows : Flows) (fid : FunctionId) : Primitive.Branches :=
  if p.settings.flows then Primitive.liveBranches ((flows.ofFormals fid).head?.getD .any)
  else ⟨true, true⟩

/-- The flow of the first parameter falls with the flows. -/
theorem head_le {v w : Flows} (h : v ≤ w) (fid : FunctionId) :
    (v.ofFormals fid).head?.getD .any ≤ (w.ofFormals fid).head?.getD .any := by
  have hcount := h.formalCount fid
  have hformal := h.formal fid 0
  unfold Flows.formal at hformal
  cases hw : w.ofFormals fid with
  | nil => exact Flow.le_any _
  | cons b _ =>
    cases hv : v.ofFormals fid with
    | nil => simp [hv, hw] at hcount
    | cons a _ => simpa [hv, hw] using hformal

/-- Branches that can run once can run while flows fall. -/
theorem liveAt_within {v w : Flows} (h : v ≤ w) (fid : FunctionId) :
    (p.liveAt w fid).Within (p.liveAt v fid) := by
  unfold liveAt
  split
  · exact Primitive.liveBranches_within (head_le h fid)
  · exact ⟨id, id⟩

/-! ## The type step of a conditional -/

section Joins

variable {s u : Unifier} (hs : s.Sound) (hwork : s.work.isNone = false) {a b c : TermId} {r : Bool}

include hs hwork

/-- Two terms that are unified are one class, unless this is a probe. -/
theorem unify_joins (ha : a < s.forest.size) (hb : b < s.forest.size)
    (h : p.unify a b s = some (r, u)) : Continues s u ∧ u.forest.rep a = u.forest.rep b :=
  ⟨(Unifier.unify_safe hs ha hb r u h).1, (Unifier.unify_proceeds hs ha hb h).2 hwork⟩

/-- So are three that are unified in turn. -/
theorem unify_both_joins (ha : a < s.forest.size) (hb : b < s.forest.size)
    (hc : c < s.forest.size)
    (h : (do
      let progress ← p.unify a b
      let a ← Unifier.find a
      let c ← Unifier.find c
      let changed ← p.unify a c
      return changed || progress) s = some (r, u)) :
    Continues s u ∧ u.forest.rep a = u.forest.rep b ∧ u.forest.rep a = u.forest.rep c := by
  obtain ⟨progress, s₁, hfirst, h⟩ := bind_eq_some.1 h
  obtain ⟨h₁, hjoined⟩ := unify_joins hs hwork ha hb hfirst
  obtain ⟨a', s₂, hfind, h⟩ := bind_eq_some.1 h
  obtain ⟨rfl, -⟩ := Unifier.find_looks h₁.sound hfind
  obtain ⟨h₂, ha'⟩ := Unifier.find_safe h₁.sound (h₁.lt ha) _ _ hfind
  obtain ⟨c', s₃, hfind', h⟩ := bind_eq_some.1 h
  obtain ⟨rfl, -⟩ := Unifier.find_looks h₂.sound hfind'
  obtain ⟨h₃, hc'⟩ := Unifier.find_safe h₂.sound (h₂.lt (h₁.lt hc)) _ _ hfind'
  obtain ⟨changed, s₄, hsecond, h⟩ := bind_eq_some.1 h
  obtain ⟨-, rfl⟩ := pure_eq_some.1 h
  have hwork₃ : s₃.work.isNone = false := by
    rw [((h₁.trans h₂).trans h₃).probe, hwork]
  obtain ⟨h₄, hjoined'⟩ := unify_joins h₃.sound hwork₃ (h₃.lt ha') hc' hsecond
  refine ⟨((h₁.trans h₂).trans h₃).trans h₄, ?_, ?_⟩
  · exact ((h₂.trans h₃).trans h₄).evolves.grows.rep _ _ hjoined
  · rwa [((h₂.trans h₃).trans h₄).evolves.rep_rep h₁.sound.forest.rooted,
      (h₃.trans h₄).evolves.rep_rep h₂.sound.forest.rooted] at hjoined'

end Joins

/-- The result of the conditional is of one class with every branch that can run. -/
structure Joined (f : Forest) (live : Primitive.Branches) (formals : List TermId) (ret : TermId) :
    Prop where
  onTrue : live.onTrue = true → ∀ x, formals[1]? = some x → f.rep ret = f.rep x
  onFalse : live.onFalse = true → ∀ x, formals[2]? = some x → f.rep ret = f.rep x

private theorem Joined.of_evolves {f g : Forest} {live : Primitive.Branches} {formals : List TermId}
    {ret : TermId} (h : Joined f live formals ret) (hfg : Forest.Evolves f g) :
    Joined g live formals ret :=
  ⟨fun hlive x hx => hfg.grows.rep _ _ (h.onTrue hlive x hx),
    fun hlive x hx => hfg.grows.rep _ _ (h.onFalse hlive x hx)⟩

/-- The type step of a conditional makes its result one class with every branch that can run. -/
theorem condStep_joins {s u : Unifier} (hs : s.Sound) (hp : p.TermsIn s.forest.size)
    (hwork : s.work.isNone = false) {flows : Flows} {id : NodeId} {fid fid' : FunctionId}
    {formals : List TermId} {ret : TermId} {r : Bool}
    (hformals : (p.kind id).function? = some (fid', formals))
    (hret : (s.forest.kind (s.forest.rep (p.node id).type)).child? .ret = some ret)
    (h : p.condStep flows id fid s = some (r, u)) :
    Joined u.forest (p.liveAt flows fid) formals ret := by
  obtain ⟨me, s₁, hme, h⟩ := bind_eq_some.1 h
  obtain ⟨rfl, hlooks₁⟩ := Unifier.find_looks hs hme
  obtain ⟨h₁, hme_lt⟩ := typeOf_safe hs hp id _ _ hme
  obtain ⟨ret₁, hret₁, hsame⟩ := hlooks₁.ret hs hret
  obtain ⟨result?, s₂, hresult, h⟩ := bind_eq_some.1 h
  obtain ⟨h₂, hlt⟩ := Unifier.child_safe h₁.sound _ _ _ _ hresult
  have hanswer := Unifier.child_eq h₁.sound hresult
  rw [hret₁, Option.map_some, (hlooks₁.steady hs).rep, hsame] at hanswer
  subst hanswer
  simp only at h
  obtain ⟨branches, s₃, hbranches, h⟩ := bind_eq_some.1 h
  have hp₂ := hp.mono (h₁.trans h₂).size
  obtain ⟨h₃, hbranches_lt⟩ := formalsOf_safe h₂.sound hp₂ id _ _ hbranches
  have hto₃ := (h₁.trans h₂).trans h₃
  have hwork₃ : s₃.work.isNone = false := by rw [hto₃.probe, hwork]
  have hret_lt : s.forest.rep ret < s₃.forest.size := h₃.lt (hlt _ rfl)
  have hbranch_lt := branch_lt hbranches_lt (h₃.lt (h₂.lt hme_lt))
  -- A branch stands for the class of the parameter at its position.
  have hstands : ∀ {i : Nat} {v : Unifier}, Continues s₃ v →
      v.forest.rep (s.forest.rep ret) =
        v.forest.rep (branches[i]?.getD (s.forest.rep (p.node id).type)) →
      ∀ x, formals[i]? = some x → v.forest.rep ret = v.forest.rep x := by
    intro i v hv hjoined x hx
    rw [formalsOf, hformals] at hbranches
    obtain ⟨f, hfind, rfl⟩ := Unifier.onForest_eq_some.1 hbranches
    obtain ⟨rfl, -⟩ := Forest.findAll_upkeeps h₂.sound.forest.rooted hfind
    rwa [List.getElem?_map, hx, Option.map_some, Option.getD_some,
      (h₃.trans hv).evolves.rep_rep h₂.sound.forest.rooted,
      (hto₃.trans hv).evolves.rep_rep hs.forest.rooted] at hjoined
  unfold liveAt
  generalize (if p.settings.flows then
    Primitive.liveBranches ((flows.ofFormals fid).head?.getD .any) else ⟨true, true⟩) = live at h ⊢
  rcases live with ⟨_ | _, _ | _⟩
  · exact ⟨nofun, nofun⟩
  · obtain ⟨h₄, hjoined⟩ := unify_joins h₃.sound hwork₃ hret_lt (hbranch_lt 2) h
    exact ⟨nofun, fun _ => hstands h₄ hjoined⟩
  · obtain ⟨h₄, hjoined⟩ := unify_joins h₃.sound hwork₃ hret_lt (hbranch_lt 1) h
    exact ⟨fun _ => hstands h₄ hjoined, nofun⟩
  · obtain ⟨h₄, hjoined, hjoined'⟩ :=
      unify_both_joins h₃.sound hwork₃ hret_lt (hbranch_lt 1) (hbranch_lt 2) h
    exact ⟨fun _ => hstands h₄ hjoined, fun _ => hstands h₄ hjoined'⟩

/-! ## Runs -/

/-- So does a step of a run. -/
theorem perform_type_joins (hs : p.Termed s) {id : NodeId} {fid : FunctionId}
    {formals : List TermId} {ret : TermId} (hkind : p.kind id = .prim .cond fid formals)
    (hret : (s.forest.kind (s.forest.rep (p.node id).type)).child? .ret = some ret)
    (h : p.perform (.type id) s = some ((), t)) :
    Joined t.forest (p.liveAt s.flows fid) formals ret := by
  obtain ⟨found, t', hstep, h⟩ := bind_eq_some.1 h
  obtain ⟨-, rfl⟩ := pure_eq_some.1 h
  obtain ⟨b, hadvance⟩ := advanceType_of_stepType hstep
  obtain ⟨u, v, hrun, hu, hstays, rfl⟩ := advanceType_runs hs hadvance
  have hcond : p.typeStep s.flows id = p.condStep s.flows id fid := by
    unfold typeStep
    rw [hkind]
  rw [hcond] at hrun
  have hformals : (p.kind id).function? = some (fid, formals) := by
    rw [hkind]
    rfl
  have hjoined := condStep_joins (Call.sound_start hs.sound (some s.work)) hs.terms rfl hformals
    hret hrun
  exact hjoined.of_evolves (hstays.continues hu.sound).evolves

/-- A branch that can run under a predicate can run under every lower one, and the flow of a
conditional falls with its predicate and both its branches.  So in every run, whatever branches the
type step of a conditional unified its result with can run in every later state, and are of one class
with the result there. -/
theorem branches_stay :
    (∀ c c' : Flow, c.covers c' = true →
      (Primitive.liveBranches c).Within (Primitive.liveBranches c')) ∧
    (∀ c c' a a' b b' : Flow, c.covers c' = true → a.covers a' = true → b.covers b' = true →
      (Primitive.chosen c a b).covers (Primitive.chosen c' a' b') = true) ∧
    ∀ e settings depth p s₀, Program.build e settings depth = .ok (p, s₀) →
      ∀ s t u, p.Leads s₀ s → ∀ id fid formals ret, p.kind id = .prim .cond fid formals →
        (s.forest.kind (s.forest.rep (p.node id).type)).child? .ret = some ret →
        p.perform (.type id) s = some ((), t) → p.Leads t u →
          (p.liveAt s.flows fid).Within (p.liveAt u.flows fid) ∧
            Joined u.forest (p.liveAt s.flows fid) formals ret := by
  refine ⟨fun c c' h => Primitive.liveBranches_within h,
    fun c c' a a' b b' hc ha hb => Primitive.chosen_mono hc ha hb, ?_⟩
  intro e settings depth p s₀ hbuild s t u hs id fid formals ret hkind hret hstep hu
  obtain ⟨hsound, hterms⟩ := termed_of_build hbuild
  have hs := termed_of_leads ⟨hsound, hterms⟩ hs
  have hmove : p.Leads s t := .single (.step _ hstep)
  have ht := termed_of_leads hs hmove
  refine ⟨liveAt_within (leads_le (hmove.trans hu)) fid, ?_⟩
  exact (perform_type_joins hs hkind hret hstep).of_evolves (ripens_of_leads ht hu).evolves

/-- A function without a body that is listed as `if` is a conditional. -/
theorem kind_of_label {kind : NodeKind} {fid : FunctionId} {formals : List TermId}
    (hfunction : kind.function? = some (fid, formals)) (hchildren : kind.children = [])
    (hlabel : kind.label = "if") : kind = .prim .cond fid formals := by
  cases kind with
  | lambda => cases hchildren
  | prim primitive =>
    cases hfunction
    have hname : primitive.shownName = "if" := hlabel
    have hcond : primitive = .cond := by
      revert hname
      cases primitive <;> decide
    rw [hcond]
  | _ => cases hfunction

/-- The program `(if 1 2 3)`: at the end of its run the true branch alone can run, and the result is
of its class. -/
theorem branches_stay_one : ∃ p s₀ stats s t fid formals ret,
    Program.build (.apply (.prim .cond) [.int 1, .int 2, .int 3]) {} = .ok (p, s₀) ∧
      p.run s₀ = some (stats, s) ∧ p.kind 2 = .prim .cond fid formals ∧
      (s.forest.kind (s.forest.rep (p.node 2).type)).child? .ret = some ret ∧
      p.perform (.type 2) s = some ((), t) ∧
      p.liveAt s.flows fid = ⟨true, false⟩ ∧
      (p.liveAt s.flows fid).Within (p.liveAt t.flows fid) ∧
      ∀ x, formals[1]? = some x → t.forest.rep ret = t.forest.rep x := by
  have hrun : ((Program.build (.apply (.prim .cond) [.int 1, .int 2, .int 3]) {}).toOption.bind
      fun r => (r.1.run r.2).bind fun x => (r.1.perform (.type 2) x.2).bind fun _ =>
        (r.1.kind 2).function?.bind fun function =>
          ((x.2.forest.kind (x.2.forest.rep (r.1.node 2).type)).child? .ret).map fun _ =>
            ((r.1.kind 2).children, (r.1.kind 2).label, r.1.liveAt x.2.flows function.1)) =
      some ([], "if", ⟨true, false⟩) := by
    decide +kernel
  obtain ⟨r, hbuild, hrun⟩ := Option.bind_eq_some_iff.1 hrun
  obtain ⟨⟨stats, s⟩, hall, hrun⟩ := Option.bind_eq_some_iff.1 hrun
  obtain ⟨⟨⟨⟩, t⟩, hstep, hrun⟩ := Option.bind_eq_some_iff.1 hrun
  obtain ⟨⟨fid, formals⟩, hfunction, hrun⟩ := Option.bind_eq_some_iff.1 hrun
  obtain ⟨ret, hret, hanswers⟩ := Option.map_eq_some_iff.1 hrun
  simp only [Prod.mk.injEq] at hanswers
  obtain ⟨hchildren, hlabel, hlive⟩ := hanswers
  obtain ⟨⟨p, s₀⟩, hok, rfl⟩ := ok_of_map (f := id) (by rw [Option.map_id]; exact hbuild)
  have hkind : p.kind 2 = .prim .cond fid formals := kind_of_label hfunction hchildren hlabel
  obtain ⟨hwithin, hjoined⟩ := branches_stay.2.2 _ _ _ _ _ hok s t t
    (keeps_leads_run p s₀ stats s hall) 2 fid formals ret hkind hret hstep .refl
  refine ⟨p, s₀, stats, s, t, fid, formals, ret, hok, hall, hkind, hret, hstep, hlive, hwithin,
    hjoined.onTrue ?_⟩
  have htrue := congrArg Primitive.Branches.onTrue hlive
  exact htrue

end Program

end TypeFlow
