import TypeFlow.Proofs.InstancesInPlace
import TypeFlow.Proofs.OccursChecks
import TypeFlow.Proofs.WakeUps

/-!
# Definitions that are joined

A definition that is an error or occurs in a pinned type is not copied for its uses: it is unified with them.
So a use for which it was instantiated is a term of its class, and instantiating it again at once finds it
alike to itself.

Main definitions:

- `Forest.Joint`: a definition that is unified with its uses.

Main results:

- `Unifier.instantiateWithin_joins`: a use that is said to have changed is of the definition's class.
- `Unifier.instantiate_of_rep_eq`: a definition of the class of its use is left alone.
-/

namespace TypeFlow

namespace Forest

/-- The definition is an error, or occurs in a pinned type where wrappers wrap variables. -/
def Joint (f : Forest) (definition : TermId) (pinned : List TermId) : Prop :=
  (f.kind (f.rep definition)).isError = true ∨ f.Spare ∧ f.ReachedFrom pinned (f.rep definition)

/-- A class is alike to itself. -/
theorem alike_self {f : Forest} {c : TermId} (hf : f.Sound) (hc : f.Calm c) :
    Returns (alike c c) f fun same _ => same = true := by
  have hrep := rep_of_not_link hc.root
  obtain ⟨x, g, hrun, rfl, hup, hcalm⟩ := find_returns (t := c) hf.rooted (Calm.ends (by rwa [hrep]))
  rw [hrep] at hrun hcalm
  have hrep' := rep_of_not_link hcalm.root
  obtain ⟨y, h, hrun', rfl, -, -⟩ :=
    find_returns (t := c) (hup.sound hf).rooted (Calm.ends (by rwa [hrep']))
  rw [hrep'] at hrun'
  refine ⟨true, h, bind_eq_some.2 ⟨f, f, get_eq_some.2 ⟨rfl, rfl⟩,
    bind_eq_some.2 ⟨(true, []), h, ?_, pure_eq_some.2 ⟨rfl, rfl⟩⟩⟩, rfl⟩
  refine bind_eq_some.2 ⟨_, g, hrun, bind_eq_some.2 ⟨_, h, hrun', ?_⟩⟩
  rw [if_pos rfl]
  exact pure_eq_some.2 ⟨rfl, rfl⟩

end Forest

namespace Unifier

variable {f : Forest} {u : Unifier} {definition use : TermId} {pinned : List TermId} {depth : Nat}
  {w : Worklist} {r : Bool}

/-- A definition of the class of its use is left alone, if that can be looked up. -/
theorem instantiate_of_rep_eq (hf : f.Sound) (hends : f.Ends definition)
    (hrep : f.rep definition = f.rep use) (hdepth : 0 < depth) (work : Option Worklist) :
    ∃ u, instantiate depth definition use pinned (Call.start f work) = some (false, u) := by
  obtain ⟨depth, rfl⟩ := Nat.exists_eq_add_of_le' hdepth
  obtain ⟨a, g, hfind, rfl, hup, hcalm⟩ := Forest.find_returns hf.rooted hends
  have hs := hup.steady hf.rooted
  have hg := hup.sound hf
  have huse : g.rep use = f.rep definition := by rw [hs.rep, hrep]
  obtain ⟨b, g', hfind', rfl, hup', hcalm'⟩ :=
    Forest.find_returns (t := use) hg.rooted (Forest.Calm.ends (by rwa [huse]))
  rw [huse] at hfind' hcalm'
  obtain ⟨same, h, halike, rfl⟩ := Forest.alike_self (hup'.sound hg) hcalm'
  refine ⟨⟨h, work, [], [(f.rep definition, f.rep definition)]⟩,
    bind_eq_some.2 ⟨(), Call.start f work, modify_eq_some.2 rfl, ?_⟩⟩
  refine bind_eq_some.2 ⟨_, _, onForest_eq_some.2 ⟨g, hfind, rfl⟩, ?_⟩
  refine bind_eq_some.2 ⟨_, _, onForest_eq_some.2 ⟨g', hfind', rfl⟩, ?_⟩
  refine bind_eq_some.2 ⟨none, _, imageOf_eq_some.2 ⟨rfl, rfl⟩, ?_⟩
  refine bind_eq_some.2 ⟨true, _, onForest_eq_some.2 ⟨h, halike, rfl⟩, ?_⟩
  rw [if_pos rfl]
  exact bind_eq_some.2 ⟨(), _, modify_eq_some.2 rfl, pure_eq_some.2 ⟨rfl, rfl⟩⟩

/-- A definition that is an error or occurs in a pinned type is of one class with its use when that is said
to have changed. -/
theorem instantiateWithin_joins (hf : f.Sound) (hdefinition : definition < f.size) (huse : use < f.size)
    (hjoint : f.Joint definition pinned)
    (h : instantiateWithin pinned depth definition use (Call.start f (some w)) = some (true, u)) :
    u.forest.Sound ∧ u.forest.rep definition = u.forest.rep use := by
  cases depth with
  | zero => exact (failure_eq_some.1 h).elim
  | succ depth =>
    have hs := Call.sound_start hf (some w)
    obtain ⟨a, s₁, hfind, h⟩ := bind_eq_some.1 h
    obtain ⟨b, s₂, hfind', h⟩ := bind_eq_some.1 h
    obtain ⟨hlooks, -, ⟨rfl, rfl⟩, ha, hb⟩ := find_both hs hdefinition huse hfind hfind'
    obtain ⟨image, s₃, himage, h⟩ := bind_eq_some.1 h
    obtain ⟨rfl, rfl⟩ := imageOf_eq_some.1 himage
    simp only [hlooks.image, Call.start, List.lookup_nil] at h
    obtain ⟨same, s₃, halike, h⟩ := bind_eq_some.1 h
    have hp₂ := hlooks.proceeds hs
    have hlooks₃ := hlooks.trans (looks_onForest (Forest.keepsUp_alike _ _) hp₂.sound halike)
    rcases ite_eq_some.1 h with ⟨-, h⟩ | ⟨-, h⟩
    · obtain ⟨v, s₄, -, h⟩ := bind_eq_some.1 h
      cases (pure_eq_some.1 h).1
    replace h := of_bind_view h
    rcases ite_eq_some.1 h with ⟨-, h⟩ | ⟨-, h⟩
    · obtain ⟨v, s₄, -, h⟩ := bind_eq_some.1 h
      cases (pure_eq_some.1 h).1
    have hp₃ := hlooks₃.proceeds hs
    obtain ⟨shared, s₄, hrun, h⟩ := bind_eq_some.1 h
    have hp₄ := hp₃.trans ((shared_looks hp₃.sound hrun).proceeds hp₃.sound)
    have hmet₄ := (shared_looks hp₃.sound hrun).met.trans hlooks₃.met
    obtain rfl : shared = true := by
      replace hrun := of_bind_view hrun
      rcases ite_eq_some.1 hrun with ⟨-, hrun⟩ | ⟨herror, hrun⟩
      · exact (pure_eq_some.1 hrun).1.symm
      obtain ⟨hspare, t, ht, hreach⟩ := hjoint.resolve_left fun hk => herror <| by
        obtain ⟨cause, hcause⟩ := Kind.isError_iff.1 hk
        have hcalm := Forest.calm_of_not_nilable (Forest.not_isLink_rep hf.rooted definition)
          (by rw [hcause]; rfl)
        rw [(hlooks₃.upkeeps.same hf.rooted hcalm).isError, hk]
      have hunmoved := Forest.unmoved_of_upkeeps hf.rooted hspare hlooks₃.upkeeps
      obtain ⟨g, hrun, -⟩ := onForest_eq_some.1 hrun
      obtain ⟨b, g', hrun', hb, -⟩ := Forest.occursInAny_iff hp₃.sound.forest.rooted
        (Forest.WrapsVariables.of_upkeeps hf.rooted hlooks₃.upkeeps hspare) (f.rep definition) pinned
      cases hrun.symm.trans hrun'
      refine hb.2 ⟨t, ht, ?_⟩
      rw [hunmoved.rep, hunmoved.rep, Forest.rep_rep hf.rooted]
      exact hunmoved.reaches hreach
    obtain ⟨progress, s₅, hunify, h⟩ := bind_eq_some.1 h
    obtain ⟨v, s₆, hset, h⟩ := bind_eq_some.1 h
    obtain ⟨-, rfl⟩ := pure_eq_some.1 h
    obtain rfl := modify_eq_some.1 hset
    obtain ⟨hp, hmerged⟩ := unifyWithin_proceeds hp₄.sound
      (hp₄.lt hs (Forest.rep_lt_size hf.rooted hdefinition)) (hp₄.lt hs (Forest.rep_lt_size hf.rooted huse))
      hunify
    have hrep := ((hp₄.trans hp).evolves hs).rep_rep hf.rooted
    refine ⟨hp.sound.forest, ?_⟩
    rcases hmerged (by rw [hp₄.probe]; rfl) with h | h
    · rw [← hrep definition, ← hrep use]
      exact h
    · rw [hmet₄] at h
      exact absurd h List.not_mem_nil

end Unifier

end TypeFlow
