import TypeFlow.Proofs.ForestHistories

/-!
# Nobody is forgotten

A node that was registered with a term once is registered with every class that the term leads to,
however these classes have come about since.  So a call of the unifier that changes any of them
finds the node there and wakes it.

Main definitions:

- `Forest.Spare`: every nilable wrapper wraps a variable.

Main results:

- `Forest.registered_of_mem`: a node that was registered stays so.
- `Unifier.Call.run_wakes`: a call wakes the nodes whose types it changes.
- `Forest.registrations_kept`: both, after any operations.
-/

namespace TypeFlow

namespace Forest

variable {f g : Forest}

/-- Every nilable wrapper wraps a variable: what it wraps has not become known since the wrapper was
last looked up. -/
def Spare (f : Forest) : Prop :=
  ∀ wrapper inner, f.kind wrapper = .nilable inner → f.kind (f.rep inner) = .var

/-- A node that was registered with a term stays registered with all that the term leads to. -/
theorem registered_of_mem {ops : List Operation} (h : performAll ops empty = some f) {t : TermId}
    {n : NodeId} (hmem : Operation.register t n ∈ ops) : f.Registered t n := by
  obtain ⟨before, after, rfl⟩ := List.append_of_mem hmem
  rw [performAll_append] at h
  obtain ⟨f₁, hbefore, h⟩ := Option.bind_eq_some_iff.1 h
  obtain ⟨f₂, hregister, hafter⟩ := Option.bind_eq_some_iff.1 h
  have hf₁ := performAll_sound hbefore
  have hf₂ := (perform_becomes hf₁ hregister).sound hf₁
  obtain ⟨hterms, hregister⟩ := perform_eq_some.1 hregister
  have ht : t < f₁.size := hterms t (List.mem_singleton_self t)
  cases hregister
  refine (performAll_becomes hf₂ hafter).registered hf₂ ?_ (registered_addDeps hf₁ ht n)
  rw [size_addDeps]
  exact ht

end Forest

open Forest (Operation performAll)

/-- A call that is given a worklist wakes every node that is registered with all that a term leads
to, if it changes any of that. -/
theorem Unifier.Call.run_wakes {call : Call} {depth : Nat} {f : Forest} {w : Worklist} {r : Bool}
    {u : Unifier} (hf : f.Sound) (hterms : ∀ t ∈ call.terms, t < f.size) (hspare : f.Spare)
    (h : call.run depth (start f (some w)) = some (r, u)) :
    ∃ w', u.work = some w' ∧ ∀ t n, f.Registered t n → ∀ c, f.Reaches (f.rep t) c →
      (u.forest.kind c).isLink = true ∨ ¬(f.kind c).Refreshed f.rep (u.forest.kind c) →
        w'.has n = true := by
  have hp := run_proceeds (sound_start hf (some w)) hterms h
  obtain ⟨w', hw'⟩ : ∃ w', u.work = some w' :=
    Option.isSome_iff_exists.1 (by rw [← Option.not_isNone, hp.probe]; rfl)
  refine ⟨w', hw', fun t n hn c hc hchanged => ?_⟩
  rcases hp.leads.woken hf hn hspare with ⟨w'', hw'', hpending⟩ | hintact
  · rw [hw'] at hw''
    cases hw''
    exact OrderedSet.contains_eq_true.2 hpending
  · have hrefreshed := hintact c hc
    rcases hchanged with hlink | hkind
    · rw [hrefreshed.isLink] at hlink
      have hclass := hc.rep_eq hf.rooted (Forest.rep_rep hf.rooted t)
      have hroot := Forest.not_isLink_rep hf.rooted c
      rw [hclass, hlink] at hroot
      cases hroot
    · exact absurd hrefreshed hkind

namespace Forest

open Unifier (Call)

/-- After any operations that have a result, whoever was registered with a term is registered with
all that it leads to.  If wrappers wrap variables at that moment, a call that is given a worklist
wakes everyone who was registered with a term that leads to a class which the call merges into
another or whose kind it changes, otherwise than by replacing children by their representatives. -/
theorem registrations_kept {ops : List Operation} {f : Forest}
    (h : performAll ops empty = some f) :
    (∀ t n, .register t n ∈ ops → f.Registered t n) ∧
      ∀ (call : Call) (depth : Nat) (w : Worklist) (r : Bool) (u : Unifier), f.Spare →
        (∀ t ∈ call.terms, t < f.size) → call.run depth (Call.start f (some w)) = some (r, u) →
          ∃ w', u.work = some w' ∧ ∀ t n, .register t n ∈ ops → ∀ c, f.Reaches (f.rep t) c →
            (u.forest.kind c).isLink = true ∨ ¬(f.kind c).Refreshed f.rep (u.forest.kind c) →
              w'.has n = true := by
  refine ⟨fun t n hmem => registered_of_mem h hmem, ?_⟩
  intro call depth w r u hspare hterms hrun
  obtain ⟨w', hw', hwakes⟩ := Call.run_wakes (performAll_sound h) hterms hspare hrun
  exact ⟨w', hw', fun t n hmem => hwakes t n (registered_of_mem h hmem)⟩

/-- A node registered with a nilable wrapper waits when the variable in it becomes a function. -/
theorem registrations_kept_wrapper : ∃ f r u w',
    performAll [.var, .nilable 0, .base (.function (.singleton 1) false), .register 1 7] empty =
        some f ∧ f.Registered 1 7 ∧
      (Call.unify 0 2).run 5 (Call.start f (some .empty)) = some (r, u) ∧
        (u.forest.kind 0).isLink = true ∧ u.work = some w' ∧ w'.has 7 = true := by
  set f : Forest := ⟨#[⟨.var, .ofList [7], false⟩, ⟨.nilable 0, .ofList [7], false⟩,
    ⟨.base (.function (.singleton 1) false), .empty, false⟩], 0⟩ with hf
  have hops : performAll [.var, .nilable 0, .base (.function (.singleton 1) false),
    .register 1 7] empty = some f := rfl
  have hlink : ((Call.unify 0 2).run 5 (Call.start f (some .empty))).map
      (fun result => (result.2.forest.kind 0).isLink) = some true := by
    rw [hf]
    decide +kernel
  obtain ⟨⟨r, u⟩, hrun, hlink⟩ := Option.map_eq_some_iff.1 hlink
  have hspare : f.Spare := by
    intro wrapper inner hkind
    have hlt : wrapper < 3 := lt_size_of_kind (f := f) (by rw [hkind]; exact Kind.noConfusion)
    obtain _ | _ | _ | n := wrapper
    · cases hkind
    · cases hkind
      rfl
    · cases hkind
    · exact absurd hlt (Nat.not_lt.2 (Nat.le_add_left 3 n))
  obtain ⟨hregistered, hwakes⟩ := registrations_kept hops
  obtain ⟨w', hw', hhas⟩ := hwakes (.unify 0 2) 5 .empty r u hspare (by decide) hrun
  have hmem : Operation.register 1 7 ∈ [Operation.var, .nilable 0,
    .base (.function (.singleton 1) false), .register 1 7] := by simp
  have hreach : f.Reaches (f.rep 1) 0 := .single ⟨.inner, 0, rfl, rfl⟩
  exact ⟨f, r, u, w', hops, hregistered 1 7 hmem, hrun, hlink, hw',
    hhas 1 7 hmem 0 hreach (.inl hlink)⟩

end Forest

end TypeFlow
