import TypeFlow.Proofs.PreparedTrees

/-!
# Resolved names

A program is prepared if every identifier is bound by something around it, and otherwise the first
one that is not is reported.  In a prepared program an identifier is bound by the nearest node on
its way up that binds its name.

Main definitions:

- `Program.Resolved`: what an identifier of a prepared program is bound to.

Main results:

- `Program.build_eq_error_iff`: when a program is not prepared.
- `Program.names_resolved`: what is reported, and how identifiers are bound otherwise.
-/

namespace TypeFlow

private theorem findSome?_filterMap {α β γ : Type} (xs : List α) (f : α → Option β) (g : β → Option γ) :
    (xs.filterMap f).findSome? g = xs.findSome? fun a => (f a).bind g := by
  induction xs with
  | nil => rfl
  | cons a rest ih =>
    rw [List.findSome?_cons, ← ih]
    cases h : f a with
    | none => rw [List.filterMap_cons_none h]; rfl
    | some b => rw [List.filterMap_cons_some h, List.findSome?_cons]; rfl

namespace Program

variable {e : Expr} {settings : Settings} {depth : Nat} {p : Program} {s : State}

/-! ## Errors -/

/-- A program is not prepared if and only if an identifier is unbound, and the error names the
first. -/
theorem build_eq_error_iff {cause : BuildError} : build e settings depth = .error cause ↔
    ∃ name, firstUnbound (e.identifiers []) = some name ∧ cause = .undefined name := by
  have hmeets := Builder.lowerProgram_meets e settings
  have hbuild : build e settings depth =
      (Builder.lowerProgram e (Builder.start settings)).bind fun r =>
        .ok (⟨r.2.nodes, r.2.functions, settings, depth⟩,
          ⟨r.2.forest, r.2.initialFlows, r.2.work⟩) := rfl
  cases hfirst : firstUnbound (e.identifiers []) with
  | some name =>
    rw [hfirst] at hmeets
    have hlower : Builder.lowerProgram e (Builder.start settings) = .error (.undefined name) :=
      hmeets
    rw [hbuild, hlower]
    constructor
    · intro h
      cases h
      exact ⟨name, rfl, rfl⟩
    · rintro ⟨_, hname, rfl⟩
      cases hname
      rfl
  | none =>
    rw [hfirst] at hmeets
    obtain ⟨u, b, hb, -⟩ := hmeets
    rw [hbuild, hb]
    constructor
    · intro h
      cases h
    · rintro ⟨_, hname, -⟩
      cases hname

/-! ## Identifiers -/

/-- The identifier is bound by the first node on its way up that binds its name, and registered with
every term that its name stands for on the way. -/
structure Resolved (p : Program) (f : Forest) (n : NodeId) (name : String) (binder : NodeId)
    (position : Option Nat) (binding : TermId) (way : List (NodeId × NodeId)) : Prop where
  nearest : ∃ inner child outer, way = inner ++ (binder, child) :: outer ∧
    ∀ a ∈ inner, ∀ bd, (p.kind a.1).binder? a.1 = some bd → name ∉ bd.names
  bound : (p.kind binder).Binds name position binding
  registered : ∀ a ∈ way, ∀ bd, (p.kind a.1).binder? a.1 = some bd →
    ∀ i : Nat, bd.names[i]? = some name → ∃ t, bd.types[i]? = some t ∧ n ∈ f.deps (f.rep t)

/-- What an identifier can see resolves it. -/
theorem resolved_of_seated {f : Forest} {scope : NodeId → List Binder} {n : NodeId} {name : String}
    {binder : NodeId} {position : Option Nat} {binding : TermId} {way : List (NodeId × NodeId)}
    (h : Seated p.node f scope n) (hident : p.kind n = .ident name binder position binding)
    (hscope : scope n = way.filterMap fun a => (p.kind a.1).binder? a.1) :
    p.Resolved f n name binder position binding way := by
  have hseen : ∀ a ∈ way, ∀ bd, (p.kind a.1).binder? a.1 = some bd → bd ∈ scope n :=
    fun a ha bd hbd => hscope ▸ List.mem_filterMap.2 ⟨a, ha, hbd⟩
  have hfound := h.found _ _ _ _ hident
  rw [hscope, findSome?_filterMap, List.findSome?_eq_some_iff] at hfound
  obtain ⟨inner, a, outer, rfl, hsome, hnone⟩ := hfound
  obtain ⟨bd, hbd, hbinding⟩ := Option.bind_eq_some_iff.1 hsome
  obtain ⟨hbinder, hbinds⟩ := NodeKind.binds_of_binder? hbd hbinding
  obtain rfl : binder = a.1 := hbinder
  refine ⟨⟨inner, a.2, outer, rfl, fun a' ha' bd' hbd' => ?_⟩, hbinds,
    fun a' ha' bd' hbd' i hi => ?_⟩
  · have hnamed := h.named bd' (hseen a' (List.mem_append_left _ ha') bd' hbd')
    refine (Binder.binding?_eq_none_iff hnamed).1 ?_
    have hnone' := hnone a' ha'
    rwa [hbd'] at hnone'
  · have hmem := hseen a' ha' bd' hbd'
    obtain ⟨hlt, -⟩ := List.getElem?_eq_some_iff.1 hi
    have ht := List.getElem?_eq_getElem (h.named bd' hmem ▸ hlt : i < bd'.types.length)
    exact ⟨_, ht, h.registered _ _ _ _ hident bd' hmem _ (Binder.mem_typesOf hi ht)⟩

/-- A program is not prepared exactly if an identifier is bound by nothing around it, and the error
names the first such one.  In a prepared program every identifier is bound by the nearest node that
binds its name, at the first position there, and registered with all terms of that name around. -/
theorem names_resolved (e : Expr) (settings : Settings) (depth : Nat) :
    ((∃ cause, build e settings depth = .error cause) ↔ ∃ o ∈ e.identifiers [], o.1 ∉ o.2) ∧
    (∀ cause, build e settings depth = .error cause →
      ∃ before o after, e.identifiers [] = before ++ o :: after ∧
        (∀ o' ∈ before, o'.1 ∈ o'.2) ∧ o.1 ∉ o.2 ∧ cause = .undefined o.1) ∧
    ∀ p s, build e settings depth = .ok (p, s) → ∀ n name binder position binding,
      p.kind n = .ident name binder position binding →
        ∃ way, p.Way n way ∧ p.Resolved s.forest n name binder position binding way := by
  refine ⟨⟨?_, ?_⟩, fun cause hcause => ?_, fun p s h n name binder position binding hident => ?_⟩
  · rintro ⟨cause, hcause⟩
    obtain ⟨name, hfirst, -⟩ := build_eq_error_iff.1 hcause
    obtain ⟨before, o, after, hos, -, hunbound, -⟩ := firstUnbound_eq_some_iff.1 hfirst
    exact ⟨o, hos ▸ List.mem_append_right _ List.mem_cons_self, hunbound⟩
  · rintro ⟨o, ho, hunbound⟩
    have hne : firstUnbound (e.identifiers []) ≠ none :=
      fun hnone => hunbound (firstUnbound_eq_none_iff.1 hnone o ho)
    obtain ⟨name, hfirst⟩ := Option.ne_none_iff_exists'.1 hne
    exact ⟨_, build_eq_error_iff.2 ⟨name, hfirst, rfl⟩⟩
  · obtain ⟨name, hfirst, rfl⟩ := build_eq_error_iff.1 hcause
    obtain ⟨before, o, after, hos, hbefore, hunbound, rfl⟩ := firstUnbound_eq_some_iff.1 hfirst
    exact ⟨before, o, after, hos, hbefore, hunbound, rfl⟩
  · obtain ⟨scope, hscoped, hways⟩ := exists_scopes_of_build h
    have hn : n < p.size := by
      obtain ⟨b, -, rfl, -⟩ := complete_of_build h
      exact b.lt_size_of_kind hident NodeKind.noConfusion
    obtain ⟨way, hway, -, hscope⟩ := hways n hn
    exact ⟨way, hway, resolved_of_seated (hscoped n) hident hscope⟩

/-- The program `{ x -> (y z) }` is not prepared, since nothing binds `y`.  In `{ x x -> x }` the
identifier is bound at the first of the two positions of its name. -/
theorem names_resolved_repeated :
    (∃ cause, build (.lambda ["x"] (.apply (.ident "y") [.ident "z"]) true) {} = .error cause) ∧
    ∃ p s way, build (.lambda ["x", "x"] (.ident "x") true) {} = .ok (p, s) ∧
      p.kind 2 = .ident "x" 1 (some 0) 1 ∧ p.Way 2 way ∧
      p.Resolved s.forest 2 "x" 1 (some 0) 1 way := by
  have hbuilt : ((build (.lambda ["x", "x"] (.ident "x") true) {}).toOption.map fun r =>
      match r.1.kind 2 with
      | .ident name binder position binding => some (name, binder, position, binding)
      | _ => none) = some (some ("x", 1, some 0, 1)) := by
    decide +kernel
  obtain ⟨⟨p, s⟩, h, hident⟩ := ok_of_map hbuilt
  have hident : p.kind 2 = .ident "x" 1 (some 0) 1 := by
    dsimp only at hident
    split at hident
    · rename_i hkind
      cases hident
      exact hkind
    · cases hident
  obtain ⟨way, hway, hresolved⟩ := (names_resolved _ {} _).2.2 p s h 2 _ _ _ _ hident
  exact ⟨(names_resolved _ {} _).1.2 ⟨("y", ["x"]), by decide, by decide⟩, p, s, way, h, hident,
    hway, hresolved⟩

end Program

end TypeFlow
