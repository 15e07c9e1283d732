import TypeFlow.Proofs.Regions
import TypeFlow.Proofs.ForestChanges

/-!
# Fences around a definition

While a use of a definition is unified with an instance of its type, the definition is looked up but
stays what it is.  A fence is put around the terms of the definition that the use does not lead to.
Nothing outside leads in, and what looking up does inside makes no difference: links are shortened,
slots remember representatives, and wrappers go on wrapping variables.

Main definitions:

- `Kind.mapChildren`: a kind with other children.
- `Forest.Spared`: a term is what it was, up to the names of its children.
- `Forest.Fence`: nothing outside leads in.

Main results:

- `Forest.Fence.of_spared`: fences stay up as long as the terms inside are spared.
- `Forest.Tidies.fence`: looking up spares the terms inside.
-/

namespace TypeFlow

namespace Kind

/-- The kind with every child replaced. -/
def mapChildren (r : TermId → TermId) : Kind → Kind
  | nilable inner => nilable (r inner)
  | function args ret fids nil => function (args.map r) (r ret) fids nil
  | record fields sites isOpen nil => record (fields.map fun _ => r) sites isOpen nil
  | link target => link (r target)
  | k => k

variable {k : Kind} {r r' : TermId → TermId}

/-- Mapping children twice maps them once if the second map does not tell images of the first from their
origins. -/
theorem mapChildren_mapChildren (h : ∀ x, r' (r x) = r' x) :
    (k.mapChildren r).mapChildren r' = k.mapChildren r' := by
  cases k with
  | function args ret fids nil => simp [mapChildren, h]
  | record fields sites isOpen nil =>
    simp only [mapChildren, record.injEq, and_true]
    apply Fields.ext_find?
    intro l
    rw [Fields.find?_map, Fields.find?_map, Fields.find?_map, Option.map_map]
    exact congrArg (fun r => Option.map r _) (funext h)
  | nilable inner => exact congrArg nilable (h inner)
  | link target => exact congrArg link (h target)
  | _ => rfl

/-- It does not show if a child is replaced by another that is replaced by the same. -/
theorem mapChildren_setChild {slot : Slot} {x y : TermId} (hx : k.child? slot = some x)
    (hy : r y = r x) : (k.setChild slot y).mapChildren r = k.mapChildren r := by
  cases k with
  | function args ret fids nil =>
    cases slot with
    | arg i =>
      have hargs : (args.set i y).map r = args.map r := by
        apply List.ext_getElem?
        intro j
        rw [List.getElem?_map, List.getElem?_map, List.getElem?_set]
        split
        · rename_i e
          subst e
          have hx : args[i]? = some x := hx
          have hi : i < args.length := (List.getElem?_eq_some_iff.1 hx).1
          rw [if_pos hi, hx, Option.map_some, Option.map_some, hy]
        · rfl
      simp only [setChild, mapChildren, hargs]
    | ret =>
      cases hx
      simp only [setChild, mapChildren, hy]
    | _ => cases hx
  | record fields sites isOpen nil =>
    cases slot with
    | field l =>
      simp only [setChild, mapChildren, record.injEq, and_true]
      apply Fields.ext_find?
      intro k
      rw [Fields.find?_map, Fields.find?_map, Fields.find?_insert]
      split
      · rename_i e
        subst e
        have hx : fields.find? l = some x := hx
        rw [hx, Option.map_some, Option.map_some, hy]
      · rfl
    | _ => cases hx
  | nilable inner =>
    cases slot with
    | inner =>
      cases hx
      simp only [setChild, mapChildren, hy]
    | _ => cases hx
  | _ => cases slot <;> cases hx

/-- Mapping the children of a link leaves a link. -/
theorem isLink_mapChildren (k : Kind) (r : TermId → TermId) :
    (k.mapChildren r).isLink = k.isLink := by
  cases k <;> rfl

/-- Mapping the children of an error leaves an error. -/
theorem isError_mapChildren (k : Kind) (r : TermId → TermId) :
    (k.mapChildren r).isError = k.isError := by
  cases k <;> rfl

private theorem mapChildren_eq_var : k.mapChildren r = .var ↔ k = .var := by
  cases k <;> simp [mapChildren]

private theorem mapChildren_eq_link {y : TermId} :
    k.mapChildren r = .link y ↔ ∃ x, k = .link x ∧ r x = y := by
  cases k <;> simp [mapChildren]

private theorem mapChildren_eq_nilable {y : TermId} :
    k.mapChildren r = .nilable y ↔ ∃ x, k = .nilable x ∧ r x = y := by
  cases k <;> simp [mapChildren]

end Kind

namespace Forest

variable {f g h : Forest} {R H : TermId → Prop} {t : TermId}

/-! ## Spared terms -/

/-- The term is what it was, with the same nodes registered, except that children may be given by
other terms of their classes. -/
structure Spared (f g : Forest) (t : TermId) : Prop where
  kind : (g.kind t).mapChildren g.rep = (f.kind t).mapChildren g.rep
  deps : g.deps t = f.deps t
  isInput : g.isInput t = f.isInput t

/-- A term that was not written is spared. -/
theorem Spared.of_eq (h : g.terms[t]? = f.terms[t]?) : Spared f g t :=
  ⟨by rw [kind_congr h], deps_congr h, isInput_congr h⟩

/-- What is spared in turn is spared. -/
theorem Spared.trans (hg : g.Rooted) (he : Evolves g h) (hfg : Spared f g t) (hgh : Spared g h t) :
    Spared f h t where
  kind := by
    have hrep := he.rep_rep hg
    calc (h.kind t).mapChildren h.rep = (g.kind t).mapChildren h.rep := hgh.kind
      _ = ((g.kind t).mapChildren g.rep).mapChildren h.rep := (Kind.mapChildren_mapChildren hrep).symm
      _ = ((f.kind t).mapChildren g.rep).mapChildren h.rep := by rw [hfg.kind]
      _ = (f.kind t).mapChildren h.rep := Kind.mapChildren_mapChildren hrep
  deps := hgh.deps.trans hfg.deps
  isInput := hgh.isInput.trans hfg.isInput

namespace Spared

variable (hs : Spared f g t)

include hs

/-- What is spared becomes no link. -/
theorem isLink : (g.kind t).isLink = (f.kind t).isLink := by
  rw [← Kind.isLink_mapChildren _ g.rep, hs.kind, Kind.isLink_mapChildren]

private theorem isError : (g.kind t).isError = (f.kind t).isError := by
  rw [← Kind.isError_mapChildren _ g.rep, hs.kind, Kind.isError_mapChildren]

private theorem var (hvar : f.kind t = .var) : g.kind t = .var := by
  have hkind := hs.kind
  rw [hvar] at hkind
  exact Kind.mapChildren_eq_var.1 hkind

private theorem link {y : TermId} (hy : g.kind t = .link y) :
    ∃ x, f.kind t = .link x ∧ g.rep x = g.rep y := by
  have hkind := hs.kind
  rw [hy] at hkind
  exact Kind.mapChildren_eq_link.1 hkind.symm

private theorem nilable {y : TermId} (hy : g.kind t = .nilable y) :
    ∃ x, f.kind t = .nilable x ∧ g.rep x = g.rep y := by
  have hkind := hs.kind
  rw [hy] at hkind
  exact Kind.mapChildren_eq_nilable.1 hkind.symm

end Spared

/-! ## Fences -/

/-- Within a region a fence is put around some terms.  Nothing outside leads in, and inside there
are whole classes, no errors, and no wrappers but those of variables inside. -/
structure Fence (f : Forest) (R H : TermId → Prop) : Prop where
  region : f.Region R
  outside : f.Region fun t => R t ∧ ¬H t
  inside : ∀ t, H t → R t
  link : ∀ t u, H t → f.kind t = .link u → H u
  wraps : ∀ t inner, H t → f.kind t = .nilable inner → H inner ∧ f.kind (f.rep inner) = .var
  isError : ∀ t, H t → (f.kind t).isError = false

namespace Fence

variable (hfence : f.Fence R H)

include hfence

/-- The representative of what lies inside does so. -/
theorem rep (ht : H t) : H (f.rep t) := by
  have hfollow : ∀ n t, H t → H (f.follow n t) := by
    intro n
    induction n with
    | zero => exact fun t ht => ht
    | succ n ih =>
      intro t ht
      cases hk : (f.kind t).isLink with
      | false => rwa [follow_of_not_link hk]
      | true =>
        obtain ⟨u, hu⟩ := Kind.isLink_eq_true.1 hk
        rw [follow_link hu]
        exact ih u (hfence.link t u ht hu)
  exact hfollow _ t ht

/-- A fence stays up if the terms inside are spared and nothing outside is led in. -/
theorem of_spared (hf : f.Rooted) (he : Evolves f g) (hregion : g.Region R)
    (houtside : g.Region fun t => R t ∧ ¬H t) (hs : ∀ t, H t → Spared f g t) : g.Fence R H := by
  have hrep : ∀ x, H x → g.rep x = f.rep x := by
    intro x hx
    have hroot : (g.kind (f.rep x)).isLink = false := by
      rw [(hs _ (hfence.rep hx)).isLink, not_isLink_rep hf]
    rw [← he.rep_rep hf, rep_of_not_link hroot]
  -- What is in a class inside is inside, since whole classes are outside.
  have hclass : ∀ x y, H x → g.rep x = g.rep y → R y → H y := by
    intro x y hx hxy hy
    by_contra hout
    have hrep' := (houtside.rep ⟨hy, hout⟩).2
    rw [← hxy, hrep x hx] at hrep'
    exact hrep' (hfence.rep hx)
  refine ⟨hregion, houtside, hfence.inside, fun t u ht hu => ?_, fun t y ht hy => ?_, fun t ht => ?_⟩
  · obtain ⟨x, hx, hxu⟩ := (hs t ht).link hu
    exact hclass x u (hfence.link t x ht hx) hxu
      (hregion t (hfence.inside t ht) u (by rw [hu]; exact List.mem_singleton_self u))
  · obtain ⟨x, hx, hxy⟩ := (hs t ht).nilable hy
    obtain ⟨hinner, hvar⟩ := hfence.wraps t x ht hx
    refine ⟨hclass x y hinner hxy
      (hregion t (hfence.inside t ht) y (by rw [hy]; exact List.mem_singleton_self y)), ?_⟩
    rw [← hxy, hrep x hinner]
    exact (hs _ (hfence.rep hinner)).var hvar
  · rw [(hs t ht).isError, hfence.isError t ht]

end Fence

/-! ## Looking up beside a fence -/

/-- A term whose kind is set is spared if its children are given by other terms of their classes. -/
theorem setKind_spared {x : TermId} {k : Kind}
    (h : x = t → k.mapChildren (f.setKind x k).rep = (f.kind t).mapChildren (f.setKind x k).rep) :
    Spared f (f.setKind x k) t := by
  refine ⟨?_, deps_setKind _ _ _ _, isInput_setKind _ _ _ _⟩
  rw [kind_setKind]
  split
  · rename_i e
    exact h e.1
  · rfl

private theorem shorten_spared (hf : f.Rooted) {x u : TermId} (hlink : f.kind x = .link u) (t : TermId) :
    Spared f (f.setKind x (.link (f.rep x))) t := by
  have hup : f.Upkeep (f.setKind x (.link (f.rep x))) := .shorten hlink
  refine setKind_spared fun e => ?_
  rw [← e, hlink, Kind.mapChildren, Kind.mapChildren, (hup.steady hf).rep, (hup.steady hf).rep,
    rep_rep hf, rep_link hf hlink]

private theorem remember_spared (hf : f.Rooted) {x raw : TermId} {slot : Slot}
    (hraw : (f.kind x).child? slot = some raw) (t : TermId) :
    Spared f (f.setChild x slot (f.rep raw)) t := by
  have hup : f.Upkeep (f.setChild x slot (f.rep raw)) := .remember hraw
  refine ⟨?_, deps_setChild _ _ _ _ _, isInput_setChild _ _ _ _ _⟩
  rw [kind_setChild]
  split
  · rename_i e
    rw [← e]
    refine Kind.mapChildren_setChild hraw ?_
    rw [(hup.steady hf).rep, (hup.steady hf).rep, rep_rep hf]
  · rfl

/-- A wrapper of a variable goes on wrapping it. -/
theorem absorb_of_var {w inner : TermId} (hvar : f.kind inner = .var) :
    f.absorb w inner = f.setKind w (.nilable inner) := by
  unfold absorb
  rw [hvar]

/-- A wrapper that is looked up leaves the terms inside alone, be it outside or inside itself. -/
theorem absorb_spared (hf : f.Rooted) (hfence : f.Fence R H) {w inner : TermId} (hw : R w)
    (hwraps : f.kind w = .nilable inner) (ht : H t) : Spared f (f.absorb w (f.rep inner)) t := by
  have hup : f.Upkeep (f.absorb w (f.rep inner)) := .absorb hwraps
  by_cases hin : H w
  · have habsorb : f.absorb w (f.rep inner) = f.setKind w (.nilable (f.rep inner)) :=
      absorb_of_var (hfence.wraps w inner hin hwraps).2
    rw [habsorb] at hup ⊢
    refine setKind_spared fun e => ?_
    rw [← e, hwraps, Kind.mapChildren, Kind.mapChildren, (hup.steady hf).rep, (hup.steady hf).rep,
      rep_rep hf]
  · have hinner := hfence.outside w ⟨hw, hin⟩ inner (by rw [hwraps]; exact List.mem_singleton_self _)
    have hkeeps : KeepsTo (fun t => R t ∧ ¬H t) f (f.absorb w (f.rep inner)) :=
      absorb_keepsTo ⟨hw, hin⟩ (hfence.outside.rep hinner)
    exact .of_eq ((hkeeps hfence.outside).2 t fun hout => hout.2 ht)

/-- A fence stays up when a look-up spares the terms inside. -/
theorem Fence.of_upkeep {g' : Forest} (hg : g.Rooted) (hfence : g.Fence R H)
    (hfg : ∀ t, H t → Spared f g t) (hup : g.Upkeep g') (hs : ∀ t, H t → Spared g g' t) :
    g'.Fence R H ∧ ∀ t, H t → Spared f g' t := by
  have he := (hup.steady hg).evolves
  refine ⟨hfence.of_spared hg he (hup.region hg hfence.region) (hup.region hg hfence.outside) hs, ?_⟩
  exact fun t ht => (hfg t ht).trans hg he (hs t ht)

/-- Looking up in the region spares the terms inside the fence, and the fence stays up. -/
theorem Tidies.fence (hf : f.Rooted) (hfence : f.Fence R H) (h : Tidies R f g) :
    g.Fence R H ∧ ∀ t, H t → Spared f g t := by
  induction h with
  | refl => exact ⟨hfence, fun t _ => .of_eq rfl⟩
  | shorten hg _ _ hlink ih =>
    obtain ⟨u, hu, rfl⟩ := hlink hf
    have hrooted := hg.rooted hf
    exact ih.1.of_upkeep hrooted ih.2 (.shorten hu) fun t _ => shorten_spared hrooted hu t
  | remember hg _ _ hchild ih =>
    obtain ⟨x, hx, rfl⟩ := hchild hf
    have hrooted := hg.rooted hf
    exact ih.1.of_upkeep hrooted ih.2 (.remember hx) fun t _ => remember_spared hrooted hx t
  | absorb hg hw _ hwraps ih =>
    obtain ⟨x, hx, rfl⟩ := hwraps hf
    have hrooted := hg.rooted hf
    exact ih.1.of_upkeep hrooted ih.2 (.absorb hx) fun t ht =>
      absorb_spared hrooted ih.1 hw hx ht

end Forest

end TypeFlow
