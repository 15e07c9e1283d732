import TypeFlow.Proofs.Zones

/-!
# Twins in seats

A definition whose type is a tree is found alike to a use where what is known of it stands only if the use has
twins in the seats of all its classes: each class of the tree is met once, so no comparison is cut short, and what
is in a seat is never a class of the definition.

Main results:

- `Forest.alike_twin`: a use in its seat that is found alike to a tree is a twin of it.
-/

namespace TypeFlow

namespace Forest

variable {f g h : Forest} {zone : TermId → Zone} {a b c d x y : TermId} {fuel : Nat} {slot : Slot}
  {slots : List Slot} {seen seen' : List (TermId × TermId)}

/-- What a comparison that found the types alike tells of them. -/
structure Twinned (f : Forest) (zone : TermId → Zone) (a b : TermId) (seen : List (TermId × TermId)) (g : Forest)
    (seen' : List (TermId × TermId)) (h : Forest) : Prop where
  twin : Twin f (fun x c => zone c = .seat x) h a b
  upkeeps : g.Upkeeps h
  met : ∀ p ∈ seen', p ∈ seen ∨ f.Reaches a p.1

section Run

variable (htree : f.Tree d)

include htree

private theorem alikeSlots_twins (ha : f.Reaches d a)
    (ih : ∀ slot x, (f.kind a).child? slot = some x → ∀ {x' y seen seen' g h}, g.Rooted → f.Standing d g →
      f.Zoned d zone g → g.rep x' = f.rep x → (f.place d (f.rep x)).Allows (zone (g.rep y)) →
      (∀ c, f.Reaches (f.rep x) c → c ∉ seen.map Prod.fst) →
      alikeFrom fuel x' y seen g = some ((true, seen'), h) → Twinned f zone (f.rep x) y seen g seen' h)
    (hnodup : slots.Nodup) (hslots : slots ⊆ (f.kind a).slots) (hg : g.Rooted) (hstands : f.Standing d g)
    (hzoned : f.Zoned d zone g) (hb : g.Calm b) (hzone : (f.place d a).Allows (zone b))
    (hnew : ∀ slot ∈ slots, ∀ x, (f.kind a).child? slot = some x → ∀ c, f.Reaches (f.rep x) c →
      c ∉ seen.map Prod.fst)
    (hrun : alikeSlots (alikeFrom fuel) a b slots seen g = some ((true, seen'), h)) :
    g.Upkeeps h ∧ (∀ p ∈ seen', p ∈ seen ∨ f.Reaches a p.1) ∧
      ∀ slot ∈ slots, ∀ x, (f.kind a).child? slot = some x → ∃ y, (h.kind b).child? slot = some y ∧
        Twin f (fun x c => zone c = .seat x) h (f.rep x) y := by
  induction slots generalizing g seen with
  | nil =>
    obtain ⟨hr, rfl⟩ := pure_eq_some.1 hrun
    cases hr
    exact ⟨.refl, fun p hp => Or.inl hp, fun slot hslot => absurd hslot List.not_mem_nil⟩
  | cons slot rest ihs =>
    obtain ⟨hslot, hnodup⟩ := List.nodup_cons.1 hnodup
    obtain ⟨x, hx⟩ := Option.isSome_iff_exists.1 (Kind.mem_slots.1 (hslots List.mem_cons_self))
    have hreach : f.Reaches d (f.rep x) := ha.tail ⟨slot, x, hx, rfl⟩
    obtain ⟨x', hx', hxx⟩ := hstands.child_to ha hx
    obtain ⟨x?, g₁, hchild, hrun⟩ := bind_eq_some.1 hrun
    obtain ⟨y?, g₂, hchild', hrun⟩ := bind_eq_some.1 hrun
    obtain ⟨rfl, hup₁⟩ := child_upkeeps hg hchild
    have hs₁ := hup₁.steady hg
    obtain ⟨rfl, hup₂⟩ := child_upkeeps hs₁.rooted hchild'
    rw [hx', Option.map_some, hxx] at hrun
    cases hy : (g₁.kind b).child? slot with
    | none =>
      rw [hy] at hrun
      cases (pure_eq_some.1 hrun).1
    | some y =>
    rw [hy, Option.map_some] at hrun
    obtain ⟨⟨same, seen₁⟩, g₃, halike, hrun⟩ := bind_eq_some.1 hrun
    cases same with
    | false => cases (pure_eq_some.1 hrun).1
    | true =>
      have hup : g.Upkeeps g₂ := hup₁.trans hup₂
      have hs₂ := hup.steady hg
      have hzone' : (f.place d (f.rep x)).Allows (zone (g₂.rep (g₁.rep y))) := by
        rw [(hup₂.steady hs₁.rooted).rep, rep_rep hs₁.rooted]
        exact (hzoned.of_upkeeps hg hup₁).place_child (htree.reaches ha) ha hzone hx hy
      obtain ⟨htwin, hup₃, hmet⟩ := ih slot x hx hs₂.rooted (hstands.of_upkeeps hg htree hup)
        (hzoned.of_upkeeps hg hup) (by rw [hs₂.rep, hstands.rep _ hreach]) hzone'
        (hnew slot List.mem_cons_self x hx) halike
      have hup' : g.Upkeeps g₃ := hup.trans hup₃
      have hs₃ := hup'.steady hg
      have hnew' : ∀ slot ∈ rest, ∀ x, (f.kind a).child? slot = some x → ∀ c, f.Reaches (f.rep x) c →
          c ∉ seen₁.map Prod.fst := fun s hs z hz c hc hmem => by
        -- What was met for this slot is no part of another child, since there are no variables.
        obtain ⟨p, hp, rfl⟩ := List.mem_map.1 hmem
        rcases hmet p hp with hp | hreach'
        · exact hnew s (List.mem_cons_of_mem _ hs) z hz p.1 hc (List.mem_map_of_mem hp)
        · exact htwin.ne_var hreach'
            ((htree.reaches ha).apart (fun e : slot = s => hslot (e ▸ hs)) hx hz hreach' hc)
      obtain ⟨hup₄, hmet', htwins⟩ := ihs hnodup (fun s hs => hslots (List.mem_cons_of_mem _ hs)) hs₃.rooted
        (hstands.of_upkeeps hg htree hup') (hzoned.of_upkeeps hg hup') (hup'.calm hg hb).2 hnew' hrun
      refine ⟨hup'.trans hup₄, fun p hp => ?_, fun s hs z hz => ?_⟩
      · rcases hmet' p hp with hp | hreach'
        · exact (hmet p hp).imp_right fun hreach' => .head ⟨slot, x, hx, rfl⟩ hreach'
        · exact Or.inr hreach'
      · rcases List.mem_cons.1 hs with rfl | hs
        · cases hx.symm.trans hz
          have hup₅ : g₁.Upkeeps h := hup₂.trans (hup₃.trans hup₄)
          obtain ⟨w, hw, hyw⟩ := Kind.Same.exists_child? (Eq.symm (hup₅.same hs₁.rooted (hup₁.calm hg hb).2)) hy
          refine ⟨w, hw, (htwin.of_upkeeps hs₃.rooted hup₄).of_rep ?_⟩
          have hs₅ := hup₅.steady hs₁.rooted
          rw [hs₅.rep, hs₅.rep, rep_rep hs₁.rooted, hyw]
        · exact htwins s hs z hz

/-- What looks the same as a class is a twin of it when its children are twins of those of the class. -/
private theorem twin_of_children (ha : f.Reaches d a) (hg : g.Rooted) (hroot : g.rep y = b) (hb : g.Calm b)
    (hzone : (f.place d a).Allows (zone b)) (hnode : sameNode (f.kind a) (g.kind b) = true)
    (hlength : (f.kind a).slots.length = (g.kind b).slots.length) (hup : g.Upkeeps h)
    (hchildren : ∀ slot x, (f.kind a).child? slot = some x → ∃ w, (h.kind b).child? slot = some w ∧
      Twin f (fun x c => zone c = .seat x) h (f.rep x) w) : Twin f (fun x c => zone c = .seat x) h a y := by
  have hvar : f.kind a ≠ .var := fun hvar => by
    rw [hvar] at hnode
    cases hnode
  -- No variable has a twin, so the class is no wrapper.
  have hnilable : (f.kind a).isNilable = false := Bool.eq_false_iff.2 fun hnilable => by
    obtain ⟨x, hx⟩ := Kind.isNilable_eq_true.1 hnilable
    have hinner : (f.kind a).child? .inner = some x := by rw [hx]; rfl
    obtain ⟨w, -, htwin⟩ := hchildren .inner x hinner
    exact htwin.ne_var .refl ((htree.reaches ha).wraps hinner)
  have hknown : (g.kind b).isNilable = false := by
    rw [Kind.isNilable_eq_of_shape (shape_of_sameNode hnode), hnilable]
  rw [place_of_known hvar hnilable] at hzone
  have hrep : h.rep y = b := by rw [(hup.steady hg).rep, hroot]
  have hsame := hup.same hg hb
  refine .intro (.known (by rwa [hrep]) (by rw [hrep]) (hsame.isNilable.trans hknown)) ?_
    (by rw [hsame.slots, hlength]) (fun slot x hx => ?_) fun slot x w hx hw => ?_
  · rw [← hnode]
    exact Kind.Same.sameNode (rfl : Kind.Same g.rep (f.kind a) _) hsame
  · obtain ⟨w, hw, -⟩ := hchildren slot x hx
    exact Option.isSome_of_eq_some hw
  · obtain ⟨w', hw', htwin⟩ := hchildren slot x hx
    cases hw.symm.trans hw'
    exact htwin

private theorem alikeFrom_twins (ha : f.Reaches d a) (hbarred : ∀ c, f.Reaches a c → zone c = .barred)
    (hg : g.Rooted) (hstands : f.Standing d g) (hzoned : f.Zoned d zone g) (hx : g.rep x = a)
    (hzone : (f.place d a).Allows (zone (g.rep y))) (hnew : ∀ c, f.Reaches a c → c ∉ seen.map Prod.fst)
    (hrun : alikeFrom fuel x y seen g = some ((true, seen'), h)) : Twinned f zone a y seen g seen' h := by
  induction fuel generalizing a x y seen seen' g h with
  | zero => exact (failure_eq_some.1 hrun).elim
  | succ fuel ih =>
    obtain ⟨r, g₁, hfind, hrun⟩ := bind_eq_some.1 hrun
    obtain ⟨r', g₂, hfind', hrun⟩ := bind_eq_some.1 hrun
    obtain ⟨rfl, hup₁⟩ := find_upkeeps hg hfind
    have hs₁ := hup₁.steady hg
    have hb := find_calm hs₁.rooted hfind'
    obtain ⟨rfl, hup₂⟩ := find_upkeeps hs₁.rooted hfind'
    rw [hs₁.rep] at hrun hb
    rw [hx] at hrun
    have hup : g.Upkeeps g₂ := hup₁.trans hup₂
    have hs₂ := hup.steady hg
    have hstands₂ := hstands.of_upkeeps hg htree hup
    have hsame := hstands₂.same a ha
    -- The class of the definition is barred, and that of the use is not.
    have hne : a ≠ g.rep y := fun e => by
      rw [← e, hbarred a .refl] at hzone
      exact hzone.ne_barred (f.place_ne_barred d a) rfl
    rw [if_neg hne] at hrun
    obtain ⟨g₃, g₃', hget, hrun⟩ := bind_eq_some.1 hrun
    obtain ⟨rfl, rfl⟩ := get_eq_some.1 hget
    obtain ⟨g₃, g₃', hget, hrun⟩ := bind_eq_some.1 hrun
    obtain ⟨rfl, rfl⟩ := get_eq_some.1 hget
    rcases ite_eq_some.1 hrun with ⟨-, hrun⟩ | ⟨halike, hrun⟩
    · cases (pure_eq_some.1 hrun).1
    simp only [Bool.or_eq_true, Bool.not_eq_true', decide_eq_true_eq, not_or, Bool.not_eq_false, not_not,
      ne_eq] at halike
    obtain ⟨hnode, hlength⟩ := halike
    rw [hsame.slots] at hlength hrun
    have hnode' : sameNode (f.kind a) (g₂.kind (g.rep y)) = true := by
      rw [← hnode]
      exact (hsame.sameNode (rfl : Kind.Same g₂.rep (g₂.kind (g.rep y)) _)).symm
    have hroot : g₂.rep y = g.rep y := hs₂.rep y
    rcases ite_eq_some.1 hrun with ⟨hempty, hrun⟩ | ⟨-, hrun⟩
    · obtain ⟨hr, rfl⟩ := pure_eq_some.1 hrun
      cases hr
      refine ⟨twin_of_children htree ha hs₂.rooted hroot hb hzone hnode' hlength .refl fun slot x hx => ?_, hup,
        fun p hp => Or.inl hp⟩
      have hmem := Kind.mem_slots.2 (Option.isSome_of_eq_some hx)
      rw [List.isEmpty_iff.1 hempty] at hmem
      exact absurd hmem List.not_mem_nil
    · rw [lookup_eq_none_of_not_mem (hnew a .refl)] at hrun
      -- The class itself is met now, but it is no part of its children.
      have hnew' : ∀ slot ∈ (f.kind a).slots, ∀ z, (f.kind a).child? slot = some z → ∀ c, f.Reaches (f.rep z) c →
          c ∉ ((a, g.rep y) :: seen).map Prod.fst := fun slot _ z hz c hc => by
        rw [List.map_cons, List.mem_cons]
        rintro (rfl | hmem)
        · exact (htree.reaches ha).acyclic hz hc
        · exact hnew c (.head ⟨slot, z, hz, rfl⟩ hc) hmem
      obtain ⟨hup', hmet, htwins⟩ := alikeSlots_twins htree ha (fun slot z hz {_ _ _ _ _ _} hg hstands hzoned hx hzone
        hnew hrun => ih (ha.tail ⟨slot, z, hz, rfl⟩) (fun c hc => hbarred c (.head ⟨slot, z, hz, rfl⟩ hc)) hg hstands
          hzoned hx hzone hnew hrun) (Kind.nodup_slots _) (fun _ hs => hs) hs₂.rooted hstands₂
          (hzoned.of_upkeeps hg hup) hb hzone hnew' hrun
      refine ⟨twin_of_children htree ha hs₂.rooted hroot hb hzone hnode' hlength hup' fun slot x hx =>
        htwins slot (Kind.mem_slots.2 (Option.isSome_of_eq_some hx)) x hx, hup.trans hup', fun p hp => ?_⟩
      rcases hmet p hp with hp | hreach
      · rcases List.mem_cons.1 hp with rfl | hp
        · exact Or.inr .refl
        · exact Or.inl hp
      · exact Or.inr hreach

/-- A use in its seat that is found alike to a tree is a twin of it. -/
theorem alike_twin (ha : f.Reaches d a) (hbarred : ∀ c, f.Reaches a c → zone c = .barred) (hg : g.Rooted)
    (hstands : f.Standing d g) (hzoned : f.Zoned d zone g) (hx : g.rep x = a)
    (hzone : (f.place d a).Allows (zone (g.rep y))) (hrun : alike x y g = some (true, h)) :
    Twin f (fun x c => zone c = .seat x) h a y := by
  obtain ⟨g₁, g₁', hget, hrun⟩ := bind_eq_some.1 hrun
  obtain ⟨rfl, rfl⟩ := get_eq_some.1 hget
  obtain ⟨⟨same, seen⟩, g₂, halike, hrun⟩ := bind_eq_some.1 hrun
  obtain ⟨rfl, rfl⟩ := pure_eq_some.1 hrun
  exact (alikeFrom_twins htree ha hbarred hg hstands hzoned hx hzone (fun _ _ => List.not_mem_nil) halike).twin

end Run

end Forest

end TypeFlow
