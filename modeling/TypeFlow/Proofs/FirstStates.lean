import TypeFlow.Proofs.FlowRuns
import TypeFlow.Proofs.Lowering
import TypeFlow.Proofs.OrderIndependence

/-!
# First states

What `Program.build` answers: the tree of the program fits together, the first state watches all
bindings, and every node is pending.  Without nil in the expression there is none in the program
either, and no flow can rise.

Main results:

- `Program.tree_of_build`, `Program.tended_of_build`: a prepared program and its first state.
- `Program.ready_of_build`: the first state of a program without nil.
-/

namespace TypeFlow

namespace Builder

/-- The builder is in order at first. -/
theorem start_good {N : Prop} (settings : Settings) : (start settings).Good N [] where
  rooted := ⟨fun _ => 0, fun t u hu => by cases hu⟩
  plain _ := trivial
  typed _ hn := absurd hn (Nat.not_lt_zero _)
  fits _ hn := absurd hn (Nat.not_lt_zero _)
  functions k n hk := by cases hk
  injective k k' n hk := by cases hk
  binder _ hbd := absurd hbd List.not_mem_nil
  pending _ hn := absurd hn (Nat.not_lt_zero _)

/-- A whole program is well built. -/
theorem lowerProgram_good {N : Prop} {e : Expr} {settings : Settings} {d : Builder} {u : Unit}
    (hN : N → e.mentionsNil = false) (h : lowerProgram e (start settings) = .ok (u, d)) :
    d.Good N [] := by
  obtain ⟨type, b₁, halloc, h⟩ := bind_eq_ok.1 h
  obtain ⟨root, b₂, hadd, h⟩ := bind_eq_ok.1 h
  obtain ⟨body, b₃, hlower, h⟩ := bind_eq_ok.1 h
  obtain ⟨v, b₄, hset, h⟩ := bind_eq_ok.1 h
  have h₀ : (start settings).Prepared N [] none := ⟨start_good settings, fun n hn => by cases hn⟩
  obtain ⟨hstart, hvacant, -⟩ := Built.start_var h₀ (Std.Refl.refl _) halloc hadd
  have hbody := lower_built e hN ⟨root, [], []⟩ b₂ body b₃ (hstart.prepared hvacant) hlower
  have hbuilt := hstart.completeInner h₀ hvacant hbody.all rfl rfl hset
  exact (hbuilt.grown (grown_register root [type] b₄ u d h)).good

/-- Only positions in the tree have kinds of their own. -/
theorem lt_size_of_kind (b : Builder) {n : NodeId} {kind : NodeKind} (h : b.kind n = kind)
    (hkind : kind ≠ .const .any) : n < b.nodes.size := by
  by_contra hle
  exact hkind (h.symm.trans (kind_of_size_le (Nat.le_of_not_lt hle)))

private theorem lt_size_of_function (b : Builder) {n : NodeId} {r : FunctionId × List TermId}
    (h : (b.kind n).function? = some r) : n < b.nodes.size := by
  refine b.lt_size_of_kind rfl fun hkind => ?_
  rw [hkind] at h
  cases h

private theorem ofNode_initialFlows (b : Builder) (id : NodeId) : b.initialFlows.ofNode id = .any := by
  unfold Flows.ofNode initialFlows
  rw [Array.getElem?_replicate]
  split <;> rfl

/-- The first flows tell nothing. -/
theorem all_initialFlows (b : Builder) {P : Flow → Prop} (hany : P .any) (hbottom : P .bottom) :
    b.initialFlows.All P where
  node id := by
    rw [ofNode_initialFlows]
    exact hany
  formal fid index := by
    suffices hall : ∀ flow ∈ b.initialFlows.ofFormals fid, flow = .any by
      unfold Flows.formal
      cases hget : (b.initialFlows.ofFormals fid)[index]? with
      | none => exact hbottom
      | some flow =>
        rw [hall flow (List.mem_of_getElem? hget)]
        exact hany
    unfold Flows.ofFormals initialFlows
    rw [Array.getElem?_map]
    cases b.functions[fid - 1]? with
    | none => exact fun flow hmem => absurd hmem List.not_mem_nil
    | some id =>
      dsimp only [Option.map_some, Option.getD_some]
      split
      · intro flow hmem
        obtain ⟨t, -, rfl⟩ := List.mem_map.1 hmem
        rfl
      · exact fun flow hmem => absurd hmem List.not_mem_nil

end Builder

namespace Program

variable {e : Expr} {settings : Settings} {depth : Nat} {p : Program} {s : State}

/-- A prepared program and its first state are those of a well built construction. -/
theorem good_of_build {N : Prop} (hN : N → e.mentionsNil = false)
    (h : build e settings depth = .ok (p, s)) :
    ∃ b : Builder, b.Good N [] ∧ p = ⟨b.nodes, b.functions, settings, depth⟩ ∧
      s = ⟨b.forest, b.initialFlows, b.work⟩ := by
  obtain ⟨b, hb, rfl, rfl⟩ := build_eq_ok.1 h
  exact ⟨b, Builder.lowerProgram_good hN hb, rfl, rfl⟩

/-- A program has the settings that it was built with. -/
theorem settings_of_build (h : build e settings depth = .ok (p, s)) : p.settings = settings := by
  obtain ⟨b, -, rfl, -⟩ := build_eq_ok.1 h
  rfl

/-- The parts of a prepared program fit together. -/
theorem tree_of_build (h : build e settings depth = .ok (p, s)) : p.Tree := by
  obtain ⟨b, hb, rfl, -⟩ := good_of_build (N := False) False.elim h
  constructor
  · intro n child hmem
    have hn : n < b.nodes.size := by
      refine b.lt_size_of_kind rfl fun hkind => ?_
      change child ∈ (b.kind n).children at hmem
      rw [hkind] at hmem
      exact absurd hmem List.not_mem_nil
    exact ((hb.fits n hn).child child hmem).1
  · intro fid callee
    constructor
    · intro hcallee
      unfold functionNode? at hcallee
      split at hcallee
      · cases hcallee
      · rename_i hfid
        obtain ⟨-, ⟨formals, hfunction⟩ | ⟨bd, hbd, -⟩⟩ := hb.functions _ _ hcallee
        · rw [Nat.sub_add_cancel (Nat.pos_of_ne_zero hfid)] at hfunction
          exact ⟨formals, hfunction⟩
        · exact absurd hbd List.not_mem_nil
    · rintro ⟨formals, hfunction⟩
      have hn : callee < b.nodes.size := b.lt_size_of_function hfunction
      obtain ⟨hfid, hmem⟩ := (hb.fits callee hn).function fid formals hfunction
      exact (if_neg hfid).trans hmem
  · intro id name binder position binding hident
    have hn : id < b.nodes.size := b.lt_size_of_kind hident NodeKind.noConfusion
    obtain ⟨-, hbound | ⟨bd, hbd, -⟩⟩ := (hb.fits id hn).bound name binder position binding hident
    · exact hbound
    · exact absurd hbd List.not_mem_nil

/-- In the first state all bindings are watched. -/
theorem sound_of_build (h : build e settings depth = .ok (p, s)) : p.Sound s := by
  have htree := tree_of_build h
  obtain ⟨b, hb, rfl, rfl⟩ := good_of_build (N := False) False.elim h
  constructor
  · exact hb.rooted
  · exact Array.size_replicate
  · intro fid callee hcallee
    obtain ⟨formals, hfunction⟩ := (htree.function fid callee).1 hcallee
    exact hb.typed callee (b.lt_size_of_function hfunction)
  · intro id name binder position binding hident
    have hn : id < b.nodes.size := b.lt_size_of_kind hident NodeKind.noConfusion
    exact ((hb.fits id hn).bound name binder position binding hident).1
  · intro id name definition body binding hlet
    have hn : id < b.nodes.size := b.lt_size_of_kind hlet NodeKind.noConfusion
    exact (hb.fits id hn).definition name definition body binding hlet
  · intro call fn args fids nil fid callee hcall hfn hfid hcallee
    rw [b.ofNode_initialFlows] at hfn
    cases hfn

/-- In the first state every node that is not settled waits. -/
theorem tended_of_build (h : build e settings depth = .ok (p, s)) : p.Tended s := by
  have hsound := sound_of_build h
  refine ⟨hsound, fun n hn => hsound.settled_of_size_le ?_⟩
  obtain ⟨b, hb, rfl, rfl⟩ := good_of_build (N := False) False.elim h
  by_contra hlt
  exact hn (hb.pending n (Nat.lt_of_not_le hlt))

/-! ## Without nil -/

/-- A program of an expression without nil has none. -/
theorem nilFree_of_build (hnil : e.mentionsNil = false) (h : build e settings depth = .ok (p, s)) :
    p.NilFree := by
  obtain ⟨b, hb, rfl, -⟩ := good_of_build (N := True) (fun _ => hnil) h
  constructor
  · intro id flow hconst
    by_cases hn : id < b.nodes.size
    · exact ((hb.fits id hn).const flow hconst).nilFree trivial
    · change b.kind id = _ at hconst
      rw [Builder.kind_of_size_le (Nat.le_of_not_lt hn)] at hconst
      cases hconst
      exact .any
  · intro id primitive fid formals hprim
    have hn : id < b.nodes.size := b.lt_size_of_kind hprim NodeKind.noConfusion
    exact (hb.fits id hn).prim trivial primitive fid formals hprim

/-- In the first state of a program without nil no flow can rise. -/
theorem ready_of_build (hnil : e.mentionsNil = false) (h : build e settings depth = .ok (p, s)) :
    p.Ready s := by
  have htended := tended_of_build h
  refine ⟨⟨htended.sound, ?_, ?_⟩, htended⟩
  · obtain ⟨b, hb, -, rfl⟩ := good_of_build (N := True) (fun _ => hnil) h
    exact ⟨hb.rooted, hb.plain, b.all_initialFlows .any (.scalar true)⟩
  · obtain ⟨b, -, -, rfl⟩ := good_of_build (N := True) (fun _ => hnil) h
    intro n
    rw [b.ofNode_initialFlows]
    exact Flow.le_any _

end Program

end TypeFlow
