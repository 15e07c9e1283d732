import Mathlib.Data.Finset.Powerset
import TypeFlow.Analysis.Signature
import TypeFlow.Proofs.FlowLattice
import TypeFlow.Proofs.SoundForests

/-!
# Expanded functions

A signature replaces functions by what they return, which may be functions again, and the same ones.
Meets of flows describe no functions but those that the flows describe, so there are no more function
sets to expand than there are sets of the functions that nodes describe.  A set is expanded once on each
path, and so every program has a signature, whatever its flows.

Main definitions:

- `Signature.Path`: a part of a signature, and the function sets on the way to it.
- `Program.Stands`: a part of a signature, and the flow that it was written for.
- `Signature.Writes`: how a flow is written below function sets that are being expanded.

Main results:

- `Flow.mem_allFunctions_meet`: a meet describes no other functions.
- `Program.signatureWithin_signs`: flows are expanded while there are new function sets.
- `Program.signature_expands`: every program has a signature, in which no set is expanded within itself.
-/

namespace TypeFlow

/-! ## Functions in flows -/

private theorem Flow.mem_allFunctionsIn {bound : Option String} {f : Fields Flow bound} {fid : FunctionId} :
    fid ∈ Flow.allFunctionsIn f ↔ ∃ k v, f.find? k = some v ∧ fid ∈ v.allFunctions := by
  have hvalues : fid ∈ Flow.allFunctionsIn f ↔ ∃ v ∈ f.values, fid ∈ v.allFunctions := by
    induction f with
    | nil => simp [allFunctionsIn, Fields.values]
    | cons l h v rest ih =>
      rw [allFunctionsIn, IdSet.mem_union, ih, Fields.values, List.exists_mem_cons_iff]
  rw [hvalues]
  constructor
  · rintro ⟨v, hv, hfid⟩
    obtain ⟨k, hk⟩ := Fields.mem_values.1 hv
    exact ⟨k, v, hk, hfid⟩
  · rintro ⟨k, v, hk, hfid⟩
    exact ⟨v, Fields.mem_values.2 ⟨k, hk⟩, hfid⟩

namespace Flow

private theorem mem_allFunctions_record {s : IdSet} {f : Fields Flow none} {n : Bool} {fid : FunctionId} :
    fid ∈ (record s (some f) n).allFunctions ↔
      ∃ k v, f.find? k = some v ∧ fid ∈ v.allFunctions :=
  mem_allFunctionsIn

private theorem allFunctions_orNil (a : Flow) : a.orNil.allFunctions = a.allFunctions := by
  cases a with
  | record s f n =>
    rw [orNil_record]
    cases f <;> rfl
  | scalar n =>
    rw [orNil_scalar]
    rfl
  | _ => rfl

/-- Where two classes of values clash no functions are described. -/
theorem mem_allFunctions_meet_of_clash {fid : FunctionId} {a b : Flow} (h : a.sameKind b = false)
    (hfid : fid ∈ (a.meet b).allFunctions) : fid ∈ a.allFunctions ∨ fid ∈ b.allFunctions := by
  rcases eq_or_isClassed a with rfl | rfl | ⟨n, rfl⟩ | ha
  · exact Or.inr hfid
  · rw [nil_meet, allFunctions_orNil] at hfid
    exact Or.inr hfid
  · rw [scalar_meet] at hfid
    exact Or.inl hfid
  rcases eq_or_isClassed b with rfl | rfl | ⟨m, rfl⟩ | hb
  · rw [meet_any] at hfid
    exact Or.inl hfid
  · rw [meet_nil, allFunctions_orNil] at hfid
    exact Or.inl hfid
  · rw [meet_scalar] at hfid
    exact Or.inr hfid
  rw [meet_of_clash ha hb h] at hfid
  exact absurd hfid IdSet.not_mem_empty

/-- A meet describes no functions but those that one of the two flows describes. -/
theorem mem_allFunctions_meet {fid : FunctionId} {a b : Flow}
    (hfid : fid ∈ (a.meet b).allFunctions) : fid ∈ a.allFunctions ∨ fid ∈ b.allFunctions := by
  induction a using all_of generalizing b with
  | function s n =>
    cases b with
    | function t m => exact IdSet.mem_union.1 hfid
    | _ => exact mem_allFunctions_meet_of_clash rfl hfid
  | record s f n ih =>
    cases b with
    | record t g m =>
      rw [record_meet_record] at hfid
      cases g with
      | none => exact absurd hfid IdSet.not_mem_empty
      | some g =>
        obtain ⟨k, v, hv, hfid⟩ := mem_allFunctions_record.1 hfid
        rw [find?_meetFields] at hv
        obtain ⟨x, hx, hv⟩ := Option.bind_eq_some_iff.1 hv
        obtain ⟨y, hy, rfl⟩ := Option.map_eq_some_iff.1 hv
        exact (ih k x hx hfid).imp (fun h => mem_allFunctions_record.2 ⟨k, x, hx, h⟩)
          fun h => mem_allFunctions_record.2 ⟨k, y, hy, h⟩
    | _ => exact mem_allFunctions_meet_of_clash rfl hfid
  | unlaid s n =>
    cases b with
    | record t g m =>
      rw [record_meet_record] at hfid
      exact absurd hfid IdSet.not_mem_empty
    | _ => exact mem_allFunctions_meet_of_clash rfl hfid
  | any => exact Or.inr hfid
  | _ =>
    -- Two flows of one of these kinds have a meet of that kind.
    cases b <;>
      first
      | exact mem_allFunctions_meet_of_clash rfl hfid
      | exact Or.inl hfid

end Flow

namespace Flows

variable {w : Flows}

private theorem mem_allFunctions {fid : FunctionId} :
    fid ∈ w.allFunctions ↔ ∃ flow ∈ w.nodes, fid ∈ flow.allFunctions := by
  have hfold : ∀ (flows : List Flow) (fids : IdSet),
      fid ∈ flows.foldl (fun fids flow => fids.union flow.allFunctions) fids ↔
        fid ∈ fids ∨ ∃ flow ∈ flows, fid ∈ flow.allFunctions := by
    intro flows
    induction flows with
    | nil => simp
    | cons flow rest ih =>
      intro fids
      rw [List.foldl_cons, ih, IdSet.mem_union, List.exists_mem_cons_iff, or_assoc]
  rw [allFunctions, ← Array.foldl_toList, hfold, or_iff_right IdSet.not_mem_empty]
  simp only [Array.mem_toList_iff]

private theorem mem_allFunctions_of_ofNode {id : NodeId} {fid : FunctionId}
    (h : fid ∈ (w.ofNode id).allFunctions) : fid ∈ w.allFunctions := by
  unfold ofNode at h
  cases hid : w.nodes[id]? with
  | none =>
    rw [hid] at h
    exact absurd h IdSet.not_mem_empty
  | some flow =>
    rw [hid] at h
    exact mem_allFunctions.2 ⟨flow, Array.mem_of_getElem? hid, h⟩

end Flows

/-! ## Function sets on a path -/

/-- There are no more different sets of some numbers than those have subsets. -/
theorem IdSet.length_le_two_pow {members : IdSet} {sets : List IdSet} (hnodup : sets.Nodup)
    (hsub : ∀ s ∈ sets, ∀ x ∈ s, x ∈ members) : sets.length ≤ 2 ^ members.toList.length := by
  have hinj : Function.Injective fun s : IdSet => s.toList.toFinset := by
    intro s t hst
    refine IdSet.ext_mem fun x => ?_
    rw [IdSet.mem_def, IdSet.mem_def, ← List.mem_toFinset, ← List.mem_toFinset]
    exact Finset.ext_iff.1 hst x
  have hpowerset : (sets.map fun s => s.toList.toFinset).toFinset ⊆
      members.toList.toFinset.powerset := by
    intro u hu
    obtain ⟨s, hs, rfl⟩ := List.mem_map.1 (List.mem_toFinset.1 hu)
    refine Finset.mem_powerset.2 fun x hx => List.mem_toFinset.2 ?_
    exact hsub s hs x (List.mem_toFinset.1 hx)
  calc sets.length
      = (sets.map fun s => s.toList.toFinset).toFinset.card := by
        rw [List.toFinset_card_of_nodup (hnodup.map hinj), List.length_map]
    _ ≤ members.toList.toFinset.powerset.card := Finset.card_le_card hpowerset
    _ = 2 ^ members.toList.toFinset.card := Finset.card_powerset _
    _ ≤ 2 ^ members.toList.length := Nat.pow_le_pow_right Nat.two_pos (List.toFinset_card_le _)

/-! ## Parts of signatures -/

/-- A transformation keeps the labels. -/
theorem Fields.labels_of_mapM? {α β : Type} {f : α → Option β} {bound : Option String}
    {fields : Fields α bound} {fields' : Fields β bound} (h : fields.mapM? f = some fields') :
    fields'.labels = fields.labels := by
  induction fields with
  | nil =>
    cases h
    rfl
  | cons l hl v rest ih =>
    obtain ⟨w, hw, h⟩ := Option.bind_eq_some_iff.1 h
    obtain ⟨rest', hrest, h⟩ := Option.bind_eq_some_iff.1 h
    cases h
    rw [Fields.labels, Fields.labels, ih hrest]

namespace Signature

/-- A part of a signature, with the function sets that are expanded on the way to it, innermost
first. -/
inductive Path (sig : Signature) : List IdSet → Signature → Prop
  | here : Path sig [] sig
  | ret {above : List IdSet} {fids : IdSet} {ret : Signature}
    (h : Path sig above (.function fids ret)) : Path sig (fids :: above) ret
  | field {above : List IdSet} {parts : Fields Signature none} {nil : Bool} {label : String}
    {part : Signature} (h : Path sig above (.record parts nil))
    (hpart : parts.find? label = some part) : Path sig above part

/-- How a flow is written below function sets that are being expanded: a function by what it returns,
unless its set is being expanded, a record with a known layout by its fields, and all else as it is. -/
def Writes (above : List IdSet) : Flow → Signature → Prop
  | .function fids nil, part =>
    if fids ∈ above then part = .value (.function fids nil) else ∃ ret, part = .function fids ret
  | .record _ (some fields) nil, part => ∃ parts, part = .record parts nil ∧ parts.labels = fields.labels
  | flow, part => part = .value flow

end Signature

namespace Program

/-- A part of the signature of a program, with the function sets that are expanded on the way to it and
the flow that it was written for. -/
inductive Stands (p : Program) (w : Flows) (sig : Signature) : List IdSet → Flow → Signature → Prop
  | root : Stands p w sig [] (w.ofNode rootId) sig
  | ret {above : List IdSet} {fids : IdSet} {nil : Bool} {ret : Signature}
    (h : Stands p w sig above (.function fids nil) (.function fids ret)) :
    Stands p w sig (fids :: above) (p.returnsOfAny w fids) ret
  | field {above : List IdSet} {sites : IdSet} {fields : Fields Flow none}
    {parts : Fields Signature none} {nil : Bool} {label : String} {flow : Flow} {part : Signature}
    (h : Stands p w sig above (.record sites (some fields) nil) (.record parts nil))
    (hflow : fields.find? label = some flow) (hpart : parts.find? label = some part) :
    Stands p w sig above flow part

/-- A flow with its functions expanded, below function sets that are being expanded. -/
inductive Signs (p : Program) (w : Flows) : List IdSet → Flow → Signature → Prop
  | value {above : List IdSet} {flow : Flow} (hfunction : ∀ fids nil, flow ≠ .function fids nil)
    (hrecord : ∀ sites fields nil, flow ≠ .record sites (some fields) nil) :
    Signs p w above flow (.value flow)
  | again {above : List IdSet} {fids : IdSet} {nil : Bool} (h : fids ∈ above) :
    Signs p w above (.function fids nil) (.value (.function fids nil))
  | function {above : List IdSet} {fids : IdSet} {nil : Bool} {ret : Signature} (h : fids ∉ above)
    (hret : Signs p w (fids :: above) (p.returnsOfAny w fids) ret) :
    Signs p w above (.function fids nil) (.function fids ret)
  | record {above : List IdSet} {sites : IdSet} {fields : Fields Flow none}
    {parts : Fields Signature none} {nil : Bool} (hlabels : parts.labels = fields.labels)
    (hparts : ∀ label flow part, fields.find? label = some flow → parts.find? label = some part →
      Signs p w above flow part) :
    Signs p w above (.record sites (some fields) nil) (.record parts nil)

variable {p : Program} {w : Flows} {above : List IdSet} {flow : Flow} {sig part : Signature}

private theorem Signs.writes (h : p.Signs w above flow part) : Signature.Writes above flow part := by
  cases h with
  | value hfunction hrecord =>
    cases flow with
    | function fids nil => exact absurd rfl (hfunction fids nil)
    | record sites fields nil =>
      cases fields with
      | none => rfl
      | some fields => exact absurd rfl (hrecord sites fields nil)
    | _ => rfl
  | again hmem =>
    show if _ then _ else _
    rw [if_pos hmem]
  | function hnew hret =>
    show if _ then _ else _
    rw [if_neg hnew]
    exact ⟨_, rfl⟩
  | record hlabels => exact ⟨_, rfl, hlabels⟩

/-- What stands in an expanded flow is an expanded flow, below function sets that all differ. -/
theorem Stands.signs (hsig : p.Signs w [] (w.ofNode rootId) sig) (h : p.Stands w sig above flow part) :
    above.Nodup ∧ p.Signs w above flow part := by
  induction h with
  | root => exact ⟨List.nodup_nil, hsig⟩
  | ret _ ih =>
    cases ih.2 with
    | function hnew hret => exact ⟨List.nodup_cons.2 ⟨hnew, ih.1⟩, hret⟩
  | field _ hflow hpart ih =>
    cases ih.2 with
    | record _ hparts => exact ⟨ih.1, hparts _ _ _ hflow hpart⟩

/-- Whatever is on a path in an expanded flow was written for some flow. -/
theorem Signs.exists_stands (hsig : p.Signs w [] (w.ofNode rootId) sig) (h : sig.Path above part) :
    ∃ flow, p.Stands w sig above flow part := by
  induction h with
  | here => exact ⟨_, .root⟩
  | ret _ ih =>
    obtain ⟨flow, hstands⟩ := ih
    cases (hstands.signs hsig).2 with
    | function => exact ⟨_, .ret hstands⟩
  | @field above parts nil label part _ hpart ih =>
    obtain ⟨flow, hstands⟩ := ih
    cases (hstands.signs hsig).2 with
    | @record _ sites fields _ _ hlabels =>
      have hlabel : label ∈ fields.labels := by
        rw [← hlabels]
        exact Fields.mem_labels.2 (by rw [hpart]; rfl)
      obtain ⟨field, hfield⟩ := Option.isSome_iff_exists.1 (Fields.mem_labels.1 hlabel)
      exact ⟨field, .field hstands hfield hpart⟩

/-! ## Flows that are expanded -/

/-- A call from outside returns no functions but those that nodes describe. -/
theorem mem_allFunctions_of_returns {fid fid' : FunctionId}
    (h : fid' ∈ (p.returns w fid).allFunctions) : fid' ∈ w.allFunctions := by
  unfold returns at h
  split at h
  · exact absurd h IdSet.not_mem_empty
  · split at h
    · exact Flows.mem_allFunctions_of_ofNode h
    · rename_i primitive _ _ _
      have hnone : (primitive.result [] pairSite tripleSite).allFunctions = .empty := by
        cases primitive <;> decide +kernel
      rw [hnone] at h
      exact absurd h IdSet.not_mem_empty
    · exact absurd h IdSet.not_mem_empty

private theorem mem_allFunctions_of_returnsOfAny {fids : IdSet} {fid : FunctionId}
    (h : fid ∈ (p.returnsOfAny w fids).allFunctions) : fid ∈ w.allFunctions := by
  have hfold : ∀ (ids : List FunctionId) (flow : Flow),
      (∀ x ∈ flow.allFunctions, x ∈ w.allFunctions) →
      ∀ x ∈ (ids.foldl (fun flow fid => flow.meet (p.returns w fid)) flow).allFunctions,
        x ∈ w.allFunctions := by
    intro ids
    induction ids with
    | nil => exact fun flow hflow => hflow
    | cons id rest ih =>
      intro flow hflow
      refine ih _ fun x hx => ?_
      rcases Flow.mem_allFunctions_meet hx with hx | hx
      · exact hflow x hx
      · exact mem_allFunctions_of_returns hx
  exact hfold fids.toList .any (fun x hx => absurd hx IdSet.not_mem_empty) fid h

private theorem ofFields?_eq_mapM? (expand : IdSet → Bool → Option Signature) {bound : Option String}
    (fields : Fields Flow bound) :
    Signature.ofFields? expand fields = fields.mapM? (Signature.ofFlow? expand) := by
  induction fields with
  | nil => rfl
  | cons label h flow rest ih => rw [Signature.ofFields?, Fields.mapM?, ih]

/-- A flow is expanded if its function sets are. -/
theorem ofFlow?_signs {expand : IdSet → Bool → Option Signature}
    (hexpand : ∀ fids nil, (∀ fid ∈ fids, fid ∈ w.allFunctions) →
      ∃ part, expand fids nil = some part ∧ p.Signs w above (.function fids nil) part)
    (hflow : ∀ fid ∈ flow.allFunctions, fid ∈ w.allFunctions) :
    ∃ part, Signature.ofFlow? expand flow = some part ∧ p.Signs w above flow part := by
  induction flow using Flow.all_of with
  | function fids nil => exact hexpand fids nil hflow
  | record sites fields nil ih =>
    have hfield : ∀ label flow, fields.find? label = some flow →
        ∃ part, Signature.ofFlow? expand flow = some part ∧ p.Signs w above flow part :=
      fun label flow hlabel => ih label flow hlabel fun fid hfid =>
        hflow fid (Flow.mem_allFunctions_record.2 ⟨label, flow, hlabel, hfid⟩)
    obtain ⟨parts, hparts⟩ : ∃ parts, fields.mapM? (Signature.ofFlow? expand) = some parts :=
      Fields.exists_mapM? fun label flow hlabel =>
        (hfield label flow hlabel).imp fun part hpart => hpart.1
    refine ⟨.record parts nil, ?_, .record (Fields.labels_of_mapM? hparts) ?_⟩
    · rw [Signature.ofFlow?, ofFields?_eq_mapM?, hparts]
      rfl
    · intro label flow part hlabel hpart
      obtain ⟨part', hrun, hsigns⟩ := hfield label flow hlabel
      obtain ⟨flow', hlabel', hrun'⟩ := Fields.find?_of_mapM? hparts hpart
      rw [hlabel] at hlabel'
      cases hlabel'
      rw [hrun] at hrun'
      cases hrun'
      exact hsigns
  | _ => exact ⟨_, rfl, .value (fun _ _ => Flow.noConfusion) fun _ _ _ => nofun⟩

/-- Flows are expanded while there are more function sets of the program than are being expanded. -/
theorem signatureWithin_signs {fuel : Nat} (hactive : above.Nodup)
    (hsets : ∀ s ∈ above, ∀ fid ∈ s, fid ∈ w.allFunctions)
    (hflow : ∀ fid ∈ flow.allFunctions, fid ∈ w.allFunctions)
    (hfuel : 2 ^ w.allFunctions.toList.length < fuel + above.length) :
    ∃ part, p.signatureWithin w fuel above flow = some part ∧ p.Signs w above flow part := by
  induction fuel generalizing above flow with
  | zero =>
    have hlength := IdSet.length_le_two_pow hactive hsets
    omega
  | succ fuel ih =>
    refine ofFlow?_signs (fun fids nil hfids => ?_) hflow
    by_cases hmem : fids ∈ above
    · exact ⟨_, if_pos (List.contains_iff_mem.2 hmem), .again hmem⟩
    · have hactive' : (fids :: above).Nodup := List.nodup_cons.2 ⟨hmem, hactive⟩
      have hsets' : ∀ s ∈ fids :: above, ∀ fid ∈ s, fid ∈ w.allFunctions := fun s hs => by
        rcases List.mem_cons.1 hs with rfl | hs
        · exact hfids
        · exact hsets s hs
      have hreturns : ∀ fid ∈ (p.returnsOfAny w fids).allFunctions, fid ∈ w.allFunctions :=
        fun fid hfid => mem_allFunctions_of_returnsOfAny hfid
      have hfuel' : 2 ^ w.allFunctions.toList.length < fuel + (fids :: above).length := by
        rw [List.length_cons]
        omega
      obtain ⟨ret, hret, hsigns⟩ := ih hactive' hsets' hreturns hfuel'
      refine ⟨.function fids ret, ?_, .function hmem hsigns⟩
      rw [if_neg fun hcontains => hmem (List.contains_iff_mem.1 hcontains), hret]
      rfl

/-- Every program has a signature, whatever its flows.  On each path in it all function sets that are
expanded differ, and whatever is on the path was written for a flow: a function for one of its set, above
the signature of what a call returns.  A function is left as it is exactly if its set is being expanded
above it. -/
theorem signature_expands (p : Program) (w : Flows) : ∃ sig, p.signature? w = some sig ∧
    (∀ above part, sig.Path above part →
      above.Nodup ∧ ∃ flow, p.Stands w sig above flow part) ∧
    ∀ above flow part, p.Stands w sig above flow part → Signature.Writes above flow part := by
  obtain ⟨sig, hrun, hsigns⟩ : ∃ sig, p.signature? w = some sig ∧
      p.Signs w [] (w.ofNode rootId) sig :=
    signatureWithin_signs List.nodup_nil (fun s hs => absurd hs List.not_mem_nil)
      (fun fid hfid => Flows.mem_allFunctions_of_ofNode hfid) (Nat.lt_succ_self _)
  refine ⟨sig, hrun, fun above part hpath => ?_, fun above flow part hstands =>
    (hstands.signs hsigns).2.writes⟩
  obtain ⟨flow, hstands⟩ := hsigns.exists_stands hpath
  exact ⟨(hstands.signs hsigns).1, flow, hstands⟩

end Program

end TypeFlow
