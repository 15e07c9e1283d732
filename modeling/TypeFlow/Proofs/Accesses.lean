import TypeFlow.Proofs.Edits
import TypeFlow.Proofs.TypeSteps

/-!
# What type steps are composed of

Unifications, instantiations and type steps reach the pending work and the memory of a call, as they
reach the forest, through a few accesses.  A property that these accesses have, and that passes through binds, is
one of every type step and of its announcements.

Main definitions:

- `Unifier.Accesses`: a property of the accesses that composed computations inherit.

Main results:

- `Unifier.Accesses.unify`, `Unifier.Accesses.instantiate`: unifications and instantiations have it.
- `Unifier.Accesses.typeStep`, `Unifier.Accesses.announceType`: so have type steps and their
  announcements.
-/

namespace TypeFlow

namespace Unifier

/-- A property of computations that the accesses to a unifier have and that passes through binds. -/
structure Accesses (P : (α : Type) → UnifyM α → Prop) : Prop extends Edits P where
  push : ∀ id : NodeId, P Unit (Program.push id)
  /-- What the memory of the call says. -/
  readMemo : ∀ {α : Type} (read : List (TermId × TermId) → List (TermId × TermId) → α),
    P α fun s => some (read s.met s.image, s)
  /-- The memory of the call is changed. -/
  changeMemo : ∀ met image : List (TermId × TermId) → List (TermId × TermId),
    P Unit (modify fun s => { s with met := met s.met, image := image s.image })

namespace Accesses

variable {P : (α : Type) → UnifyM α → Prop} (hP : Accesses P)

include hP

/-! ## Unifying -/

section Unifying

variable {rec : TermId → TermId → UnifyM Bool} (hrec : ∀ a b, P _ (rec a b))

include hrec

private theorem unifyStep (a b : TermId) : P _ (unifyStep rec a b) := by
  refine hP.bind (hP.find _) fun a => hP.bind (hP.find _) fun b => hP.ite (hP.pure _) ?_
  refine hP.bind (hP.kindOf _) fun ka => hP.bind (hP.kindOf _) fun kb => ?_
  refine hP.ite (hP.merge _ _) (hP.ite (hP.merge _ _) (hP.ite (hP.merge _ _) ?_))
  refine hP.ite (hP.unifyNilable hrec _ _) (hP.ite (hP.unifyNilable hrec _ _) ?_)
  refine hP.bind (hP.readMemo fun met _ => met.contains (a, b)) fun met => hP.ite (hP.pure _) ?_
  refine hP.bind (hP.changeMemo (fun met => (a, b) :: met) fun image => image) fun _ => ?_
  refine hP.guard (hP.ite ?_ (hP.unifyChildren hrec _ _))
  exact hP.bind (hP.view _) fun cause => hP.clash _ _ _

end Unifying

private theorem unifyWithin (depth : Nat) (a b : TermId) : P _ (unifyWithin depth a b) := by
  induction depth generalizing a b with
  | zero => exact hP.failure
  | succ depth ih => exact hP.unifyStep ih a b

/-- Unifying two terms is a composition of the accesses. -/
theorem unify (depth : Nat) (a b : TermId) : P _ (unify depth a b) := by
  refine hP.bind (hP.find _) fun a => hP.bind (hP.find _) fun b => hP.ite (hP.pure _) ?_
  exact hP.bind (hP.changeMemo (fun _ => []) fun image => image) fun _ => hP.unifyWithin _ _ _

/-! ## Instances -/

private theorem imageOf (t : TermId) : P _ (imageOf t) := hP.readMemo fun _ image => image.lookup t

private theorem setImage (t image : TermId) : P _ (setImage t image) :=
  hP.changeMemo (fun met => met) fun images => (t, image) :: images

private theorem occursInAny (t : TermId) (types : List TermId) : P _ (occursInAny t types) :=
  hP.onForest _

private theorem copySlots {duplicate : TermId → UnifyM TermId} (hdup : ∀ x, P _ (duplicate x))
    (t c : TermId) (slots : List Slot) : P _ (copySlots duplicate t c slots) := by
  induction slots with
  | nil => exact hP.pure _
  | cons slot rest ih =>
    refine hP.bind_option (hP.child _ _) ih fun x => hP.bind (hdup _) fun y => ?_
    exact hP.bind (hP.change _) fun _ => ih

private theorem freshCopy (pinned : List TermId) (t : TermId) : P _ (freshCopy pinned t) := by
  have hwithin : ∀ fuel t, P _ (freshCopyWithin pinned fuel t) := by
    intro fuel
    induction fuel with
    | zero => exact fun _ => hP.failure
    | succ fuel ih =>
      intro t
      refine hP.bind (hP.find _) fun t => hP.bind_option (hP.imageOf _) ?_ fun c => hP.pure _
      refine hP.bind (hP.occursInAny _ _) fun occurs => hP.ite ?_ ?_
      · exact hP.bind (hP.setImage _ _) fun _ => hP.pure _
      · refine hP.bind (hP.copy _) fun c => hP.bind (hP.kindOf _) fun kind => ?_
        refine hP.either ?_ fun hrest => hP.bind (hP.change _) fun _ => hrest
        refine hP.bind (hP.setImage _ _) fun _ => ?_
        exact hP.bind (hP.copySlots ih _ _ _) fun _ => hP.pure _
  exact hP.bind (hP.view _) fun fuel => hwithin _ _

private theorem refine (this that : TermId) : P _ (refine this that) := by
  refine hP.bind (hP.kindOf _) fun k => hP.bind (hP.kindOf _) fun k' => ?_
  cases refinedKind? k k' with
  | none => exact hP.pure _
  | some kind =>
    exact hP.guard (hP.bind (hP.change _) fun _ => hP.bind (hP.wake _) fun _ => hP.pure _)

private theorem instantiateNilable (that : TermId) : P _ (instantiateNilable that) := by
  refine hP.bind (hP.kindOf _) fun k => hP.ite (hP.pure _) (hP.guard ?_)
  exact hP.bind (hP.change _) fun _ => hP.bind (hP.wake _) fun _ => hP.pure _

private theorem dropExtra (this that : TermId) (labels : List String) (progress : Bool) :
    P _ (dropExtra this that labels progress) := by
  induction labels generalizing progress with
  | nil => exact hP.pure _
  | cons label rest ih =>
    refine hP.bind (hP.kindOf _) fun k => hP.ite (ih _) ?_
    extract_lets next
    have hnext : ∀ keep, P _ (next keep) := by
      intro keep
      exact hP.ite (ih _) (hP.guard (hP.bind (hP.dropField _ _) fun _ => ih _))
    refine hP.bind_option (hP.child _ _) (hP.bind (hP.pure _) hnext) fun t => ?_
    exact hP.bind (hP.kindOf _) fun k => hP.bind (hP.pure _) hnext

section Instantiating

variable {inst rec : TermId → TermId → UnifyM Bool} (hinst : ∀ a b, P _ (inst a b))
  (hrec : ∀ a b, P _ (rec a b))

include hrec in
private theorem reject (this that : TermId) : P _ (reject rec this that) := by
  refine hP.guard (hP.bind (hP.view _) fun cause => hP.bind (hP.alloc _) fun error => ?_)
  exact hP.bind (hrec _ _) fun _ => hP.bind (hP.setImage _ _) fun _ => hP.pure _

include hrec in
private theorem instantiateBase (this that : TermId) (a b : Flow) :
    P _ (instantiateBase rec this that a b) := by
  refine hP.ite (hP.reject hrec _ _) (hP.ite ?_ (hP.guard ?_))
  · exact hP.bind (hP.setImage _ _) fun _ => hP.pure _
  · refine hP.bind (hP.change _) fun _ => hP.bind (hP.wake _) fun _ => ?_
    exact hP.bind (hP.setImage _ _) fun _ => hP.pure _

include hinst in
private theorem instantiateInner (this that : TermId) : P _ (instantiateInner inst this that) := by
  refine hP.guard (hP.bind (hP.kindOf _) fun k => ?_)
  extract_lets next
  have hnext : ∀ source, P _ (next source) := by
    intro source
    refine hP.bind_option (hP.child _ _) (hP.pure _) fun inner => ?_
    refine hP.bind (hinst _ _) fun progress => ?_
    exact hP.either (hP.pure _) fun hlast => hP.bind (hP.setImage _ _) fun _ => hlast
  refine hP.ite ?_ (hP.bind (hP.pure _) hnext)
  exact hP.bind (hP.copy _) fun c => hP.bind (hP.change _) fun _ => hP.bind (hP.pure _) hnext

include hinst in
private theorem instantiateMissing (pinned : List TermId) (this that lhs : TermId) (label : String) :
    P _ (instantiateMissing inst pinned this that lhs label) := by
  refine hP.bind (hP.kindOf _) fun k => hP.ite (hP.guard ?_) ?_
  · exact hP.bind (hP.freshCopy _ _) fun c => hP.bind (hP.addField _ _ _) fun _ => hP.pure _
  · refine hP.bind (hP.kindOf _) fun k => hP.ite (hP.guard ?_) (hP.pure _)
    refine hP.bind (hP.view _) fun cause => hP.bind (hP.alloc _) fun error => ?_
    exact hP.bind (hinst _ _) fun _ => hP.bind (hP.addField _ _ _) fun _ => hP.pure _

include hinst in
private theorem instantiateSlots (pinned : List TermId) (this : TermId) (slots : List Slot)
    (that : TermId) (progress missing : Bool) :
    P _ (instantiateSlots inst pinned this slots that progress missing) := by
  induction slots generalizing that progress missing with
  | nil => exact hP.pure _
  | cons slot rest ih =>
    refine hP.bind_option (hP.child _ _) (ih _ _ _) fun lhs => hP.bind (hP.child _ _) fun rhs? => ?_
    extract_lets next
    have hnext : ∀ changed?, P _ (next changed?) := by
      intro changed?
      cases changed? with
      | none => exact hP.pure _
      | some changed =>
        refine hP.bind (hP.find _) fun that => hP.bind (hP.kindOf _) fun k => ?_
        refine hP.ite (hP.pure _) (hP.bind hP.isProbe fun probing => ?_)
        exact hP.ite (hP.pure _) (ih _ _ _)
    split
    · exact hP.bind (hinst _ _) fun _ => hP.bind (hP.pure _) hnext
    · exact hP.bind (hP.instantiateMissing hinst _ _ _ _ _) hnext
    · exact hP.bind (hP.pure _) hnext

include hinst in
private theorem instantiateChildren (pinned : List TermId) (this that : TermId) :
    P _ (instantiateChildren inst pinned this that) := by
  refine hP.bind (hP.view _) fun slots => hP.bind (hP.view _) fun others => ?_
  refine hP.either ?_ fun _ => hP.bind (hP.setImage _ _) fun _ => hP.pure _
  refine hP.bind (hP.setImage _ _) fun _ => ?_
  refine hP.bind (hP.instantiateSlots hinst _ _ _ _ _ _) fun outcome => ?_
  cases outcome with
  | finished => exact hP.pure _
  | ongoing that progress missing =>
    refine hP.bind (hP.kindOf _) fun k => hP.bind (hP.kindOf _) fun k' => ?_
    extract_lets next
    have hnext : ∀ progress?, P _ (next progress?) := by
      intro progress?
      cases progress? with
      | none => exact hP.pure _
      | some progress => exact hP.bind (hP.refine _ _) fun _ => hP.pure _
    refine hP.ite (hP.bind (hP.kindOf _) fun k => ?_) (hP.bind (hP.pure _) hnext)
    exact hP.bind (hP.dropExtra _ _ _ _) hnext

include hinst hrec in
private theorem instantiateStep (pinned : List TermId) (this that : TermId) :
    P _ (instantiateStep inst rec pinned this that) := by
  have hkept : ∀ {m : UnifyM Bool} {x y : TermId}, P _ m →
      P _ (m >>= fun progress => Unifier.setImage x y >>= fun _ => Pure.pure progress) := fun hm =>
    hP.bind hm fun _ => hP.bind (hP.setImage _ _) fun _ => hP.pure _
  have hshared : ∀ {x y : TermId}, P _ (Unifier.setImage x y >>= fun _ => Pure.pure false) :=
    hP.bind (hP.setImage _ _) fun _ => hP.pure _
  refine hP.bind (hP.find _) fun this => hP.bind (hP.find _) fun that => ?_
  refine hP.bind_option (hP.imageOf _) ?_ fun prior => hP.bind (hP.find _) fun prior => hrec _ _
  refine hP.bind (hP.onForest _) fun same => hP.ite hshared ?_
  refine hP.bind (hP.kindOf _) fun k => hP.ite hshared ?_
  refine hP.bind (hP.bind (hP.kindOf _) fun k => ?_) fun settled => ?_
  · exact hP.ite (hP.pure _) (hP.occursInAny _ _)
  refine hP.ite (hkept (hrec _ _)) ?_
  refine hP.bind (hP.kindOf _) fun kthis => hP.bind (hP.kindOf _) fun kthat => ?_
  refine hP.ite hshared (hP.ite (hP.guard ?_) ?_)
  · exact hP.bind (hP.freshCopy _ _) fun c => hkept (hP.merge _ _)
  split
  · exact hP.instantiateBase hrec _ _ _ _
  · refine hP.ite (hP.instantiateNilable _) (hP.ite (hP.instantiateInner hinst _ _) ?_)
    exact hP.ite (hP.reject hrec _ _) (hP.instantiateChildren hinst _ _ _)

end Instantiating

private theorem instantiate (depth : Nat) (definition use : TermId) (pinned : List TermId) :
    P _ (instantiate depth definition use pinned) := by
  have hwithin : ∀ a b, P _ (instantiateWithin pinned depth a b) := by
    induction depth with
    | zero => exact fun _ _ => hP.failure
    | succ depth ih => exact hP.instantiateStep ih (hP.unifyWithin depth) pinned
  exact hP.bind (hP.changeMemo (fun _ => []) fun _ => []) fun _ => hwithin _ _

/-! ## Type steps -/

variable (p : Program)

private theorem typeOf (id : NodeId) : P _ (p.typeOf id) := hP.find _

private theorem typesOf (ids : List NodeId) : P _ (p.typesOf ids) := by
  induction ids with
  | nil => exact hP.pure _
  | cons id rest ih => exact hP.bind (hP.typeOf p id) fun t => hP.bind ih fun ts => hP.pure _

private theorem formalsOf (id : NodeId) : P _ (p.formalsOf id) := by
  unfold Program.formalsOf
  split
  · exact hP.onForest _
  · exact hP.pure _

private theorem passError (id : NodeId) (error : TermId) (progress : Bool) :
    P _ (p.passError id error progress) :=
  hP.bind (hP.typeOf p id) fun _ => hP.bind (hP.unify _ _ _) fun _ => hP.pure _

private theorem endCall (id : NodeId) (callee : TermId) (progress : Bool) :
    P _ (p.endCall id callee progress) :=
  hP.bind (hP.find _) fun _ => hP.bind (hP.kindOf _) fun _ =>
    hP.ite (hP.passError p _ _ _) (hP.pure _)

private theorem identStep (id : NodeId) (binding : TermId) : P _ (p.identStep id binding) :=
  hP.bind (hP.find _) fun _ => hP.bind (hP.typeOf p id) fun _ =>
    hP.bind (hP.onForest _) fun _ => hP.instantiate _ _ _ _

private theorem unifyParameters (fn : TermId) (i : Nat) (formals : List TermId) (progress : Bool) :
    P _ (p.unifyParameters fn i formals progress) := by
  induction formals generalizing i progress with
  | nil => exact hP.pure _
  | cons formal rest ih =>
    refine hP.bind_option (hP.child _ _) (ih _ _) fun arg => ?_
    exact hP.bind (hP.unify _ _ _) fun _ => ih _ _

private theorem lambdaStep (id body : NodeId) : P _ (p.lambdaStep id body) := by
  refine hP.bind (hP.typeOf p id) fun fn => hP.bind (hP.kindOf _) fun k => hP.ite (hP.pure _) ?_
  refine hP.bind (hP.formalsOf p id) fun formals => ?_
  refine hP.bind (hP.unifyParameters p _ _ _ _) fun progress => ?_
  refine hP.bind (hP.typeOf p body) fun result => ?_
  refine hP.bind_option (hP.child _ _) (hP.pure _) fun slot => ?_
  exact hP.bind (hP.unify _ _ _) fun _ => hP.pure _

private theorem callUnknown (id : NodeId) (callee : TermId) (args : List NodeId) :
    P _ (p.callUnknown id callee args) := by
  refine hP.guard (hP.bind (hP.typesOf p args) fun actuals => hP.bind (hP.typeOf p id) fun me => ?_)
  refine hP.bind (hP.add fun f => f.allocFunction true .empty actuals me) fun shape => ?_
  exact hP.bind (hP.unify _ _ _) fun progress => hP.endCall p id callee progress

private theorem unifyArguments (id : NodeId) (i : Nat) (args : List NodeId) (callee : TermId)
    (progress : Bool) : P _ (p.unifyArguments id i args callee progress) := by
  induction args generalizing i callee progress with
  | nil => exact hP.pure _
  | cons arg rest ih =>
    have hrest : ∀ progress : Bool, P _ (p.nextArgument id i rest callee progress) := by
      intro progress
      refine hP.bind hP.isProbe fun probing => hP.ite (hP.pure _) ?_
      refine hP.bind (hP.find _) fun callee' => hP.bind (hP.kindOf _) fun k => ?_
      exact hP.ite (hP.bind (hP.passError p _ _ _) fun _ => hP.pure _) (ih _ _ _)
    refine hP.bind_option (hP.child _ _) (hrest _) fun formal => ?_
    exact hP.bind (hP.typeOf p arg) fun _ => hP.bind (hP.unify _ _ _) fun _ => hrest _

private theorem applyStep (id fn : NodeId) (args : List NodeId) : P _ (p.applyStep id fn args) := by
  refine hP.bind (hP.typeOf p fn) fun callee => hP.bind (hP.kindOf _) fun kind => ?_
  refine hP.ite (hP.passError p _ _ _) (hP.ite (hP.callUnknown p _ _ _) ?_)
  refine hP.bind (hP.typeOf p id) fun me => hP.bind (hP.kindOf _) fun k => ?_
  refine hP.bind hP.isProbe fun probing => hP.ite (hP.pure _) ?_
  extract_lets next
  have hnext : ∀ progress, P _ (next progress) := by
    intro progress
    refine hP.bind (hP.unifyArguments p _ _ _ _ _) fun outcome => ?_
    cases outcome with
    | finished progress => exact hP.pure _
    | ongoing callee progress =>
      refine hP.bind (hP.typeOf p id) fun me => ?_
      refine hP.bind_option (hP.child _ _) (hP.endCall p _ _ _) fun result => ?_
      exact hP.bind (hP.unify _ _ _) fun _ => hP.endCall p _ _ _
  refine hP.ite ?_ (hP.bind (hP.pure _) hnext)
  exact hP.bind (hP.alloc _) fun error => hP.bind (hP.unify _ _ _) hnext

private theorem rejectExtra (id : NodeId) (labels : List String) (rec : TermId) (remaining : List String)
    (progress : Bool) : P _ (p.rejectExtra id labels rec remaining progress) := by
  induction remaining generalizing progress with
  | nil => exact hP.pure _
  | cons label rest ih =>
    refine hP.ite (ih _) (hP.bind_option (hP.child _ _) (ih _) fun extra => ?_)
    refine hP.bind (hP.kindOf _) fun k => hP.ite (ih _) (hP.guard ?_)
    refine hP.bind (hP.typeOf p id) fun me => hP.bind (hP.view _) fun cause => ?_
    exact hP.bind (hP.alloc _) fun missing => hP.bind (hP.unify _ _ _) fun _ => ih _

private theorem unifyParts (fields : List (String × NodeId)) (rec : TermId) (progress : Bool) :
    P _ (p.unifyParts fields rec progress) := by
  induction fields generalizing rec progress with
  | nil => exact hP.pure _
  | cons field rest ih =>
    refine hP.bind (hP.find _) fun rec' => ?_
    have hnext : ∀ progress : Bool, P _ (p.nextPart rest rec' progress) := fun progress =>
      hP.bind hP.isProbe fun _ => hP.ite (hP.pure _) (ih _ _)
    refine hP.bind_option (hP.child _ _) (hnext _) fun slot => ?_
    exact hP.bind (hP.typeOf p _) fun _ => hP.bind (hP.unify _ _ _) fun _ => hnext _

private theorem recordStep (id : NodeId) (site : SiteId) (labels : List String) (parts : List NodeId) :
    P _ (p.recordStep id site labels parts) := by
  refine hP.bind (hP.typeOf p id) fun rec => hP.bind (hP.kindOf _) fun kind => ?_
  refine hP.ite (hP.pure _) (hP.bind hP.isProbe fun probing => hP.ite (hP.pure _) ?_)
  extract_lets next
  have hnext : ∀ r, P _ (next r) := by
    intro r
    refine hP.bind (hP.kindOf _) fun kind => hP.ite (hP.pure _) ?_
    refine hP.bind_option (hP.rejectExtra p _ _ _ _ _) (hP.pure _) fun progress => ?_
    refine hP.bind (hP.unifyParts p _ _ _) fun r' => hP.guard ?_
    exact hP.bind (hP.find _) fun rec => hP.bind (hP.change _) fun _ => hP.pure _
  refine hP.ite ?_ (hP.bind (hP.pure _) hnext)
  refine hP.bind (hP.typesOf p _) fun types => hP.bind (hP.alloc _) fun shape => ?_
  exact hP.bind (hP.unify _ _ _) fun _ => hP.bind (hP.typeOf p _) fun rec =>
    hP.bind (hP.pure _) hnext

private theorem addMissing (label : String) (me rec : TermId) : P _ (p.addMissing label me rec) := by
  refine hP.bind (hP.kindOf _) fun kind => hP.ite (hP.unify _ _ _) ?_
  refine hP.ite (hP.addField _ _ _) (hP.ite ?_ ?_)
  · refine hP.bind (hP.change _) fun _ => hP.bind (hP.alloc _) fun shape => hP.unify _ _ _
  · refine hP.bind (hP.view _) fun cause => hP.bind (hP.alloc _) fun missing => hP.unify _ _ _

private theorem fieldStep (id : NodeId) (label : String) (source : NodeId) :
    P _ (p.fieldStep id label source) := by
  refine hP.bind (hP.typeOf p id) fun me => hP.bind (hP.kindOf _) fun k => ?_
  refine hP.ite (hP.pure _) (hP.bind (hP.typeOf p source) fun rec => ?_)
  refine hP.bind (hP.kindOf _) fun kind => hP.ite (hP.guard ?_) ?_
  · exact hP.bind (hP.alloc _) fun error => hP.unify _ _ _
  refine hP.bind hP.isProbe fun probing => ?_
  extract_lets next
  have hnext : ∀ u, P _ (next u) := by
    intro u
    exact hP.bind_option (hP.child _ _) (hP.guard (hP.addMissing p _ _ _)) fun value => hP.unify _ _ _
  exact hP.ite (hP.bind (hP.change _) hnext) (hnext ())

private theorem primitiveStep (id : NodeId) : P _ (p.primitiveStep id) := by
  have hfirst : ∀ types, P _ (Program.firstError types) := by
    intro types
    induction types with
    | nil => exact hP.pure _
    | cons t rest ih => exact hP.bind (hP.kindOf _) fun k => hP.ite (hP.pure _) ih
  refine hP.bind (hP.typeOf p id) fun me => hP.bind (hP.kindOf _) fun k => hP.ite (hP.pure _) ?_
  refine hP.bind (hP.formalsOf p id) fun formals => ?_
  exact hP.bind_option (hfirst _) (hP.pure _) fun error => hP.unify _ _ _

private theorem condStep (flows : Flows) (id : NodeId) (fid : FunctionId) :
    P _ (p.condStep flows id fid) := by
  refine hP.bind (hP.typeOf p id) fun me => ?_
  refine hP.bind_option (hP.child _ _) (hP.pure _) fun result => ?_
  refine hP.bind (hP.formalsOf p id) fun formals => ?_
  dsimp only
  split
  · exact hP.pure _
  · exact hP.unify _ _ _
  · exact hP.unify _ _ _
  · refine hP.bind (hP.unify _ _ _) fun progress => hP.bind (hP.find _) fun r => ?_
    exact hP.bind (hP.find _) fun other => hP.bind (hP.unify _ _ _) fun _ => hP.pure _

private theorem isAligned (arg ret : TermId) : P _ (Program.isAligned arg ret) := by
  have hslots : ∀ slots, P _ (Program.sameSlots arg ret slots) := by
    intro slots
    induction slots with
    | nil => exact hP.pure _
    | cons slot rest ih =>
      exact hP.bind (hP.child _ _) fun x => hP.bind (hP.child _ _) fun y => hP.ite (hP.pure _) ih
  refine hP.bind (hP.kindOf _) fun k => hP.bind (hslots _) fun same => hP.ite (hP.pure _) ?_
  exact hP.bind (hP.kindOf _) fun k => hP.bind (hP.kindOf _) fun k' => hP.pure _

private theorem push? (id? : Option NodeId) : P _ (Program.push? id?) := by
  unfold Program.push?
  split
  · exact hP.push _
  · exact hP.pure _

private theorem setBase (t : TermId) (flow : Flow) (reader : Option NodeId) :
    P _ (Program.setBase t flow reader) := by
  refine hP.bind (hP.kindOf _) fun kind => ?_
  cases kind with
  | base old => exact hP.ite (hP.bind (hP.change _) fun _ => hP.push? _) (hP.pure _)
  | _ => exact hP.pure _

private theorem notNilStep (id : NodeId) : P _ (p.notNilStep id) := by
  refine hP.bind (hP.formalsOf p id) fun formals => ?_
  dsimp only
  generalize formals.headD 0 = arg
  refine hP.bind (hP.kindOf _) fun k => hP.ite (hP.pure _) (hP.bind (hP.typeOf p id) fun me => ?_)
  refine hP.bind_option (hP.child _ _) (hP.pure _) fun ret => hP.ite (hP.pure _) ?_
  refine hP.bind (hP.kindOf _) fun k => ?_
  refine hP.either ?_ fun hrest => hP.bind (hP.child _ _) fun inner? => hP.ite (hP.pure _) hrest
  refine hP.bind (hP.kindOf _) fun karg => hP.bind (hP.kindOf _) fun kret => ?_
  have hwrap : P _ (p.wrapArgument arg ret) := by
    refine hP.bind (hP.kindOf _) fun kind => hP.bind (hP.kindOf _) fun kind' => ?_
    refine hP.ite (hP.unify _ _ _) (hP.bind (hP.alloc _) fun wrapped => ?_)
    exact hP.bind (hP.find _) fun wrapped => hP.unify _ _ _
  have hother : P _ (p.wrapUnaligned arg ret karg kret) :=
    hP.bind (hP.ite (hP.isAligned _ _) (hP.pure _)) fun aligned => hP.ite (hP.pure _) (hP.guard hwrap)
  cases karg.baseFlow? with
  | none => exact hother
  | some a =>
    cases kret.baseFlow? with
    | none => exact hother
    | some r =>
      refine hP.ite (hP.pure _) (hP.guard (hP.bind (hP.setBase _ _ _) fun _ => ?_))
      exact hP.bind (hP.setBase _ _ _) fun _ => hP.pure _

/-- So is the type step of any node. -/
theorem typeStep (flows : Flows) (id : NodeId) : P _ (p.typeStep flows id) := by
  unfold Program.typeStep
  split
  · exact hP.pure _
  · exact hP.pure _
  · exact hP.identStep p _ _
  · exact hP.lambdaStep p _ _
  · exact hP.applyStep p _ _ _
  · exact hP.bind (hP.typeOf p _) fun me => hP.bind (hP.typeOf p _) fun b => hP.unify _ _ _
  · exact hP.recordStep p _ _ _ _
  · exact hP.fieldStep p _ _ _
  · exact hP.condStep p _ _ _
  · exact hP.notNilStep p _
  · exact hP.primitiveStep p _

/-! ## Announcements -/

private theorem pushAll (ids : List NodeId) : P _ (Program.pushAll ids) := by
  unfold Program.pushAll
  induction ids with
  | nil => exact hP.pure _
  | cons id rest ih => exact hP.bind (hP.push id) fun _ => ih

private theorem wakeClass (t : TermId) : P _ (Program.wakeClass t) :=
  hP.bind (hP.view _) fun _ => hP.pushAll _

private theorem announceIdent (id : NodeId) (binding : TermId) : P _ (p.announceIdent id binding) := by
  refine hP.bind (hP.push? _) fun _ => ?_
  cases p.parent id with
  | none => exact hP.pure _
  | some parent =>
    refine hP.bind (hP.find _) fun binding' => hP.bind (hP.onForest _) fun pinned => ?_
    refine hP.bind (hP.occursInAny _ _) fun occurs => ?_
    refine hP.either ?_ fun hlast => hP.bind (hP.wake _) fun _ => hlast
    split
    · exact hP.ite (hP.push _) (hP.pure _)
    · exact hP.pure _

private theorem announceFormals (me : TermId) (formals : List TermId) :
    P _ (Program.announceFormals me formals) := by
  induction formals with
  | nil => exact hP.pure _
  | cons formal rest ih =>
    refine hP.bind (hP.onForest _) fun occurs => ?_
    exact hP.ite (hP.bind (hP.wakeClass _) fun _ => ih) ih

/-- So is announcing the type of a node. -/
theorem announceType (id : NodeId) : P _ (p.announceType id) := by
  have hwithin : ∀ fuel id, P _ (p.announceWithin fuel id) := by
    intro fuel
    induction fuel with
    | zero => exact fun _ => hP.failure
    | succ fuel ih =>
      intro id
      have hparent : ∀ {m : UnifyM Unit}, P _ m →
          P _ (Program.push? (p.parent id) >>= fun _ => m) := fun hm =>
        hP.bind (hP.push? _) fun _ => hm
      unfold Program.announceWithin
      split
      · exact hP.pure _
      · exact hP.pure _
      · exact hP.announceIdent p _ _
      · refine hparent (hP.bind (hP.push _) fun _ => hP.bind (hP.typeOf p id) fun me => ?_)
        exact hP.bind (hP.formalsOf p id) fun formals => hP.announceFormals _ _
      · refine hparent (hP.bind (hP.push _) fun _ => hP.bind (hP.push _) fun _ => ?_)
        exact hP.bind (hP.typeOf p _) fun t => hP.wakeClass t
      · exact hparent (hP.pushAll _)
      · exact hparent (hP.pushAll _)
      · exact hparent (hP.bind (hP.push _) fun _ => ih _)
      · refine hP.bind (hP.typeOf p id) fun me => hP.bind (hP.kindOf _) fun k => ?_
        exact hP.ite (hP.push? _) (hP.pure _)
  exact hwithin _ _

end Accesses

end Unifier

end TypeFlow
