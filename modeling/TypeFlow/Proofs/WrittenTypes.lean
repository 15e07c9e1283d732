import TypeFlow.Forest.Text
import TypeFlow.Proofs.Walks
import TypeFlow.Proofs.WrittenDoubles

/-!
# Written types

A type is written as a finite tree of classes even if it runs in circles.  Two walks write it: one finds
the classes that are met more than once, the other introduces these by a name and a colon and writes
their names alone from then on.  Both walks enter the classes in the same order, so that one sketch of
the written form, drawn by a walk that enters no class twice, tells what both of them do.

Main definitions:

- `Sketch`: a written form, with the way that a class is written in each of its places.
- `Forest.meetings`: the classes that the walk from a term meets, as often as it meets them.
- `Forest.Draws`: the walk that draws sketches.

Main results:

- `Forest.Draws.meets`: the classes met again are those named where they are not introduced.
- `Forest.Draws.writes`: what is written is the text of the sketch.
- `Forest.render_sketched`: every type has a written form, which introduces every class that is met more
  than once in one place and names it in all others.
-/

namespace TypeFlow

/-! ## Sketches -/

/-- How a class is written in one of its places. -/
inductive Form
  /-- By its name alone. -/
  | named
  /-- By its name, a colon and what it consists of. -/
  | introduced
  /-- By what it consists of alone. -/
  | spelled
  deriving DecidableEq

/-- A written form: a class, how it is written here, and the sketches of its parts if these are
written. -/
inductive Sketch
  | node (c : TermId) (form : Form) (parts : List Sketch)

namespace Kind

/-- Types of the kind consist of others: wrappers, functions and records. -/
def isCompound : Kind → Bool
  | nilable _ | function _ _ _ _ | record _ _ _ _ => true
  | _ => false

/-- What is written for a kind whose parts are written in this way. -/
def spelling (parts : List String) : Kind → String
  | var | link _ => ""
  | base flow => flow.render
  | error cause => cause.message
  | nilable _ => String.join parts ++ "?"
  | function _ _ _ nil => "\x7b " ++ String.join (parts.dropLast.map (· ++ " ")) ++ "-> "
      ++ parts.getLastD "" ++ " \x7d" ++ nilMark nil
  | record fields _ isOpen nil =>
    if isTuple fields.labels then
      "(" ++ String.intercalate ", " parts ++ (if isOpen then ", ..." else "") ++ ")" ++ nilMark nil
    else
      let entries := List.zipWith (fun l p => l ++ " = " ++ p) fields.labels parts
        ++ if isOpen then ["..."] else []
      "@\x7b" ++ (if entries.isEmpty then "" else " " ++ String.intercalate "; " entries)
        ++ " \x7d" ++ nilMark nil

end Kind

namespace Sketch

mutual

/-- The text of a sketch, given the names of the classes. -/
def text (f : Forest) (name : TermId → String) : Sketch → String
  | node c .named _ => name c
  | node c .introduced parts => name c ++ ":" ++ (f.kind c).spelling (texts f name parts)
  | node c .spelled parts => (f.kind c).spelling (texts f name parts)
  termination_by structural s => s

/-- The texts of several sketches. -/
def texts (f : Forest) (name : TermId → String) : List Sketch → List String
  | [] => []
  | s :: rest => text f name s :: texts f name rest
  termination_by structural ss => ss

end

mutual

/-- All places of a sketch in the order of their texts: which class stands there and how it is
written. -/
def places : Sketch → List (TermId × Form)
  | node c form parts => (c, form) :: placesEach parts
  termination_by structural s => s

/-- The places of several sketches. -/
def placesEach : List Sketch → List (TermId × Form)
  | [] => []
  | s :: rest => places s ++ placesEach rest
  termination_by structural ss => ss

end

mutual

/-- The sketch shows a term: its class stands on top, above sketches of its children unless it is
written by its name alone. -/
def Depicts (f : Forest) : Sketch → TermId → Prop
  | node c form parts, t => f.rep t = c ∧
      if form = .named then parts = [] else DepictsEach f parts (f.kind c).children
  termination_by structural s => s

/-- The sketches show the terms one by one. -/
def DepictsEach (f : Forest) : List Sketch → List TermId → Prop
  | [], [] => True
  | s :: rest, t :: ts => Depicts f s t ∧ DepictsEach f rest ts
  | _, _ => False
  termination_by structural ss => ss

end

end Sketch

/-- The classes that the walk from a term meets, as often as it meets them: its own class, and those of
the children of each class that it enters. -/
def Forest.meetings (f : Forest) (t : TermId) : List TermId :=
  f.rep t :: (f.reach t).flatMap fun c => (f.kind c).children.map f.rep

/-- A sketch shows how a term is written: every class stands where the walk from the term meets it.  A
class that consists of others and is met more than once is introduced in one place and named alone in all
the others, and no two classes have one name. -/
structure Sketch.Shows (f : Forest) (t : TermId) (name : TermId → String) (s : Sketch) : Prop where
  depicts : s.Depicts f t
  met : ∀ c, (s.places.map Prod.fst).count c = (f.meetings t).count c
  shared : ∀ c, (f.kind c).isCompound = true → 2 ≤ (f.meetings t).count c →
    s.places.count (c, .introduced) = 1 ∧ s.places.count (c, .spelled) = 0 ∧
      s.places.count (c, .named) + 1 = (f.meetings t).count c
  unshared : ∀ c, (f.kind c).isCompound = true → (f.meetings t).count c ≤ 1 →
    ∀ form, (c, form) ∈ s.places → form = .spelled
  plain : ∀ c, (f.kind c).isCompound = false → ∀ form, (c, form) ∈ s.places →
    form = if (f.kind c).shape = .var then .named else .spelled
  distinct : ∀ c d form form', (c, form) ∈ s.places → (d, form') ∈ s.places → form ≠ .spelled →
    form' ≠ .spelled → name c = name d → c = d

namespace Forest

variable {f : Forest}

open Sketch (placesEach)

/-! ## Names -/

private theorem letter_injective {a b : Nat} (ha : a < 26) (hb : b < 26)
    (h : Char.ofNat ('A'.toNat + a) = Char.ofNat ('A'.toNat + b)) : a = b := by
  have hvalid : ∀ n < 26, (Char.ofNat ('A'.toNat + n)).toNat = 'A'.toNat + n := by decide
  have := congrArg Char.toNat h
  rw [hvalid a ha, hvalid b hb] at this
  exact Nat.add_left_cancel this

/-- No two numbers have one name: the letter tells the number up to 26, the count tells the rest. -/
theorem typeName_injective : Function.Injective typeName := by
  have hrest : ∀ n : Nat, decimalValue (if n = 0 then "" else toString n).toList = n := by
    intro n
    split
    · rename_i hn
      rw [hn]
      rfl
    · change decimalValue (Nat.repr n).toList = n
      simp [Nat.repr]
  intro i j h
  have h := congrArg String.toList h
  simp only [typeName, String.toList_append, Char.toString, String.toList_singleton,
    List.cons_append, List.nil_append, List.cons.injEq] at h
  obtain ⟨hletter, hcount⟩ := h
  have hmod := letter_injective (Nat.mod_lt i (by decide)) (Nat.mod_lt j (by decide)) hletter
  have hdiv := congrArg decimalValue hcount
  rw [hrest, hrest] at hdiv
  rw [← Nat.div_add_mod i 26, ← Nat.div_add_mod j 26, hdiv, hmod]

/-! ## The walk that draws sketches -/

/-- How a class is written in the first place where it is met, or in another, given those that are
shared between places. -/
def form (f : Forest) (shared : List TermId) (first : Bool) (c : TermId) : Form :=
  match f.kind c with
  | .var | .link _ => .named
  | .base _ | .error _ => .spelled
  | _ => if first then if c ∈ shared then .introduced else .spelled else .named

/-- A walk through the terms one by one draws their sketches.  It comes with the classes met before, the
last one first, and leaves with those and its own.  A class that was met is not entered again. -/
inductive Draws (f : Forest) (shared : List TermId) :
    List TermId → List TermId → List Sketch → List TermId → Prop
  | nil {seen : List TermId} : Draws f shared [] seen [] seen
  | again {t : TermId} {rest seen found : List TermId} {ss : List Sketch} (hmet : f.rep t ∈ seen)
    (hrest : Draws f shared rest seen ss found) :
    Draws f shared (t :: rest) seen (.node (f.rep t) (f.form shared false (f.rep t)) [] :: ss) found
  | enter {t : TermId} {rest seen found found' : List TermId} {parts ss : List Sketch}
    (hnew : f.rep t ∉ seen)
    (hparts : Draws f shared (f.kind (f.rep t)).children (f.rep t :: seen) parts found)
    (hrest : Draws f shared rest found ss found') :
    Draws f shared (t :: rest) seen (.node (f.rep t) (f.form shared true (f.rep t)) parts :: ss) found'

section Walk

variable {shared ts seen found : List TermId} {ss : List Sketch}

private theorem form_of_isCompound {c : TermId} (hc : (f.kind c).isCompound = true) (first : Bool) :
    f.form shared first c =
      if first then if c ∈ shared then .introduced else .spelled else .named := by
  unfold form
  cases hk : f.kind c with
  | nilable _ | function _ _ _ _ | record _ _ _ _ => rfl
  | _ =>
    rw [hk] at hc
    cases hc

private theorem form_again {c : TermId} (hc : (f.kind c).isCompound = true) :
    f.form shared false c = .named := form_of_isCompound hc false

private theorem form_first {c : TermId} (hc : (f.kind c).isCompound = true) :
    f.form shared true c = if c ∈ shared then .introduced else .spelled :=
  form_of_isCompound hc true

private theorem form_first_ne {c : TermId} (hc : (f.kind c).isCompound = true) :
    f.form shared true c ≠ .named := by
  rw [form_first hc]
  split <;> exact Form.noConfusion

private theorem form_of_not_isCompound {c : TermId} (hc : (f.kind c).isCompound = false) (first : Bool) :
    f.form shared first c = if (f.kind c).shape = .var then .named else .spelled := by
  unfold form
  cases hk : f.kind c with
  | var | link _ | base _ | error _ => rfl
  | _ =>
    rw [hk] at hc
    cases hc

/-- Nothing stands below a class that is named where it is met first. -/
theorem children_of_named {c : TermId} (hroot : (f.kind c).isLink = false)
    (h : f.form shared true c = .named) : (f.kind c).children = [] := by
  unfold form at h
  cases hk : f.kind c with
  | var => rfl
  | link target =>
    rw [hk] at hroot
    cases hroot
  | base _ | error _ =>
    rw [hk] at h
    cases h
  | nilable _ | function _ _ _ _ | record _ _ _ _ =>
    refine absurd h (form_first_ne ?_)
    rw [hk]
    rfl

private theorem placesEach_nil : placesEach [] = [] := rfl

private theorem placesEach_node {c : TermId} {form : Form} {parts : List Sketch} :
    placesEach (.node c form parts :: ss) = (c, form) :: (placesEach parts ++ placesEach ss) := rfl

/-- A class is entered only as long as there are others left than those met. -/
theorem card_unseen_enter {fuel : Nat} {r : TermId} (hfuel : (f.unseen seen).card < fuel + 1)
    (hnew : r ∉ seen) (hchildren : (f.kind r).children ≠ []) :
    (f.unseen (r :: seen)).card < fuel := by
  have hlt : r < f.size := by
    by_contra hge
    rw [kind_of_size_le (Nat.le_of_not_lt hge)] at hchildren
    exact hchildren rfl
  have := card_unseen_cons hlt hnew
  omega

private theorem Draws.eq_nil (h : f.Draws shared [] seen ss found) : ss = [] ∧ found = seen := by
  cases h
  exact ⟨rfl, rfl⟩

private theorem Draws.eq_singleton {t : TermId} (h : f.Draws shared [t] seen ss found) : ∃ s, ss = [s] := by
  cases h with
  | again _ hrest | enter _ _ hrest =>
    obtain ⟨rfl, -⟩ := hrest.eq_nil
    exact ⟨_, rfl⟩

private theorem Draws.kept (h : f.Draws shared ts seen ss found) : seen <:+ found := by
  induction h with
  | nil => exact List.suffix_refl _
  | again _ _ ih => exact ih
  | enter _ _ _ ihparts ihrest => exact ((List.suffix_cons _ _).trans ihparts).trans ihrest

/-- Every walk comes to its end, since no class is entered twice. -/
theorem exists_draws (shared : List TermId) (fuel : Nat) {ts seen : List TermId}
    (hfuel : ts ≠ [] → (f.unseen seen).card < fuel) :
    ∃ ss found, f.Draws shared ts seen ss found := by
  induction fuel generalizing ts seen with
  | zero =>
    cases ts with
    | nil => exact ⟨_, _, .nil⟩
    | cons t rest => exact absurd (hfuel (List.cons_ne_nil _ _)) (Nat.not_lt_zero _)
  | succ fuel ih =>
    induction ts generalizing seen with
    | nil => exact ⟨_, _, .nil⟩
    | cons t rest ihrest =>
      have hfuel := hfuel (List.cons_ne_nil _ _)
      by_cases hmet : f.rep t ∈ seen
      · obtain ⟨ss, found, hrest⟩ := ihrest fun _ => hfuel
        exact ⟨_, _, .again hmet hrest⟩
      · obtain ⟨parts, found, hparts⟩ := ih (card_unseen_enter hfuel hmet)
        have hsub : seen ⊆ found := fun c hc => hparts.kept.subset (List.mem_cons_of_mem _ hc)
        obtain ⟨ss, found', hrest⟩ :=
          ihrest fun _ => Nat.lt_of_le_of_lt (card_unseen_le hsub) hfuel
        exact ⟨_, _, .enter hmet hparts hrest⟩

private theorem Draws.nodup (h : f.Draws shared ts seen ss found) (hseen : seen.Nodup) : found.Nodup := by
  induction h with
  | nil => exact hseen
  | again _ _ ih => exact ih hseen
  | enter hnew _ _ ihparts ihrest => exact ihrest (ihparts (List.nodup_cons.2 ⟨hnew, hseen⟩))

/-- Nothing is left out below a class that is entered, unless it has no children. -/
theorem Draws.depicts (hf : f.Rooted) (h : f.Draws shared ts seen ss found) :
    Sketch.DepictsEach f ss ts := by
  induction h with
  | nil => trivial
  | @again t rest _ _ ss hmet hrest ih =>
    refine ⟨⟨rfl, ?_⟩, ih⟩
    have hroot := not_isLink_rep hf t
    unfold form
    cases hk : f.kind (f.rep t) with
    | link target =>
      rw [hk] at hroot
      cases hroot
    | _ => first | rfl | exact trivial
  | @enter t rest seen found _ parts ss hnew hparts hrest ihparts ihrest =>
    refine ⟨⟨rfl, ?_⟩, ihrest⟩
    split
    · rename_i hnamed
      rw [children_of_named (not_isLink_rep hf t) hnamed] at hparts
      exact hparts.eq_nil.1
    · exact ihparts

/-- The class in every place was met, and is written as in a first place or as in another. -/
theorem Draws.places (h : f.Draws shared ts seen ss found) {c : TermId} {form : Form}
    (hp : (c, form) ∈ placesEach ss) : c ∈ found ∧ ∃ first, form = f.form shared first c := by
  induction h with
  | nil => cases hp
  | again hmet hrest ih =>
    rcases List.mem_cons.1 hp with e | hp
    · obtain ⟨rfl, rfl⟩ := Prod.mk.inj e
      exact ⟨hrest.kept.subset hmet, false, rfl⟩
    · exact ih hp
  | enter hnew hparts hrest ihparts ihrest =>
    rw [placesEach_node, List.mem_cons, List.mem_append] at hp
    rcases hp with e | hp | hp
    · obtain ⟨rfl, rfl⟩ := Prod.mk.inj e
      exact ⟨hrest.kept.subset (hparts.kept.subset List.mem_cons_self), true, rfl⟩
    · obtain ⟨hmem, hform⟩ := ihparts hp
      exact ⟨hrest.kept.subset hmem, hform⟩
    · exact ihrest hp

/-- A class stands in as many places as it is met in: one for every term, and one for every child of a
class that is entered. -/
theorem Draws.count_places (h : f.Draws shared ts seen ss found) (c : TermId) :
    ((placesEach ss).map Prod.fst).count c
        + (seen.flatMap fun c => (f.kind c).children.map f.rep).count c
      = (ts.map f.rep).count c
        + (found.flatMap fun c => (f.kind c).children.map f.rep).count c := by
  induction h with
  | nil => rfl
  | again hmet hrest ih =>
    simp only [placesEach_node, placesEach_nil, List.nil_append, List.map_cons,
      List.count_cons] at ih ⊢
    omega
  | enter hnew hparts hrest ihparts ihrest =>
    simp only [placesEach_node, List.map_append, List.map_cons, List.count_cons, List.count_append,
      List.flatMap_cons] at ihparts ihrest ⊢
    omega

/-- A class is in one first place if it is entered, and in none if it is not. -/
theorem Draws.count_first (h : f.Draws shared ts seen ss found) {c : TermId}
    (hc : (f.kind c).isCompound = true) :
    seen.count c + (placesEach ss).count (c, f.form shared true c) = found.count c := by
  induction h with
  | nil => rfl
  | @again t _ _ _ ss hmet hrest ih =>
    have hne : (f.rep t, f.form shared false (f.rep t)) ≠ (c, f.form shared true c) := by
      intro e
      obtain ⟨rfl, hform⟩ := Prod.mk.inj e
      rw [form_again hc] at hform
      exact form_first_ne hc hform.symm
    rw [placesEach_node, List.count_cons_of_ne hne]
    exact ih
  | @enter t _ _ _ _ parts ss hnew hparts hrest ihparts ihrest =>
    have hiff : (f.rep t, f.form shared true (f.rep t)) = (c, f.form shared true c) ↔ f.rep t = c := by
      constructor
      · exact fun e => (Prod.mk.inj e).1
      · rintro rfl
        rfl
    simp only [placesEach_node, List.count_cons, List.count_append, beq_iff_eq, hiff] at ihparts ⊢
    omega

/-- A class that was met is noted as met again. -/
theorem meetFrom_of_mem (fuel : Nat) {t : TermId} {m : Meetings} (h : f.rep t ∈ m.once) :
    (f.meetFrom (fuel + 1) t m).once = m.once ∧
      ∀ c, c ∈ (f.meetFrom (fuel + 1) t m).again ↔ c ∈ m.again ∨ c = f.rep t := by
  rw [meetFrom, if_pos (List.contains_iff_mem.2 h)]
  refine ⟨rfl, fun c => ?_⟩
  dsimp only
  split
  · rename_i hmem
    rw [List.contains_iff_mem] at hmem
    exact ⟨Or.inl, fun h => h.elim id fun e => e ▸ hmem⟩
  · rw [List.mem_cons, or_comm]

private theorem meetFrom_of_not_mem {fuel : Nat} {t : TermId} {m : Meetings} (h : f.rep t ∉ m.once) :
    f.meetFrom (fuel + 1) t m = (f.kind (f.rep t)).children.foldl (fun m t => f.meetFrom fuel t m)
      ⟨f.rep t :: m.once, m.again⟩ := by
  rw [meetFrom, if_neg fun hmet => h (List.contains_iff_mem.1 hmet)]

/-- The first walk enters the classes in the same order, and of those that consist of others it meets
again what is named where it is not introduced. -/
theorem Draws.meets (h : f.Draws shared ts seen ss found) {fuel : Nat}
    (hfuel : ts ≠ [] → (f.unseen seen).card < fuel) {m : Meetings} (hm : m.once = seen) :
    (ts.foldl (fun m t => f.meetFrom fuel t m) m).once = found ∧
      ∀ c, (f.kind c).isCompound = true →
        (c ∈ (ts.foldl (fun m t => f.meetFrom fuel t m) m).again ↔
          c ∈ m.again ∨ (c, .named) ∈ placesEach ss) := by
  induction h generalizing fuel m with
  | nil => exact ⟨hm, fun c _ => by simp [placesEach_nil]⟩
  | @again t rest seen found ss hmet hrest ih =>
    subst hm
    have hfuel := hfuel (List.cons_ne_nil _ _)
    cases fuel with
    | zero => exact absurd hfuel (Nat.not_lt_zero _)
    | succ fuel =>
      obtain ⟨hsame, hnoted⟩ := meetFrom_of_mem fuel hmet
      obtain ⟨honce, hagain⟩ := ih (fun _ => hfuel) hsame
      refine ⟨honce, fun c hc => ?_⟩
      have hiff : c = f.rep t ↔ (c, Form.named) = (f.rep t, f.form shared false (f.rep t)) := by
        constructor
        · rintro rfl
          rw [form_again hc]
        · exact fun e => (Prod.mk.inj e).1
      rw [List.foldl_cons, hagain c hc, hnoted, placesEach_node, placesEach_nil, List.nil_append,
        List.mem_cons, or_assoc, hiff]
  | @enter t rest seen found found' parts ss hnew hparts hrest ihparts ihrest =>
    subst hm
    have hfuel := hfuel (List.cons_ne_nil _ _)
    cases fuel with
    | zero => exact absurd hfuel (Nat.not_lt_zero _)
    | succ fuel =>
      have hsub : m.once ⊆ found := fun c hc => hparts.kept.subset (List.mem_cons_of_mem _ hc)
      obtain ⟨honce, hagain⟩ :=
        ihparts (m := ⟨f.rep t :: m.once, m.again⟩) (card_unseen_enter hfuel hnew) rfl
      obtain ⟨honce', hagain'⟩ :=
        ihrest (fun _ => Nat.lt_of_le_of_lt (card_unseen_le hsub) hfuel) honce
      rw [List.foldl_cons, meetFrom_of_not_mem hnew]
      refine ⟨honce', fun c hc => ?_⟩
      have hne : (c, Form.named) ≠ (f.rep t, f.form shared true (f.rep t)) := by
        intro e
        obtain ⟨rfl, hform⟩ := Prod.mk.inj e
        exact form_first_ne hc hform.symm
      rw [hagain' c hc, hagain c hc, placesEach_node, List.mem_cons, List.mem_append, or_assoc,
        or_iff_right hne]

/-! ## Writing -/

/-- What the second walk has named and introduced after it met these classes. -/
def naming (f : Forest) (shared seen : List TermId) : Naming :=
  ⟨seen.reverse.filter fun c => f.form shared true c ≠ .spelled,
    seen.filter fun c => f.form shared true c = .introduced⟩

/-- The name of a class after the walk met these classes. -/
def nameIn (f : Forest) (shared seen : List TermId) (c : TermId) : String :=
  typeName ((f.naming shared seen).named.idxOf c)

private theorem mem_named {c : TermId} (hc : f.form shared true c ≠ .spelled) :
    c ∈ (f.naming shared seen).named ↔ c ∈ seen := by
  simp [naming, hc]

private theorem mem_introduced {c : TermId} (hc : f.form shared true c = .introduced) :
    c ∈ (f.naming shared seen).introduced ↔ c ∈ seen := by
  simp [naming, hc]

/-- A class keeps its name. -/
theorem nameIn_of_suffix {last : List TermId} (h : seen <:+ last) {c : TermId} (hmem : c ∈ seen)
    (hc : f.form shared true c ≠ .spelled) : f.nameIn shared last c = f.nameIn shared seen c := by
  obtain ⟨later, rfl⟩ := h
  have hnamed : (f.naming shared (later ++ seen)).named =
      (f.naming shared seen).named ++ (f.naming shared later).named := by
    simp [naming]
  rw [nameIn, hnamed, List.idxOf_append_of_mem ((mem_named hc).2 hmem), nameIn]

/-- Naming a class that is met adds it to those named if it is met first. -/
theorem nameOf_eq {c : TermId} (hc : f.form shared true c ≠ .spelled) {s : Naming}
    (hs : s.named = (f.naming shared seen).named) :
    nameOf c s = some (f.nameIn shared (seen.insert c) c,
      { s with named := (f.naming shared (seen.insert c)).named }) := by
  have hrun : nameOf c s = some (typeName (s.named.idxOf c),
    if s.named.idxOf c < s.named.length then s else { s with named := s.named ++ [c] }) := rfl
  rw [hrun, hs]
  by_cases hmem : c ∈ seen
  · rw [List.insert_of_mem hmem, if_pos (List.idxOf_lt_length_of_mem ((mem_named hc).2 hmem)), nameIn,
      ← hs]
  · have hnot : c ∉ (f.naming shared seen).named := fun h => hmem ((mem_named hc).1 h)
    have hnamed : (f.naming shared (c :: seen)).named = (f.naming shared seen).named ++ [c] := by
      simp [naming, hc]
    rw [List.insert_of_not_mem hmem, if_neg (by simp [List.idxOf_of_notMem hnot]), hnamed, nameIn,
      hnamed, List.idxOf_append_of_notMem hnot, List.idxOf_of_notMem hnot]
    simp

private theorem renderEach_cons {write : TermId → WriteM String} {t : TermId} {rest : List TermId}
    {s s₁ s₂ : Naming} {text : String} {texts : List String} (ht : write t s = some (text, s₁))
    (hrest : renderEach write rest s₁ = some (texts, s₂)) :
    renderEach write (t :: rest) s = some (text :: texts, s₂) := by
  rw [renderEach, bind_of_eq ht, bind_of_eq hrest]
  rfl

private theorem write_of_renderEach {write : TermId → WriteM String} {t : TermId} {s s' : Naming}
    {text : String} (h : renderEach write [t] s = some ([text], s')) :
    write t s = some (text, s') := by
  obtain ⟨text', s₁, ht, h⟩ := bind_eq_some.1 h
  obtain ⟨texts, s₂, hnil, h⟩ := bind_eq_some.1 h
  obtain ⟨rfl, rfl⟩ := pure_eq_some.1 hnil
  obtain ⟨htext, rfl⟩ := pure_eq_some.1 h
  rw [ht, (List.cons.inj htext).1]

private theorem renderEach_append (write : TermId → WriteM String) (ts us : List TermId) :
    renderEach write (ts ++ us) = (do
      let texts ← renderEach write ts
      let more ← renderEach write us
      return texts ++ more) := by
  induction ts with
  | nil => simp [renderEach]
  | cons t ts ih => simp [renderEach, ih]

/-- What a type consists of is written by writing the children in turn. -/
theorem renderBody_eq (write : TermId → WriteM String) {k : Kind} (hk : k.isCompound = true) :
    renderBody write k = (do
      let parts ← renderEach write k.children
      return k.spelling parts) := by
  cases k with
  | nilable inner => simp [renderBody, renderEach, Kind.children, Kind.spelling]
  | function args ret fids nil =>
    simp [renderBody, Kind.children, Kind.spelling, renderEach_append, renderEach]
  | record fields sites isOpen nil =>
    simp only [renderBody, Kind.children, Kind.spelling]
    split
    · rfl
    · cases isOpen <;> simp
  | _ => cases hk

private theorem renderFrom_of_isCompound (fuel : Nat) {t : TermId}
    (hc : (f.kind (f.rep t)).isCompound = true) : f.renderFrom shared (fuel + 1) t =
      if shared.contains (f.rep t) then do
        let name ← nameOf (f.rep t)
        if (← get).introduced.contains (f.rep t) then return name
        modify fun s => { s with introduced := f.rep t :: s.introduced }
        return name ++ ":" ++ (← renderBody (f.renderFrom shared fuel) (f.kind (f.rep t)))
      else renderBody (f.renderFrom shared fuel) (f.kind (f.rep t)) := by
  rw [renderFrom]
  cases hk : f.kind (f.rep t) with
  | nilable _ | function _ _ _ _ | record _ _ _ _ => rfl
  | _ =>
    rw [hk] at hc
    cases hc

/-- A type is written in the way that its class is written where it is met first. -/
theorem renderFrom_eq (fuel : Nat) (t : TermId) :
    f.renderFrom shared (fuel + 1) t =
      match f.form shared true (f.rep t) with
      | .named => nameOf (f.rep t)
      | .introduced => do
        let name ← nameOf (f.rep t)
        if (← get).introduced.contains (f.rep t) then return name
        modify fun s => { s with introduced := f.rep t :: s.introduced }
        let parts ← renderEach (f.renderFrom shared fuel) (f.kind (f.rep t)).children
        return name ++ ":" ++ (f.kind (f.rep t)).spelling parts
      | .spelled => do
        let parts ← renderEach (f.renderFrom shared fuel) (f.kind (f.rep t)).children
        return (f.kind (f.rep t)).spelling parts := by
  by_cases hc : (f.kind (f.rep t)).isCompound = true
  · rw [renderFrom_of_isCompound fuel hc, renderBody_eq _ hc, form_first hc]
    by_cases hmem : f.rep t ∈ shared <;> simp [hmem]
  · rw [renderFrom, form]
    cases hk : f.kind (f.rep t) with
    | var | link _ | base _ | error _ => rfl
    | _ =>
      rw [hk] at hc
      exact absurd rfl hc

/-- A class that was met is written as in another place than the first, if it is known to be shared. -/
theorem renderFrom_again (fuel : Nat) {t : TermId} {last : List TermId} (hmet : f.rep t ∈ seen)
    (hshared : (f.kind (f.rep t)).isCompound = true → f.rep t ∈ shared) (hlast : seen <:+ last) :
    f.renderFrom shared (fuel + 1) t (f.naming shared seen) =
      some (Sketch.text f (f.nameIn shared last) (.node (f.rep t) (f.form shared false (f.rep t)) []),
        f.naming shared seen) := by
  have hname : f.form shared true (f.rep t) ≠ .spelled →
      nameOf (f.rep t) (f.naming shared seen) =
        some (f.nameIn shared last (f.rep t), f.naming shared seen) := by
    intro hform
    rw [nameOf_eq hform rfl, List.insert_of_mem hmet, nameIn_of_suffix hlast hmet hform]
  rw [renderFrom_eq]
  by_cases hc : (f.kind (f.rep t)).isCompound = true
  · have hform : f.form shared true (f.rep t) = .introduced := by
      rw [form_first hc, if_pos (hshared hc)]
    rw [form_again hc, hform]
    dsimp only
    rw [bind_of_eq (hname (by simp [hform])), bind_of_eq (get_eq_some.2 ⟨rfl, rfl⟩),
      if_pos (List.contains_iff_mem.2 ((mem_introduced hform).2 hmet))]
    rfl
  · cases hk : f.kind (f.rep t) with
    | var | link _ =>
      have hform (first : Bool) : f.form shared first (f.rep t) = .named := by rw [form, hk]
      rw [hform, hform]
      exact hname (by simp [hform])
    | base _ | error _ =>
      have hform (first : Bool) : f.form shared first (f.rep t) = .spelled := by rw [form, hk]
      rw [hform, hform, Sketch.text, hk]
      rfl
    | _ =>
      rw [hk] at hc
      exact absurd rfl hc

/-- A class that is met first is written as in its first place, above its children. -/
theorem renderFrom_enter (hf : f.Rooted) {fuel : Nat} {t : TermId} {parts : List Sketch}
    {last : List TermId} (hnew : f.rep t ∉ seen)
    (hparts : f.Draws shared (f.kind (f.rep t)).children (f.rep t :: seen) parts found)
    (hwrites : renderEach (f.renderFrom shared fuel) (f.kind (f.rep t)).children
      (f.naming shared (f.rep t :: seen)) =
        some (Sketch.texts f (f.nameIn shared last) parts, f.naming shared found))
    (hlast : found <:+ last) :
    f.renderFrom shared (fuel + 1) t (f.naming shared seen) =
      some (Sketch.text f (f.nameIn shared last)
        (.node (f.rep t) (f.form shared true (f.rep t)) parts), f.naming shared found) := by
  have hname : f.form shared true (f.rep t) ≠ .spelled →
      nameOf (f.rep t) (f.naming shared seen) = some (f.nameIn shared last (f.rep t),
        { f.naming shared seen with named := (f.naming shared (f.rep t :: seen)).named }) := by
    intro hform
    rw [nameOf_eq hform rfl, List.insert_of_not_mem hnew,
      nameIn_of_suffix (hparts.kept.trans hlast) List.mem_cons_self hform]
  rw [renderFrom_eq]
  cases hform : f.form shared true (f.rep t) with
  | named =>
    rw [children_of_named (not_isLink_rep hf t) hform] at hparts
    obtain ⟨rfl, rfl⟩ := hparts.eq_nil
    dsimp only
    rw [hname (by simp [hform])]
    simp [naming, hform, Sketch.text]
  | introduced =>
    dsimp only
    have hentered : { f.naming shared seen with
        named := (f.naming shared (f.rep t :: seen)).named
        introduced := f.rep t :: (f.naming shared seen).introduced } =
          f.naming shared (f.rep t :: seen) := by
      simp [naming, hform]
    rw [bind_of_eq (hname (by simp [hform])), bind_of_eq (get_eq_some.2 ⟨rfl, rfl⟩), if_neg
      fun h => hnew ((mem_introduced hform).1 (List.contains_iff_mem.1 h)),
      bind_of_eq (modify_eq_some.2 hentered), bind_of_eq hwrites]
    rfl
  | spelled =>
    have hsame : f.naming shared (f.rep t :: seen) = f.naming shared seen := by
      simp [naming, hform]
    rw [hsame] at hwrites
    dsimp only
    rw [bind_of_eq hwrites]
    rfl

/-- The second walk writes the text of the sketch, if it knows all classes that the sketch names where
they are not introduced. -/
theorem Draws.writes (hf : f.Rooted) (h : f.Draws shared ts seen ss found) {fuel : Nat}
    (hfuel : ts ≠ [] → (f.unseen seen).card < fuel)
    (hshared : ∀ c, (f.kind c).isCompound = true → (c, .named) ∈ placesEach ss → c ∈ shared)
    {last : List TermId} (hlast : found <:+ last) :
    renderEach (f.renderFrom shared fuel) ts (f.naming shared seen) =
      some (Sketch.texts f (f.nameIn shared last) ss, f.naming shared found) := by
  induction h generalizing fuel with
  | nil => rfl
  | @again t rest seen found ss hmet hrest ih =>
    have hfuel := hfuel (List.cons_ne_nil _ _)
    cases fuel with
    | zero => exact absurd hfuel (Nat.not_lt_zero _)
    | succ fuel =>
      have hwrites := ih (fun _ => hfuel)
        (fun c hc hmem => hshared c hc (List.mem_cons_of_mem _ hmem)) hlast
      refine renderEach_cons (renderFrom_again fuel hmet (fun hc => ?_) (hrest.kept.trans hlast))
        hwrites
      refine hshared _ hc ?_
      rw [placesEach_node, form_again hc]
      exact List.mem_cons_self
  | @enter t rest seen found found' parts ss hnew hparts hrest ihparts ihrest =>
    have hfuel := hfuel (List.cons_ne_nil _ _)
    cases fuel with
    | zero => exact absurd hfuel (Nat.not_lt_zero _)
    | succ fuel =>
      have hsub : seen ⊆ found := fun c hc => hparts.kept.subset (List.mem_cons_of_mem _ hc)
      have hwritesParts := ihparts (card_unseen_enter hfuel hnew) (fun c hc hmem => hshared c hc
        (List.mem_cons_of_mem _ (List.mem_append_left _ hmem))) (hrest.kept.trans hlast)
      have hwritesRest := ihrest (fun _ => Nat.lt_of_le_of_lt (card_unseen_le hsub) hfuel)
        (fun c hc hmem => hshared c hc (List.mem_cons_of_mem _ (List.mem_append_right _ hmem)))
        hlast
      exact renderEach_cons
        (renderFrom_enter hf hnew hparts hwritesParts (hrest.kept.trans hlast)) hwritesRest

end Walk

/-! ## Written types -/

private theorem once_meetFrom (f : Forest) (fuel : Nat) (t : TermId) (m : Meetings) :
    (f.meetFrom fuel t m).once = f.reachFrom Kind.children fuel t m.once := by
  induction fuel generalizing t m with
  | zero => rfl
  | succ fuel ih =>
    rw [meetFrom, reachFrom]
    split
    · rfl
    · exact (List.foldl_hom Meetings.once fun m t => (ih t m).symm).symm

/-- Every type has a sketch, which names a class that consists of others where it is not introduced
exactly if the first walk finds it shared. -/
theorem exists_sketch (f : Forest) (t : TermId) : ∃ s found,
    f.Draws (f.shared t) [t] [] [s] found ∧ f.reach t = found.reverse ∧
      ∀ c, (f.kind c).isCompound = true → (c ∈ f.shared t ↔ (c, .named) ∈ placesEach [s]) := by
  have hfuel : [t] ≠ [] → (f.unseen []).card < f.size + 1 := fun _ => card_unseen_nil f
  obtain ⟨ss, found, hdraws⟩ := exists_draws (f.shared t) (f.size + 1) hfuel
  obtain ⟨s, rfl⟩ := hdraws.eq_singleton
  obtain ⟨honce, hagain⟩ := hdraws.meets (m := ⟨[], []⟩) hfuel rfl
  refine ⟨s, found, hdraws, ?_, fun c hc => (hagain c hc).trans (or_iff_right List.not_mem_nil)⟩
  rw [reach, reachBy, ← honce]
  exact congrArg List.reverse (once_meetFrom f (f.size + 1) t ⟨[], []⟩).symm

/-- A class is written in one of three ways in each of its places. -/
theorem count_fst (ps : List (TermId × Form)) (c : TermId) :
    (ps.map Prod.fst).count c =
      ps.count (c, .named) + ps.count (c, .introduced) + ps.count (c, .spelled) := by
  induction ps with
  | nil => rfl
  | cons p ps ih =>
    obtain ⟨d, form⟩ := p
    simp only [List.map_cons, List.count_cons, ih]
    cases form <;> by_cases hd : d = c <;> simp [hd] <;> omega

section Sketched

variable {t : TermId} {shared found : List TermId} {s : Sketch}

private theorem placesEach_singleton : placesEach [s] = s.places := List.append_nil _

/-- A class stands in as many places of the sketch as the walk meets it. -/
theorem Draws.count_meetings (h : f.Draws shared [t] [] [s] found)
    (hreach : f.reach t = found.reverse) (c : TermId) :
    (s.places.map Prod.fst).count c = (f.meetings t).count c := by
  have hcount := h.count_places c
  have hperm := (List.reverse_perm found).flatMap_right fun c => (f.kind c).children.map f.rep
  simp only [placesEach_singleton, List.flatMap_nil, List.map_cons, List.map_nil, List.count_cons,
    List.count_nil] at hcount
  rw [meetings, hreach, List.count_cons, hperm.count_eq]
  omega

/-- A class that consists of others is introduced in one place if it is shared, and is in no more than
one place if it is not. -/
theorem Draws.count_forms (h : f.Draws shared [t] [] [s] found) {c : TermId}
    (hc : (f.kind c).isCompound = true) (hshared : c ∈ shared ↔ (c, .named) ∈ placesEach [s]) :
    c ∈ shared ∧ s.places.count (c, .introduced) = 1 ∧ s.places.count (c, .spelled) = 0 ∧
        0 < s.places.count (c, .named) ∨
      c ∉ shared ∧ s.places.count (c, .introduced) = 0 ∧ s.places.count (c, .spelled) ≤ 1 ∧
        s.places.count (c, .named) = 0 := by
  have hfirst := h.count_first hc
  have hnodup := h.nodup List.nodup_nil
  have hnone (form : Form) (hne : form ≠ .named) (hother : form ≠ f.form shared true c) :
      s.places.count (c, form) = 0 := by
    refine List.count_eq_zero.2 fun hmem => ?_
    obtain ⟨-, first, hform⟩ := h.places (placesEach_singleton ▸ hmem)
    cases first with
    | false => exact hne (hform.trans (form_again hc))
    | true => exact hother hform
  rw [placesEach_singleton] at hshared
  rw [placesEach_singleton, List.count_nil, Nat.zero_add] at hfirst
  by_cases hmem : c ∈ shared
  · have hform : f.form shared true c = .introduced := by rw [form_first hc, if_pos hmem]
    have hnamed := hshared.1 hmem
    have hfound := (h.places (placesEach_singleton ▸ hnamed)).1
    rw [hform, List.count_eq_one_of_mem hnodup hfound] at hfirst
    exact Or.inl ⟨hmem, hfirst, hnone .spelled Form.noConfusion (by simp [hform]),
      List.count_pos_iff.2 hnamed⟩
  · have hform : f.form shared true c = .spelled := by rw [form_first hc, if_neg hmem]
    have hle := List.nodup_iff_count_le_one.1 hnodup c
    rw [hform] at hfirst
    exact Or.inr ⟨hmem, hnone .introduced Form.noConfusion (by simp [hform]), hfirst ▸ hle,
      List.count_eq_zero.2 fun h => hmem (hshared.2 h)⟩

/-- Of the classes that consist of others, the first walk finds those shared that it meets more than
once. -/
theorem mem_shared_iff {c : TermId} (hc : (f.kind c).isCompound = true) :
    c ∈ f.shared t ↔ 2 ≤ (f.meetings t).count c := by
  obtain ⟨s, found, hdraws, hreach, hshared⟩ := exists_sketch f t
  rw [← hdraws.count_meetings hreach, count_fst]
  rcases hdraws.count_forms hc (hshared c hc) with
    ⟨hmem, hintroduced, -, hnamed⟩ | ⟨hmem, hintroduced, hspelled, hnamed⟩
  · exact iff_of_true hmem (by omega)
  · exact iff_of_false hmem (by omega)

/-- A class that is not spelled in some place is not spelled where it is met first. -/
theorem Draws.first_ne_spelled (h : f.Draws shared [t] [] [s] found)
    (hshared : ∀ c, (f.kind c).isCompound = true → (c ∈ shared ↔ (c, .named) ∈ placesEach [s]))
    {c : TermId} {form : Form} (hp : (c, form) ∈ placesEach [s]) (hne : form ≠ .spelled) :
    f.form shared true c ≠ .spelled := by
  obtain ⟨-, first, rfl⟩ := h.places hp
  by_cases hc : (f.kind c).isCompound = true
  · cases first with
    | true => exact hne
    | false =>
      rw [form_again hc] at hp
      rw [form_first hc, if_pos ((hshared c hc).2 hp)]
      exact Form.noConfusion
  · rw [Bool.not_eq_true] at hc
    rwa [form_of_not_isCompound hc] at hne ⊢

/-- The sketch that the walk draws shows how the type is written. -/
theorem Draws.shows (hf : f.Rooted) (h : f.Draws (f.shared t) [t] [] [s] found)
    (hreach : f.reach t = found.reverse)
    (hshared : ∀ c, (f.kind c).isCompound = true →
      (c ∈ f.shared t ↔ (c, .named) ∈ placesEach [s])) :
    s.Shows f t (f.nameIn (f.shared t) found) where
  depicts := (h.depicts hf).1
  met := h.count_meetings hreach
  shared c hc htwice := by
    have htotal := count_fst s.places c
    rw [h.count_meetings hreach] at htotal
    rcases h.count_forms hc (hshared c hc) with ⟨-, hintroduced, hspelled, -⟩ | ⟨hmem, -⟩
    · exact ⟨hintroduced, hspelled, by omega⟩
    · exact absurd ((mem_shared_iff hc).2 htwice) hmem
  unshared c hc honce form hform := by
    have hpos : 0 < s.places.count (c, form) := List.count_pos_iff.2 hform
    rcases h.count_forms hc (hshared c hc) with ⟨hmem, -⟩ | ⟨-, hintroduced, -, hnamed⟩
    · have htwice := (mem_shared_iff hc).1 hmem
      omega
    · cases form with
      | spelled => rfl
      | named | introduced => omega
  plain c hc form hform := by
    obtain ⟨-, first, rfl⟩ := h.places (placesEach_singleton ▸ hform)
    exact form_of_not_isCompound hc first
  distinct c d form form' hp hp' hne hne' hname := by
    rw [← placesEach_singleton] at hp
    have hmem := (mem_named (h.first_ne_spelled hshared hp hne)).2 (h.places hp).1
    exact (List.idxOf_inj hmem).1 (typeName_injective hname)

end Sketched

/-- Every type has a written form, even if it runs in circles: the text of a sketch in which classes are
named in the order of a list, with letters first and then with letters and a count. -/
theorem render_sketched (hf : f.Rooted) (t : TermId) : ∃ (s : Sketch) (order : List TermId),
    f.render? t = some (s.text f fun c => typeName (order.idxOf c)) ∧
      s.Shows f t fun c => typeName (order.idxOf c) := by
  obtain ⟨s, found, hdraws, hreach, hshared⟩ := exists_sketch f t
  have hwrites := hdraws.writes hf (fun _ => card_unseen_nil f) (fun c hc => (hshared c hc).2)
    (List.suffix_refl found)
  refine ⟨s, (f.naming (f.shared t) found).named, ?_, hdraws.shows hf hreach hshared⟩
  have hrun := write_of_renderEach hwrites
  change (f.renderFrom (f.shared t) (f.size + 1) t (f.naming (f.shared t) [])).map Prod.fst = _
  rw [hrun]
  rfl

/-- A list whose one node is its own rest, and a function from it and a value that it holds to it. -/
def ringReader : Forest :=
  ⟨#[⟨.record (.ofList [("n", 2), ("v", 1)]) (.singleton 5) false false, .empty, false⟩,
    ⟨.var, .empty, false⟩, ⟨.link 0, .empty, false⟩, ⟨.function [2, 1] 0 .empty false, .empty, false⟩],
    1⟩

/-- The list, which is met three times, is introduced once and named twice. -/
theorem render_sketched_ring : ringReader.Rooted ∧ ∃ (s : Sketch) (name : TermId → String),
    s.text ringReader name = "\x7b A:@\x7b n = A; v = B \x7d B -> A \x7d" ∧
      s.Shows ringReader 3 name ∧ s.places.count (0, .introduced) = 1 ∧
      s.places.count (0, .named) = 2 := by
  have hrooted : ringReader.Rooted := rooted_of_earlier (by decide)
  obtain ⟨s, order, htext, hshows⟩ := render_sketched hrooted 3
  have hrender : ringReader.render? 3 = some "\x7b A:@\x7b n = A; v = B \x7d B -> A \x7d" := by
    decide +kernel
  have hmeetings : (ringReader.meetings 3).count 0 = 3 := by decide +kernel
  obtain ⟨hintroduced, -, hnamed⟩ := hshows.shared 0 rfl (by rw [hmeetings]; decide)
  rw [hmeetings] at hnamed
  exact ⟨hrooted, s, _, Option.some.inj (htext.symm.trans hrender), hshows, hintroduced,
    Nat.succ.inj hnamed⟩

end Forest

end TypeFlow
