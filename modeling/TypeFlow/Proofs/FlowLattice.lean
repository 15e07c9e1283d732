import Mathlib.Order.BoundedOrder.Basic
import Mathlib.Order.Lattice
import TypeFlow.Flow.Basic

/-!
# The semilattice of flows

`Flow.meet` makes the flows a semilattice between `any` and `bottom`, and `covers` is its order.

The flows of a class of values (numbers, texts, functions, records) only meet within their class.
Two classes meet in a `scalar`, and all that is left of both is whether they carry nil.  So each law
has one case for each class, where it follows from the parts, and one for a clash, where it follows
from `carriesNil_meet`.  Meeting `nil` is `orNil`, which meets pass on (`orNil_meet`).

Main results:

- `Flow.meet_comm`, `Flow.meet_assoc`, `Flow.meet_self`: the laws of the meet.
- `Flow.covers_iff_le`: the order of the semilattice is `covers`.
- `Flow.meet_semilattice`: all laws together.
-/

namespace TypeFlow

/-! ## Parts of flows -/

namespace IntFlow

@[simp, grind =] theorem const_meet_const (x y : Int64) : (const x).meet (const y) =
    if x = y then const x else if isBit x && isBit y then bool else int64 := rfl

@[simp, grind =] theorem const_meet_bool (x : Int64) :
    (const x).meet bool = if isBit x then bool else int64 := rfl

@[simp, grind =] theorem bool_meet_const (x : Int64) :
    bool.meet (const x) = if isBit x then bool else int64 := rfl

@[simp, grind =] theorem bool_meet_bool : bool.meet bool = bool := rfl

@[simp, grind =] theorem int64_meet (i : IntFlow) : int64.meet i = int64 := by
  cases i <;> rfl

@[simp, grind =] theorem meet_int64 (i : IntFlow) : i.meet int64 = int64 := by
  cases i <;> rfl

/-- Meets of integers do not depend on the order. -/
theorem meet_comm (a b : IntFlow) : a.meet b = b.meet a := by
  cases a <;> cases b <;> grind

/-- The meet of an integer flow with itself is that flow. -/
theorem meet_self (a : IntFlow) : a.meet a = a := by
  cases a <;> simp

private theorem meet_assoc (a b c : IntFlow) : (a.meet b).meet c = a.meet (b.meet c) := by
  cases a <;> cases b <;> cases c <;> grind

end IntFlow

namespace FloatFlow

/-- Meets of floats do not depend on the order. -/
theorem meet_comm (a b : FloatFlow) : a.meet b = b.meet a := by
  cases a <;> cases b <;> grind [meet]

/-- The meet of a float flow with itself is that flow. -/
theorem meet_self (a : FloatFlow) : a.meet a = a := by
  cases a <;> simp [meet]

private theorem meet_assoc (a b c : FloatFlow) : (a.meet b).meet c = a.meet (b.meet c) := by
  cases a <;> cases b <;> cases c <;> grind [meet]

end FloatFlow

namespace IdSet

/-- Unions do not depend on the order. -/
theorem union_comm (s t : IdSet) : s.union t = t.union s := by
  apply ext_mem
  intro x
  rw [mem_union, mem_union, or_comm]

private theorem union_assoc (s t u : IdSet) : (s.union t).union u = s.union (t.union u) := by
  apply ext_mem
  intro x
  simp only [mem_union, or_assoc]

@[simp] theorem union_self (s : IdSet) : s.union s = s := by
  apply ext_mem
  intro x
  rw [mem_union, or_self]

end IdSet

namespace Flow

/-! ## Induction over nested records -/

mutual

/-- A property holds of every flow if it passes from the fields of a record to the record. -/
theorem all_of {motive : Flow → Prop} (any : motive .any) (nil : motive .nil)
    (int : ∀ i, motive (.int i)) (float : ∀ x, motive (.float x))
    (text : ∀ c n, motive (.text c n)) (function : ∀ s n, motive (.function s n))
    (unlaid : ∀ s n, motive (.record s none n))
    (record : ∀ s f n, (∀ k v, f.find? k = some v → motive v) → motive (.record s (some f) n))
    (scalar : ∀ n, motive (.scalar n)) : ∀ a, motive a
  | .any => any
  | .nil => nil
  | .int i => int i
  | .float x => float x
  | .text c n => text c n
  | .function s n => function s n
  | .record s none n => unlaid s n
  | .record s (some f) n =>
    record s f n (all_of_fields any nil int float text function unlaid record scalar f)
  | .scalar n => scalar n
  termination_by structural a => a

/-- The same for the fields. -/
theorem all_of_fields {motive : Flow → Prop} (any : motive .any) (nil : motive .nil)
    (int : ∀ i, motive (.int i)) (float : ∀ x, motive (.float x))
    (text : ∀ c n, motive (.text c n)) (function : ∀ s n, motive (.function s n))
    (unlaid : ∀ s n, motive (.record s none n))
    (record : ∀ s f n, (∀ k v, f.find? k = some v → motive v) → motive (.record s (some f) n))
    (scalar : ∀ n, motive (.scalar n)) {bound : Option String} :
    ∀ (f : Fields Flow bound) k v, f.find? k = some v → motive v
  | .nil => fun k v h => by simp at h
  | .cons l _ w rest => fun k v h => by
    rw [Fields.find?_cons] at h
    split at h
    · cases h
      exact all_of any nil int float text function unlaid record scalar _
    · exact all_of_fields any nil int float text function unlaid record scalar rest k v h
  termination_by structural f => f

end

/-! ## Layouts -/

/-- A label of the meet is one of both, and has the meet of the two flows. -/
theorem find?_meetFields {bound bound' : Option String} (f : Fields Flow bound)
    (g : Fields Flow bound') (k : String) :
    (meetFields f g).find? k = (f.find? k).bind fun v => (g.find? k).map v.meet := by
  induction f with
  | nil => simp [meetFields]
  | cons l h v rest ih =>
    unfold meetFields
    split
    · rename_i w hw
      rw [Fields.find?_cons, Fields.find?_cons, ih]
      by_cases e : l = k
      · subst e
        simp [hw]
      · simp [e]
    · rename_i hw
      rw [Fields.find?_relax, Fields.find?_cons, ih]
      by_cases e : l = k
      · subst e
        simp [hw]
      · simp [e]

/-- The layout of the meet of two records. -/
def meetLayouts :
    Option (Fields Flow none) → Option (Fields Flow none) → Option (Fields Flow none)
  | some f, some g => some (meetFields f g)
  | _, _ => none

/-! ## Meets by constructor -/

@[simp] theorem carriesNil_any : any.carriesNil = false := rfl

@[simp] theorem carriesNil_nil : nil.carriesNil = true := rfl

@[simp] theorem carriesNil_int (i : IntFlow) : (int i).carriesNil = true := rfl

@[simp] theorem carriesNil_float (x : FloatFlow) : (float x).carriesNil = true := rfl

@[simp] theorem carriesNil_text (c : Option String) (n : Bool) : (text c n).carriesNil = n := rfl

@[simp] theorem carriesNil_function (s : IdSet) (n : Bool) : (function s n).carriesNil = n := rfl

@[simp] theorem carriesNil_record (s : IdSet) (f : Option (Fields Flow none)) (n : Bool) :
    (record s f n).carriesNil = n := rfl

@[simp] theorem carriesNil_scalar (n : Bool) : (scalar n).carriesNil = n := rfl

@[simp] theorem any_meet (b : Flow) : any.meet b = b := rfl

@[simp] theorem meet_any (a : Flow) : a.meet any = a := by
  cases a <;> simp [meet]

@[simp] theorem scalar_meet (n : Bool) (b : Flow) :
    (scalar n).meet b = scalar (n || b.carriesNil) := by
  cases b <;> simp [meet]

@[simp] theorem meet_scalar (n : Bool) (b : Flow) :
    b.meet (scalar n) = scalar (n || b.carriesNil) := by
  cases b <;> simp [meet, Bool.or_comm]

@[simp] theorem int_meet_int (i j : IntFlow) : (int i).meet (int j) = int (i.meet j) := rfl

@[simp] theorem float_meet_float (x y : FloatFlow) :
    (float x).meet (float y) = float (x.meet y) := rfl

@[simp] theorem text_meet_text (c d : Option String) (n m : Bool) :
    (text c n).meet (text d m) = text (if c = d then c else none) (n || m) := rfl

@[simp] theorem function_meet_function (s t : IdSet) (n m : Bool) :
    (function s n).meet (function t m) = function (s.union t) (n || m) := rfl

@[simp] theorem record_meet_record (s t : IdSet) (f g : Option (Fields Flow none))
    (n m : Bool) :
    (record s f n).meet (record t g m) = record (s.union t) (meetLayouts f g) (n || m) := by
  cases f <;> cases g <;> rfl

@[simp] theorem meet_nil (a : Flow) : a.meet nil = a.orNil := rfl

@[simp] theorem nil_meet (a : Flow) : nil.meet a = a.orNil := by
  cases a with
  | record s f n => cases f <;> rfl
  | scalar n => simp [orNil, -meet_nil]
  | _ => rfl

@[simp] theorem orNil_any : any.orNil = nil := rfl

@[simp] theorem orNil_nil : nil.orNil = nil := rfl

@[simp] theorem orNil_int (i : IntFlow) : (int i).orNil = int (i.meet (.const 0)) := rfl

@[simp] theorem orNil_float (x : FloatFlow) :
    (float x).orNil = float (x.meet (.const .zero)) := rfl

@[simp] theorem orNil_text (c : Option String) (n : Bool) : (text c n).orNil = text c true := rfl

@[simp] theorem orNil_function (s : IdSet) (n : Bool) :
    (function s n).orNil = function s true := rfl

@[simp] theorem orNil_record (s : IdSet) (f : Option (Fields Flow none)) (n : Bool) :
    (record s f n).orNil = record s f true := by
  cases f <;> rfl

@[simp] theorem orNil_scalar (n : Bool) : (scalar n).orNil = scalar true := by
  simp [orNil, -meet_nil]

/-! ## Classes of values -/

/-- The flow describes a class of values, or some of one. -/
def isClassed : Flow → Bool
  | int _ | float _ | text _ _ | function _ _ | record _ _ _ => true
  | any | nil | scalar _ => false

/-- Flows of classes are told apart from the rest. -/
theorem eq_or_isClassed (a : Flow) :
    a = any ∨ a = nil ∨ (∃ n, a = scalar n) ∨ a.isClassed = true := by
  cases a <;> simp [isClassed]

/-- Two flows of one class. -/
theorem eq_of_sameKind {a b : Flow} (ha : a.isClassed = true) (h : a.sameKind b = true) :
    (∃ i j, a = int i ∧ b = int j) ∨ (∃ x y, a = float x ∧ b = float y) ∨
      (∃ c n d m, a = text c n ∧ b = text d m) ∨
      (∃ s n t m, a = function s n ∧ b = function t m) ∨
      ∃ s f n t g m, a = record s f n ∧ b = record t g m := by
  cases a <;> cases b <;> simp [isClassed, sameKind] at ha h ⊢

/-- Two classes of values have no more in common than the flag of a `scalar`. -/
theorem meet_of_clash {a b : Flow} (ha : a.isClassed = true) (hb : b.isClassed = true)
    (h : a.sameKind b = false) : a.meet b = scalar (a.carriesNil || b.carriesNil) := by
  cases a with
  | record s f n => cases f <;> cases b <;> first | rfl | simp [isClassed, sameKind] at ha hb h
  | _ => cases b <;> first | rfl | simp [isClassed, sameKind] at ha hb h

/-- Being of one kind does not depend on the order. -/
theorem sameKind_comm (a b : Flow) : a.sameKind b = b.sameKind a := by
  cases a <;> cases b <;> rfl

/-- Flows of one kind are of the same kind as any third. -/
theorem sameKind_congr {a b : Flow} (h : a.sameKind b = true) (c : Flow) :
    a.sameKind c = b.sameKind c := by
  cases a <;> cases b <;> simp [sameKind] at h <;> cases c <;> rfl

/-- The meet of two flows of one class stays in it. -/
theorem sameKind_meet {a b : Flow} (ha : a.isClassed = true) (h : a.sameKind b = true) :
    a.sameKind (a.meet b) = true := by
  rcases eq_of_sameKind ha h with ⟨_, _, rfl, rfl⟩ | ⟨_, _, rfl, rfl⟩ | ⟨_, _, _, _, rfl, rfl⟩ |
    ⟨_, _, _, _, rfl, rfl⟩ | ⟨_, _, _, _, _, _, rfl, rfl⟩ <;> simp [sameKind]

private theorem isClassed_of_sameKind {a b : Flow} (ha : a.isClassed = true) (h : a.sameKind b = true) :
    b.isClassed = true := by
  rcases eq_of_sameKind ha h with ⟨_, _, rfl, rfl⟩ | ⟨_, _, rfl, rfl⟩ | ⟨_, _, _, _, rfl, rfl⟩ |
    ⟨_, _, _, _, rfl, rfl⟩ | ⟨_, _, _, _, _, _, rfl, rfl⟩ <;> rfl

@[simp] theorem carriesNil_orNil (a : Flow) : a.orNil.carriesNil = true := by
  cases a <;> simp

/-- A meet carries nil if one of the two does, whether or not their classes clash. -/
@[simp] theorem carriesNil_meet (a b : Flow) :
    (a.meet b).carriesNil = (a.carriesNil || b.carriesNil) := by
  rcases eq_or_isClassed a with rfl | rfl | ⟨n, rfl⟩ | ha
  · simp
  · simp
  · simp
  rcases eq_or_isClassed b with rfl | rfl | ⟨m, rfl⟩ | hb
  · simp
  · simp
  · simp [Bool.or_comm]
  cases h : a.sameKind b with
  | false => rw [meet_of_clash ha hb h, carriesNil_scalar]
  | true =>
    rcases eq_of_sameKind ha h with ⟨_, _, rfl, rfl⟩ | ⟨_, _, rfl, rfl⟩ | ⟨_, _, _, _, rfl, rfl⟩ |
      ⟨_, _, _, _, rfl, rfl⟩ | ⟨_, _, _, _, _, _, rfl, rfl⟩ <;> simp

/-! ## Laws of the meet -/

/-- The meet of a flow with itself is that flow. -/
theorem meet_self (a : Flow) : a.meet a = a := by
  induction a using all_of with
  | record s f n ih =>
    have hf : meetFields f f = f := by
      apply Fields.ext_find?
      intro k
      rw [find?_meetFields]
      cases hk : f.find? k with
      | none => rfl
      | some v => simp [ih k v hk]
    simp [meetLayouts, hf]
  | unlaid s n => simp [meetLayouts]
  | _ => simp [IntFlow.meet_self, FloatFlow.meet_self]

/-- Layouts commute where the flows of the first one do. -/
theorem meetFields_comm {f g : Fields Flow none}
    (h : ∀ k v, f.find? k = some v → ∀ w, v.meet w = w.meet v) :
    meetFields f g = meetFields g f := by
  apply Fields.ext_find?
  intro k
  rw [find?_meetFields, find?_meetFields]
  cases hf : f.find? k with
  | none => cases g.find? k <;> rfl
  | some v =>
    cases g.find? k with
    | none => rfl
    | some w => simp [h k v hf w]

private theorem meet_comm_of_not_sameKind {a b : Flow} (h : a.sameKind b = false) :
    a.meet b = b.meet a := by
  rcases eq_or_isClassed a with rfl | rfl | ⟨n, rfl⟩ | ha
  · simp
  · simp
  · simp
  rcases eq_or_isClassed b with rfl | rfl | ⟨m, rfl⟩ | hb
  · simp
  · simp
  · simp
  have h' : b.sameKind a = false := by rw [sameKind_comm, h]
  rw [meet_of_clash ha hb h, meet_of_clash hb ha h', Bool.or_comm]

/-- Meets do not depend on the order. -/
theorem meet_comm (a b : Flow) : a.meet b = b.meet a := by
  cases h : a.sameKind b with
  | false => exact meet_comm_of_not_sameKind h
  | true =>
    induction a using all_of generalizing b with
    | record s f n ih =>
      cases b with
      | record t g m =>
        cases g with
        | none => simp [meetLayouts, IdSet.union_comm s, Bool.or_comm n]
        | some g =>
          have hf : meetFields f g = meetFields g f := by
            apply meetFields_comm
            intro k v hv w
            cases hvw : v.sameKind w with
            | false => exact meet_comm_of_not_sameKind hvw
            | true => exact ih k v hv w hvw
          simp [meetLayouts, IdSet.union_comm s, Bool.or_comm n, hf]
      | _ => simp [sameKind] at h
    | unlaid s n =>
      cases b with
      | record t g m => simp [meetLayouts, IdSet.union_comm s, Bool.or_comm n]
      | _ => simp [sameKind] at h
    | text c n =>
      cases b with
      | text d m =>
        by_cases e : c = d
        · simp [e, Bool.or_comm n]
        · simp [e, Ne.symm e, Bool.or_comm n]
      | _ => simp [sameKind] at h
    | function s n =>
      cases b with
      | function t m => simp [IdSet.union_comm s, Bool.or_comm n]
      | _ => simp [sameKind] at h
    | int i =>
      cases b with
      | int j => simp [IntFlow.meet_comm i]
      | _ => simp [sameKind] at h
    | float x =>
      cases b with
      | float y => simp [FloatFlow.meet_comm x]
      | _ => simp [sameKind] at h
    | _ => simp

@[simp] theorem orNil_orNil (a : Flow) : a.orNil.orNil = a.orNil := by
  cases a <;> simp [IntFlow.meet_assoc, FloatFlow.meet_assoc, IntFlow.meet_self,
    FloatFlow.meet_self]

/-- Allowing nil keeps a flow classed. -/
theorem isClassed_orNil {a : Flow} (ha : a.isClassed = true) : a.orNil.isClassed = true := by
  cases a <;> simp [isClassed] at ha ⊢

private theorem sameKind_orNil {a : Flow} (ha : a.isClassed = true) (b : Flow) :
    a.orNil.sameKind b = a.sameKind b := by
  cases a <;> simp [isClassed] at ha ⊢ <;> cases b <;> rfl

/-- Nil joins a meet through either side. -/
theorem orNil_meet (a b : Flow) : (a.meet b).orNil = a.orNil.meet b := by
  rcases eq_or_isClassed a with rfl | rfl | ⟨n, rfl⟩ | ha
  · simp
  · simp
  · simp
  rcases eq_or_isClassed b with rfl | rfl | ⟨m, rfl⟩ | hb
  · simp
  · simp
  · simp
  cases h : a.sameKind b with
  | false =>
    have h' : a.orNil.sameKind b = false := by rw [sameKind_orNil ha, h]
    rw [meet_of_clash ha hb h, meet_of_clash (isClassed_orNil ha) hb h']
    simp
  | true =>
    rcases eq_of_sameKind ha h with ⟨i, j, rfl, rfl⟩ | ⟨x, y, rfl, rfl⟩ | ⟨_, _, _, _, rfl, rfl⟩ |
      ⟨_, _, _, _, rfl, rfl⟩ | ⟨_, _, _, _, _, _, rfl, rfl⟩
    · simp [IntFlow.meet_assoc, IntFlow.meet_comm j]
    · simp [FloatFlow.meet_assoc, FloatFlow.meet_comm y]
    · simp
    · simp
    · simp

/-- Layouts associate where the flows of the first one do. -/
theorem meetFields_assoc {f g k : Fields Flow none}
    (h : ∀ l v, f.find? l = some v → ∀ w x, (v.meet w).meet x = v.meet (w.meet x)) :
    meetFields (meetFields f g) k = meetFields f (meetFields g k) := by
  apply Fields.ext_find?
  intro l
  simp only [find?_meetFields]
  cases hf : f.find? l with
  | none => rfl
  | some v =>
    cases g.find? l with
    | none => rfl
    | some w =>
      cases k.find? l with
      | none => rfl
      | some x => simp [h l v hf w x]

/-- Where the classes of three flows are not all one, their meet is what they carry of nil. -/
theorem meet_assoc_of_clash {a b c : Flow} (ha : a.isClassed = true) (hb : b.isClassed = true)
    (hc : c.isClassed = true) (h : (a.sameKind b && b.sameKind c) = false) :
    (a.meet b).meet c = a.meet (b.meet c) := by
  cases hab : a.sameKind b with
  | false =>
    rw [meet_of_clash ha hb hab, scalar_meet]
    cases hbc : b.sameKind c with
    | false =>
      rw [meet_of_clash hb hc hbc, meet_scalar, Bool.or_assoc, Bool.or_comm _ a.carriesNil]
    | true =>
      have hbm := sameKind_meet hb hbc
      have h' : a.sameKind (b.meet c) = false := by
        rw [sameKind_comm, ← sameKind_congr hbm a, sameKind_comm, hab]
      rw [meet_of_clash ha (isClassed_of_sameKind hb hbm) h', carriesNil_meet, Bool.or_assoc]
  | true =>
    have hbc : b.sameKind c = false := by simpa [hab] using h
    have ham := sameKind_meet ha hab
    have h' : (a.meet b).sameKind c = false := by
      rw [← sameKind_congr ham c, sameKind_congr hab c, hbc]
    rw [meet_of_clash (isClassed_of_sameKind ha ham) hc h', meet_of_clash hb hc hbc, meet_scalar,
      carriesNil_meet, Bool.or_assoc, Bool.or_comm _ a.carriesNil]

private theorem meet_orNil (a b : Flow) : a.meet b.orNil = (a.meet b).orNil := by
  rw [meet_comm a b.orNil, ← orNil_meet, meet_comm b a]

private theorem meet_assoc_of_not_sameKind {a b c : Flow} (h : (a.sameKind b && b.sameKind c) = false) :
    (a.meet b).meet c = a.meet (b.meet c) := by
  rcases eq_or_isClassed a with rfl | rfl | ⟨n, rfl⟩ | ha
  · simp
  · rw [nil_meet, nil_meet, orNil_meet]
  · simp [Bool.or_assoc]
  rcases eq_or_isClassed b with rfl | rfl | ⟨n, rfl⟩ | hb
  · simp
  · rw [meet_nil, nil_meet, meet_orNil, orNil_meet]
  · rw [meet_scalar, scalar_meet, scalar_meet, meet_scalar]
    simp [Bool.or_right_comm]
  rcases eq_or_isClassed c with rfl | rfl | ⟨n, rfl⟩ | hc
  · simp
  · rw [meet_nil, meet_nil, meet_orNil]
  · simp [Bool.or_comm, Bool.or_left_comm]
  exact meet_assoc_of_clash ha hb hc h

private theorem meet_assoc (a b c : Flow) : (a.meet b).meet c = a.meet (b.meet c) := by
  cases h : a.sameKind b && b.sameKind c with
  | false => exact meet_assoc_of_not_sameKind h
  | true =>
    rw [Bool.and_eq_true] at h
    obtain ⟨hab, hbc⟩ := h
    induction a using all_of generalizing b c with
    | any => simp
    | nil => rw [nil_meet, nil_meet, orNil_meet]
    | scalar n => simp [Bool.or_assoc]
    | int i =>
      cases b <;> simp [sameKind] at hab
      cases c <;> simp [sameKind] at hbc
      simp [IntFlow.meet_assoc]
    | float x =>
      cases b <;> simp [sameKind] at hab
      cases c <;> simp [sameKind] at hbc
      simp [FloatFlow.meet_assoc]
    | text x n =>
      cases b <;> simp [sameKind] at hab
      cases c <;> simp [sameKind] at hbc
      simp only [text_meet_text, Bool.or_assoc]
      grind
    | function s n =>
      cases b <;> simp [sameKind] at hab
      cases c <;> simp [sameKind] at hbc
      simp [IdSet.union_assoc, Bool.or_assoc]
    | unlaid s n =>
      cases b <;> simp [sameKind] at hab
      cases c <;> simp [sameKind] at hbc
      simp [meetLayouts, IdSet.union_assoc, Bool.or_assoc]
    | record s f n ih =>
      cases b <;> simp [sameKind] at hab
      cases c <;> simp [sameKind] at hbc
      rename_i t g m u k l
      cases g with
      | none => simp [meetLayouts, IdSet.union_assoc, Bool.or_assoc]
      | some g =>
        cases k with
        | none => simp [meetLayouts, IdSet.union_assoc, Bool.or_assoc]
        | some k =>
          have hf : meetFields (meetFields f g) k = meetFields f (meetFields g k) := by
            apply meetFields_assoc
            intro l v hv w x
            cases h : v.sameKind w && w.sameKind x with
            | false => exact meet_assoc_of_not_sameKind h
            | true =>
              rw [Bool.and_eq_true] at h
              exact ih l v hv w x h.1 h.2
          simp [meetLayouts, IdSet.union_assoc, Bool.or_assoc, hf]

/-! ## The order of the semilattice -/

/-- Flows meet by `Flow.meet`; a flow is below those that cover it. -/
instance : SemilatticeInf Flow where
  inf := meet
  le a b := b.covers a = true
  le_refl a := by rw [covers_iff, meet_self]
  le_trans a b c hab hbc := by
    rw [covers_iff] at hab hbc ⊢
    rw [← hab, ← meet_assoc, hbc]
  le_antisymm a b hab hba := by
    rw [covers_iff] at hab hba
    rw [← hab, meet_comm, hba]
  inf_le_left a b := by rw [covers_iff, ← meet_assoc, meet_self]
  inf_le_right a b := by rw [covers_iff, meet_comm a b, ← meet_assoc, meet_self]
  le_inf a b c hab hac := by
    rw [covers_iff] at hab hac ⊢
    rw [meet_assoc, hac, hab]

/-- A flow covers exactly what is below it. -/
theorem covers_iff_le {a b : Flow} : a.covers b = true ↔ b ≤ a := Iff.rfl

/-- The meet of two flows is their infimum. -/
theorem meet_eq_inf (a b : Flow) : a.meet b = a ⊓ b := rfl

instance : OrderTop Flow where
  top := any
  le_top _ := covers_iff_le.1 (covers_iff.2 (any_meet _))

instance : OrderBot Flow where
  bot := bottom
  bot_le _ := covers_iff_le.1 (covers_iff.2 (meet_scalar true _))

/-- The flows are a semilattice between `any` and `bottom`: the meet is commutative, associative
and idempotent, `covers` is a partial order, and the meet of two flows is the greatest flow that
both cover. -/
theorem bounded_semilattice (a b c : Flow) :
    a.meet b = b.meet a ∧
      (a.meet b).meet c = a.meet (b.meet c) ∧
      a.meet a = a ∧
      any.meet a = a ∧
      bottom.meet a = bottom ∧
      a.covers a = true ∧
      (a.covers b = true → b.covers a = true → a = b) ∧
      (a.covers b = true → b.covers c = true → a.covers c = true) ∧
      a.covers (a.meet b) = true ∧
      b.covers (a.meet b) = true ∧
      ∀ x, a.covers x = true → b.covers x = true → (a.meet b).covers x = true := by
  refine ⟨meet_comm a b, meet_assoc a b c, meet_self a, any_meet a, scalar_meet true a, ?_⟩
  simp only [covers_iff_le, meet_eq_inf]
  constructor
  · exact le_rfl
  constructor
  · intro hba hab
    exact le_antisymm hab hba
  constructor
  · intro hba hcb
    exact hcb.trans hba
  constructor
  · exact inf_le_left
  constructor
  · exact inf_le_right
  · intro x hxa hxb
    exact le_inf hxa hxb

end Flow

end TypeFlow
