/-!
# Insertion-ordered sets

An `OrderedSet` keeps its members in the order of their first insertion.  Inserting a present
member changes nothing, so the order of dependents and of pending work never depends on how often
a member was announced.

Main results:

- `toList_insert`, `mem_insertAll`: insertion through the member list.
- `nodup_toList`: no member is listed twice.
-/

namespace TypeFlow

/-- Members in the order of their first insertion, none twice. -/
structure OrderedSet (α : Type) where
  items : Array α
  nodup : items.toList.Nodup

namespace OrderedSet

variable {α : Type}

/-- The set without members. -/
def empty : OrderedSet α := ⟨#[], List.nodup_nil⟩

instance : Inhabited (OrderedSet α) := ⟨empty⟩

/-- The members, oldest first. -/
def toList (s : OrderedSet α) : List α := s.items.toList

/-- The number of members. -/
def size (s : OrderedSet α) : Nat := s.items.size

/-- The set has no members. -/
def isEmpty (s : OrderedSet α) : Bool := s.items.isEmpty

instance : Membership α (OrderedSet α) := ⟨fun s a => a ∈ s.toList⟩

/-- Membership in a set is membership in its list. -/
theorem mem_def {s : OrderedSet α} {a : α} : a ∈ s ↔ a ∈ s.toList := Iff.rfl

/-- No element is listed twice. -/
theorem nodup_toList (s : OrderedSet α) : s.toList.Nodup := s.nodup

/-- The newest member and the set without it. -/
def popNewest? (s : OrderedSet α) : Option (α × OrderedSet α) :=
  match s.items.back? with
  | none => none
  | some a => some (a, ⟨s.items.pop, by
      rw [Array.toList_pop]
      exact s.nodup.sublist (List.dropLast_sublist _)⟩)

/-- The oldest member and the set without it. -/
def popOldest? (s : OrderedSet α) : Option (α × OrderedSet α) :=
  match s.items[0]? with
  | none => none
  | some a => some (a, ⟨s.items.eraseIdxIfInBounds 0, by
      rw [Array.toList_eraseIdxIfInBounds]
      exact s.nodup.sublist (List.eraseIdx_sublist _ _)⟩)

variable [DecidableEq α]

/-- The element is a member. -/
def contains (s : OrderedSet α) (a : α) : Bool := s.items.contains a

@[simp] theorem contains_eq_true {s : OrderedSet α} {a : α} : s.contains a = true ↔ a ∈ s := by
  simp [contains, mem_def, toList]

instance (s : OrderedSet α) (a : α) : Decidable (a ∈ s) :=
  decidable_of_iff _ contains_eq_true

/-- The set with one more member, newest if it was absent. -/
def insert (s : OrderedSet α) (a : α) : OrderedSet α :=
  if h : s.contains a then s
  else ⟨s.items.push a, by
    rw [Array.toList_push, List.nodup_append]
    refine ⟨s.nodup, by simp, fun b hb c hc => ?_⟩
    rw [List.mem_singleton] at hc
    subst hc
    intro e
    subst e
    exact h (contains_eq_true.2 hb)⟩

/-- The set with every element of a list inserted in turn. -/
def insertAll (s : OrderedSet α) (as : List α) : OrderedSet α := as.foldl insert s

/-- The set of a list of elements, in the order of first occurrence. -/
def ofList (as : List α) : OrderedSet α := empty.insertAll as

/-! ## The member list -/

/-- What is new is listed last. -/
theorem toList_insert (s : OrderedSet α) (a : α) :
    (s.insert a).toList = if a ∈ s then s.toList else s.toList ++ [a] := by
  unfold insert
  split
  · rename_i h
    rw [if_pos (contains_eq_true.1 h)]
  · rename_i h
    rw [if_neg fun hm => h (contains_eq_true.2 hm)]
    simp [toList]

@[simp] theorem mem_insert {s : OrderedSet α} {a b : α} : b ∈ s.insert a ↔ b = a ∨ b ∈ s := by
  rw [mem_def, toList_insert]
  split
  · rename_i h
    constructor
    · exact Or.inr
    · rintro (rfl | hb)
      · exact h
      · exact hb
  · simp [mem_def, or_comm]

@[simp] theorem mem_insertAll {s : OrderedSet α} {as : List α} {b : α} :
    b ∈ s.insertAll as ↔ b ∈ as ∨ b ∈ s := by
  unfold insertAll
  induction as generalizing s with
  | nil => simp
  | cons a as ih =>
    rw [List.foldl_cons, ih, mem_insert, List.mem_cons]
    exact ⟨fun h => by rcases h with h | h | h <;> simp [h],
      fun h => by rcases h with (h | h) | h <;> simp [h]⟩

end OrderedSet

end TypeFlow
