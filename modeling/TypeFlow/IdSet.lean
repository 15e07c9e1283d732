/-!
# Sets of identities

Functions and record allocation sites are known by numbers.  An `IdSet` lists such numbers in
increasing order, so equal sets are equal values and print alike.

Main results:

- `mem_insert`, `mem_union`, `mem_inter`: each operation through membership.
- `ext_mem`: a set is determined by its members.
-/

namespace TypeFlow

/-- Identity of a lambda or of one occurrence of a primitive. -/
abbrev FunctionId := Nat

/-- Identity of a place in the program where records are built. -/
abbrev SiteId := Nat

/-- The function outside the program that an unknown call may reach. -/
def FunctionId.unknown : FunctionId := 0

/-- A finite set of identities in increasing order. -/
structure IdSet where
  toList : List Nat
  sorted : toList.Pairwise (· < ·)
  deriving DecidableEq

namespace IdSet

/-- The set without members. -/
def empty : IdSet := ⟨[], .nil⟩

instance : Inhabited IdSet := ⟨empty⟩

/-- The set of one member. -/
def singleton (x : Nat) : IdSet := ⟨[x], List.pairwise_singleton _ x⟩

/-- The set has no members. -/
def isEmpty (s : IdSet) : Bool := s.toList.isEmpty

/-- The number is a member. -/
def contains (s : IdSet) (x : Nat) : Bool := s.toList.contains x

instance : Membership Nat IdSet := ⟨fun s x => x ∈ s.toList⟩

/-- Membership in a set is membership in its list. -/
theorem mem_def {s : IdSet} {x : Nat} : x ∈ s ↔ x ∈ s.toList := Iff.rfl

@[simp] theorem contains_eq_true {s : IdSet} {x : Nat} : s.contains x = true ↔ x ∈ s := by
  simp [contains, mem_def]

/-- An increasing list with one more number at its place. -/
def place (x : Nat) : List Nat → List Nat
  | [] => [x]
  | y :: ys => if x < y then x :: y :: ys else if y < x then y :: place x ys else y :: ys

private theorem mem_place {x z : Nat} {ys : List Nat} : z ∈ place x ys ↔ z = x ∨ z ∈ ys := by
  induction ys with
  | nil => simp [place]
  | cons y ys ih =>
    unfold place
    split
    · simp
    · split
      · rw [List.mem_cons, ih, List.mem_cons]
        exact or_left_comm
      · have : x = y := by omega
        subst this; simp

private theorem sorted_place {x : Nat} {ys : List Nat} (h : ys.Pairwise (· < ·)) :
    (place x ys).Pairwise (· < ·) := by
  induction ys with
  | nil => simp [place]
  | cons y ys ih =>
    rw [List.pairwise_cons] at h
    unfold place
    split
    · rename_i lt
      refine List.pairwise_cons.2 ⟨fun z hz => ?_, List.pairwise_cons.2 h⟩
      rcases List.mem_cons.1 hz with rfl | hz
      · exact lt
      · exact Nat.lt_trans lt (h.1 z hz)
    · split
      · rename_i _ gt
        refine List.pairwise_cons.2 ⟨fun z hz => ?_, ih h.2⟩
        rcases mem_place.1 hz with rfl | hz
        · exact gt
        · exact h.1 z hz
      · exact List.pairwise_cons.2 h

/-- The set with one more member. -/
def insert (x : Nat) (s : IdSet) : IdSet := ⟨place x s.toList, sorted_place s.sorted⟩

/-- The members of either set. -/
def union (s t : IdSet) : IdSet := t.toList.foldl (fun u x => u.insert x) s

/-- The members of both sets. -/
def inter (s t : IdSet) : IdSet := ⟨s.toList.filter t.contains, s.sorted.filter _⟩

/-- The set of a list of numbers. -/
def ofList (xs : List Nat) : IdSet := xs.foldl (fun s x => s.insert x) empty

/-! ## Membership -/

@[simp] theorem not_mem_empty {x : Nat} : x ∉ empty := by simp [empty, mem_def]

@[simp] theorem mem_singleton {x y : Nat} : x ∈ singleton y ↔ x = y := by
  simp [singleton, mem_def]

@[simp] theorem mem_insert {x y : Nat} {s : IdSet} : y ∈ s.insert x ↔ y = x ∨ y ∈ s :=
  mem_place

private theorem mem_foldl_insert {x : Nat} (xs : List Nat) (s : IdSet) :
    x ∈ xs.foldl (fun u y => u.insert y) s ↔ x ∈ s ∨ x ∈ xs := by
  induction xs generalizing s with
  | nil => simp
  | cons y ys ih =>
    rw [List.foldl_cons, ih, mem_insert, List.mem_cons, or_assoc]
    exact or_left_comm

@[simp] theorem mem_union {x : Nat} {s t : IdSet} : x ∈ s.union t ↔ x ∈ s ∨ x ∈ t :=
  mem_foldl_insert t.toList s

@[simp] theorem mem_inter {x : Nat} {s t : IdSet} : x ∈ s.inter t ↔ x ∈ s ∧ x ∈ t := by
  simp [inter, mem_def, contains]

@[simp] theorem mem_ofList {x : Nat} {xs : List Nat} : x ∈ ofList xs ↔ x ∈ xs := by
  simp [ofList, mem_foldl_insert]

/-- Two increasing lists with the same members are the same list. -/
theorem eq_of_sorted_of_mem_iff {xs ys : List Nat} (hx : xs.Pairwise (· < ·))
    (hy : ys.Pairwise (· < ·)) (h : ∀ z, z ∈ xs ↔ z ∈ ys) : xs = ys := by
  induction xs generalizing ys with
  | nil =>
    cases ys with
    | nil => rfl
    | cons y ys => simpa using h y
  | cons x xs ih =>
    cases ys with
    | nil => simpa using h x
    | cons y ys =>
      rw [List.pairwise_cons] at hx hy
      have hxy : x = y := by
        rcases List.mem_cons.1 ((h x).1 (by simp)) with e | e
        · exact e
        · rcases List.mem_cons.1 ((h y).2 (by simp)) with e' | e'
          · exact e'.symm
          · have := hx.1 y e'; have := hy.1 x e; omega
      subst hxy
      congr 1
      refine ih hx.2 hy.2 fun z => ⟨fun hz => ?_, fun hz => ?_⟩
      · rcases List.mem_cons.1 ((h z).1 (by simp [hz])) with e | e
        · have := hx.1 z hz; omega
        · exact e
      · rcases List.mem_cons.1 ((h z).2 (by simp [hz])) with e | e
        · have := hy.1 z hz; omega
        · exact e

/-- A set is determined by its members. -/
theorem ext_mem {s t : IdSet} (h : ∀ x, x ∈ s ↔ x ∈ t) : s = t := by
  cases s with
  | mk xs hx =>
    cases t with
    | mk ys hy =>
      have := eq_of_sorted_of_mem_iff hx hy h
      subst this
      rfl

end IdSet

end TypeFlow
