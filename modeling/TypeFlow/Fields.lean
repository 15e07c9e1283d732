/-!
# Labelled fields in label order

A `Fields α bound` maps labels to values.  Its labels increase strictly and all come after
`bound`, so two maps with the same entries are equal, at every depth of a nested value.

Main results:

- `find?_relax`, `find?_insert`, `find?_erase`, `find?_union`: each operation through the look-up.
- `ext_find?`: a map is determined by its look-ups.
- `map_find?_mapM?`: what a transformation that may fail makes of each entry.
-/

namespace TypeFlow

/-- The label comes after the bound; a missing bound lies before every label. -/
def After : Option String → String → Prop
  | none, _ => True
  | some k, l => k < l

instance (bound : Option String) (label : String) : Decidable (After bound label) :=
  match bound with
  | none => isTrue trivial
  | some k => inferInstanceAs (Decidable (k < label))

/-- Any label may come first. -/
theorem after_none (label : String) : After none label := trivial

private theorem After.trans {bound : Option String} {k l : String} (hk : After bound k) (hl : k < l) :
    After bound l :=
  match bound, hk with
  | none, _ => trivial
  | some _, hk => String.lt_trans hk hl

/-- Values under strictly increasing labels, all of them after `bound`. -/
inductive Fields (α : Type) : Option String → Type
  | nil {bound : Option String} : Fields α bound
  | cons {bound : Option String} (label : String) (after : After bound label) (value : α)
      (rest : Fields α (some label)) : Fields α bound

namespace Fields

variable {α β : Type} {bound : Option String}

instance : Inhabited (Fields α bound) := ⟨nil⟩

/-- The value under a label. -/
def find? {bound : Option String} : Fields α bound → String → Option α
  | nil, _ => none
  | cons l _ v rest, k => if l = k then some v else rest.find? k

/-- The entries in label order. -/
def toList {bound : Option String} : Fields α bound → List (String × α)
  | nil => []
  | cons l _ v rest => (l, v) :: rest.toList

/-- The labels in order. -/
def labels {bound : Option String} : Fields α bound → List String
  | nil => []
  | cons l _ _ rest => l :: rest.labels

/-- The values in label order. -/
def values {bound : Option String} : Fields α bound → List α
  | nil => []
  | cons _ _ v rest => v :: rest.values

/-- The number of entries. -/
def size {bound : Option String} : Fields α bound → Nat
  | nil => 0
  | cons _ _ _ rest => rest.size + 1

/-- Every value transformed under its label. -/
def map (f : String → α → β) {bound : Option String} : Fields α bound → Fields β bound
  | nil => nil
  | cons l h v rest => cons l h (f l v) (rest.map f)

/-- Every value transformed, unless the transformation fails on one. -/
def mapM? (f : α → Option β) {bound : Option String} : Fields α bound → Option (Fields β bound)
  | nil => some nil
  | cons l h v rest => do
    let w ← f v
    let rest ← rest.mapM? f
    return cons l h w rest

/-- The same entries under an earlier bound. -/
def relax {l : String} (h : After bound l) : Fields α (some l) → Fields α bound
  | nil => nil
  | cons k hk v rest => cons k (h.trans hk) v rest

/-- The map with `label` set to `value`. -/
def insert {bound : Option String} (label : String) (h : After bound label) (value : α) :
    Fields α bound → Fields α bound
  | nil => cons label h value nil
  | cons l hl v rest =>
    if lt : label < l then cons label h value (cons l lt v rest)
    else if gt : l < label then cons l hl v (rest.insert label gt value)
    else cons l hl value rest

/-- The map without `label`. -/
def erase (label : String) {bound : Option String} : Fields α bound → Fields α bound
  | nil => nil
  | cons l h v rest => if l = label then rest.relax h else cons l h v (rest.erase label)

/-- All entries of the first map, and those of the second whose label the first lacks. -/
def union (f : Fields α none) {bound : Option String} : Fields α bound → Fields α none
  | nil => f
  | cons l _ v rest =>
    if (f.find? l).isSome then f.union rest else (f.union rest).insert l (after_none l) v

/-- The map of a list of entries; of two entries under one label the later counts. -/
def ofList (entries : List (String × α)) : Fields α none :=
  entries.foldl (fun f e => f.insert e.1 (after_none e.1) e.2) nil

/-! ## Look-ups -/

@[simp] theorem find?_nil (k : String) : (nil : Fields α bound).find? k = none := rfl

/-- The first field is found under its label, and all others among the rest. -/
theorem find?_cons (l : String) (h : After bound l) (v : α) (rest : Fields α (some l))
    (k : String) : (cons l h v rest).find? k = if l = k then some v else rest.find? k := rfl

/-- Nothing stands at or before the bound. -/
theorem after_of_find? {bound : Option String} {f : Fields α bound} {k : String} {v : α}
    (h : f.find? k = some v) : After bound k := by
  induction f with
  | nil => simp at h
  | cons l hl w rest ih =>
    rw [find?_cons] at h
    split at h
    · subst_vars; exact hl
    · exact hl.trans (ih h)

@[simp] theorem find?_relax {l : String} (h : After bound l) (f : Fields α (some l))
    (k : String) : (f.relax h).find? k = f.find? k := by
  cases f <;> rfl

/-- What was inserted is found under its label, and under any other label what was there. -/
theorem find?_insert {bound : Option String} (label : String) (h : After bound label) (value : α)
    (f : Fields α bound) (k : String) :
    (f.insert label h value).find? k = if label = k then some value else f.find? k := by
  induction f with
  | nil => simp [insert, find?_cons]
  | cons l hl v rest ih =>
    unfold insert
    split
    · rfl
    · split
      · rename_i _ gt
        rw [find?_cons, find?_cons, ih gt]
        by_cases hk : l = k
        · subst hk
          have : label ≠ l := fun e => String.lt_irrefl l (e ▸ gt)
          simp [this]
        · simp [hk]
      · rename_i nlt ngt
        have : label = l := String.le_antisymm (String.not_lt.1 ngt) (String.not_lt.1 nlt)
        subst this
        simp only [find?_cons]
        split <;> rfl

/-- The values of fields are those found under some label. -/
theorem mem_values {f : Fields α bound} {x : α} :
    x ∈ f.values ↔ ∃ l, f.find? l = some x := by
  induction f with
  | nil => simp [values]
  | cons l hl v rest ih =>
    rw [values, List.mem_cons, ih]
    constructor
    · rintro (rfl | ⟨k, hk⟩)
      · exact ⟨l, by rw [find?_cons, if_pos rfl]⟩
      · have hne : l ≠ k := by
          rintro rfl
          exact String.lt_irrefl l (after_of_find? hk)
        exact ⟨k, by rw [find?_cons, if_neg hne, hk]⟩
    · rintro ⟨k, hk⟩
      rw [find?_cons] at hk
      split at hk
      · exact Or.inl (Option.some.inj hk).symm
      · exact Or.inr ⟨k, hk⟩

/-- Mapping the fields maps what is found. -/
theorem find?_map (r : String → α → β) (fields : Fields α bound) (l : String) :
    (fields.map r).find? l = (fields.find? l).map (r l) := by
  induction fields with
  | nil => rfl
  | cons k after v rest ih =>
    rw [map, find?_cons, find?_cons]
    split
    · rename_i e
      rw [← e, Option.map_some]
    · exact ih

/-- A transformation that does not fail has transformed what is under each label. -/
theorem map_find?_mapM? {f : α → Option β} {fields : Fields α bound} {fields' : Fields β bound}
    (h : fields.mapM? f = some fields') (k : String) :
    (fields.find? k).map f = (fields'.find? k).map some := by
  induction fields with
  | nil =>
    cases h
    rfl
  | cons l hl v rest ih =>
    obtain ⟨w, hw, h⟩ := Option.bind_eq_some_iff.1 h
    obtain ⟨rest', hrest, h⟩ := Option.bind_eq_some_iff.1 h
    cases h
    rw [find?_cons, find?_cons]
    split
    · rw [Option.map_some, Option.map_some, hw]
    · exact ih hrest

/-- What is under a label after a transformation was there before it. -/
theorem find?_of_mapM? {f : α → Option β} {fields : Fields α bound} {fields' : Fields β bound}
    (h : fields.mapM? f = some fields') {k : String} {w : β} (hw : fields'.find? k = some w) :
    ∃ v, fields.find? k = some v ∧ f v = some w := by
  have hk := map_find?_mapM? h k
  rw [hw] at hk
  exact Option.map_eq_some_iff.1 hk

/-- A transformation that fails on no value has a result. -/
theorem exists_mapM? {f : α → Option β} {fields : Fields α bound}
    (h : ∀ k v, fields.find? k = some v → ∃ w, f v = some w) :
    ∃ fields', fields.mapM? f = some fields' := by
  have hvalues : ∀ v ∈ fields.values, ∃ w, f v = some w := by
    intro v hv
    obtain ⟨k, hk⟩ := mem_values.1 hv
    exact h k v hk
  clear h
  induction fields with
  | nil => exact ⟨nil, rfl⟩
  | cons l hl v rest ih =>
    obtain ⟨w, hw⟩ := hvalues v List.mem_cons_self
    obtain ⟨rest', hrest⟩ := ih fun x hx => hvalues x (List.mem_cons_of_mem v hx)
    refine ⟨cons l hl w rest', ?_⟩
    unfold mapM?
    rw [hw, hrest]
    rfl

/-- What is under a label in the map of a list of entries is one of the entries. -/
theorem mem_of_find?_ofList {es : List (String × α)} {k : String} {v : α}
    (h : (ofList es).find? k = some v) : (k, v) ∈ es := by
  suffices hs : ∀ f : Fields α none,
      (es.foldl (fun f e => f.insert e.1 (after_none e.1) e.2) f).find? k = some v →
        (k, v) ∈ es ∨ f.find? k = some v from (hs nil h).resolve_right (by simp)
  clear h
  induction es with
  | nil => exact fun f hf => Or.inr hf
  | cons e rest ih =>
    intro f hf
    rw [List.foldl_cons] at hf
    rcases ih _ hf with hmem | hf
    · exact Or.inl (List.mem_cons_of_mem _ hmem)
    · rw [find?_insert] at hf
      split at hf
      · rename_i heq
        cases hf
        subst heq
        exact Or.inl List.mem_cons_self
      · exact Or.inr hf

/-- What was erased is not found, and under any other label what was there is. -/
theorem find?_erase {bound : Option String} (label : String) (f : Fields α bound) (k : String) :
    (f.erase label).find? k = if label = k then none else f.find? k := by
  induction f with
  | nil => simp [erase]
  | cons l hl v rest ih =>
    unfold erase
    split
    · rename_i e
      subst e
      rw [find?_relax, find?_cons]
      split
      · rename_i e
        subst e
        cases hf : rest.find? l with
        | none => rfl
        | some w => exact absurd (after_of_find? hf) (String.lt_irrefl l)
      · rfl
    · rename_i ne
      simp only [find?_cons, ih]
      by_cases hk : l = k
      · subst hk; simp [Ne.symm ne]
      · simp [hk]

/-- What is left after a field is taken out was there before. -/
theorem find?_of_erase {bound : Option String} {label l : String} {f : Fields α bound} {x : α}
    (h : (f.erase label).find? l = some x) : f.find? l = some x := by
  rw [find?_erase] at h
  split at h
  · cases h
  · exact h

/-- In a union the fields of the first part take precedence. -/
theorem find?_union (f : Fields α none) {bound : Option String} (g : Fields α bound) (k : String) :
    (f.union g).find? k = (f.find? k).or (g.find? k) := by
  induction g with
  | nil => simp [union]
  | cons l hl v rest ih =>
    unfold union
    split
    · rename_i hs
      rw [ih, find?_cons]
      split
      · rename_i e
        subst e
        obtain ⟨w, hw⟩ := Option.isSome_iff_exists.1 hs
        simp [hw]
      · rfl
    · rename_i hn
      rw [find?_insert, ih, find?_cons]
      split
      · rename_i e
        subst e
        simp [Option.not_isSome_iff_eq_none.1 hn]
      · rfl

/-- A map is determined by its look-ups. -/
theorem ext_find? {bound : Option String} {f g : Fields α bound}
    (h : ∀ k, f.find? k = g.find? k) : f = g := by
  induction f with
  | nil =>
    cases g with
    | nil => rfl
    | cons l _ v rest => simpa [find?_cons] using h l
  | cons l hl v rest ih =>
    cases g with
    | nil => simpa [find?_cons] using h l
    | cons l' hl' v' rest' =>
      have hll : l = l' := by
        have h1 := h l
        have h2 := h l'
        simp only [find?_cons, ↓reduceIte] at h1 h2
        by_cases e : l = l'
        · exact e
        · simp only [e, Ne.symm e, ↓reduceIte] at h1 h2
          exact absurd (String.lt_trans (after_of_find? h1.symm) (after_of_find? h2))
            (String.lt_irrefl l')
      subst hll
      have hv : v = v' := by simpa [find?_cons] using h l
      subst hv
      congr 1
      refine ih fun k => ?_
      have hk := h k
      simp only [find?_cons] at hk
      by_cases e : l = k
      · subst e
        have none_of : ∀ r : Fields α (some l), r.find? l = none := fun r => by
          cases hr : r.find? l with
          | none => rfl
          | some w => exact absurd (after_of_find? hr) (String.lt_irrefl l)
        rw [none_of, none_of]
      · simpa [e] using hk

/-- Transformations that agree on related values have one result on related maps. -/
theorem mapM?_eq_of_rel {γ : Type} {r : α → γ → Prop} {f : α → Option β} {g : γ → Option β}
    {fields : Fields α bound} {fields' : Fields γ bound} {results results' : Fields β bound}
    (hrel : ∀ k, Option.Rel r (fields.find? k) (fields'.find? k))
    (hresults : fields.mapM? f = some results) (hresults' : fields'.mapM? g = some results')
    (h : ∀ x y v w, r x y → f x = some v → g y = some w → v = w) : results = results' := by
  refine ext_find? fun k => ?_
  have hk := map_find?_mapM? hresults k
  have hk' := map_find?_mapM? hresults' k
  have hrelk := hrel k
  generalize fields.find? k = a, fields'.find? k = b at hk hk' hrelk
  cases hrelk with
  | none => rw [Option.map_eq_none_iff.1 hk.symm, Option.map_eq_none_iff.1 hk'.symm]
  | some hxy =>
    obtain ⟨v, hv, e⟩ := Option.map_eq_some_iff.1 hk.symm
    obtain ⟨w, hw, e'⟩ := Option.map_eq_some_iff.1 hk'.symm
    rw [hv, hw, h _ _ v w hxy e.symm e'.symm]

instance [DecidableEq α] : DecidableEq (Fields α bound) := fun f g =>
  decEq f g
where
  /-- Entry by entry. -/
  decEq {bound : Option String} : (f g : Fields α bound) → Decidable (f = g)
    | nil, nil => isTrue rfl
    | nil, cons .. => isFalse nofun
    | cons .., nil => isFalse nofun
    | cons l _ v rest, cons l' _ v' rest' =>
      if hl : l = l' then by
        subst hl
        exact
          if hv : v = v' then
            match decEq rest rest' with
            | isTrue hr => isTrue (by rw [hv, hr])
            | isFalse hr => isFalse fun e => hr (by injection e)
          else isFalse fun e => hv (by injection e)
      else isFalse fun e => hl (by injection e)

end Fields

end TypeFlow
