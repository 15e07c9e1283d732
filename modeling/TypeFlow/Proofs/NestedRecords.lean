import TypeFlow.Flow.Nesting
import TypeFlow.Forest.Projection
import TypeFlow.Proofs.MonotoneRules

/-!
# How deep records nest

The nesting of a flow counts the records with a known layout on its deepest path.  Meets nest no
deeper than what they are made of, and the flow of a type no deeper than `Flow.maxNesting`.  Tuples
are not truncated, so a flow may nest deeper, but then the records it nests in are from their sites.

What is truncated on the way down is bounded by what is left on the way (`left`): each record that is
kept takes its part of it.  The same goes for the records of some sites alone.

Main definitions:

- `Flow.nesting`: how many records with a known layout nest in each other.
- `Flow.nestingBy`: how many of them have certain sites.
- `Flow.Bounded`: a record that nests deeper than allowed is from one of some sites.

Main results:

- `Flow.nesting_truncate`: truncated flows nest no deeper than allowed.
- `Flow.truncate_closure`: truncating is a closure, and what it bounds.
- `Flow.nesting_meet_le`, `Flow.Bounded.meet`: meets.
- `Forest.nestingBy_widestFrom`: flows of types nest no deeper than allowed.
-/

namespace TypeFlow

mutual

/-- How many records with a known layout nest in each other on the deepest path. -/
def Flow.nesting : Flow → Nat
  | .record _ (some f) _ => Flow.nestingFields f + 1
  | _ => 0
  termination_by structural a => a

/-- The deepest nesting of the entries. -/
def Flow.nestingFields {bound : Option String} : Fields Flow bound → Nat
  | .nil => 0
  | .cons _ _ v f => max (Flow.nesting v) (Flow.nestingFields f)
  termination_by structural f => f

end

mutual

/-- How many records with a known layout and such sites nest in each other, on the path with the most
of them. -/
def Flow.nestingBy (p : IdSet → Bool) : Flow → Nat
  | .record s (some f) _ => Flow.nestingFieldsBy p f + if p s then 1 else 0
  | _ => 0
  termination_by structural a => a

/-- The most of them in one of the entries. -/
def Flow.nestingFieldsBy (p : IdSet → Bool) {bound : Option String} : Fields Flow bound → Nat
  | .nil => 0
  | .cons _ _ v f => max (Flow.nestingBy p v) (Flow.nestingFieldsBy p f)
  termination_by structural f => f

end

namespace Flow

private theorem nestingFields_le {bound : Option String} {f : Fields Flow bound} {d : Nat} :
    nestingFields f ≤ d ↔ ∀ k v, f.find? k = some v → v.nesting ≤ d := by
  have hvalues : nestingFields f ≤ d ↔ ∀ v ∈ f.values, v.nesting ≤ d := by
    induction f with
    | nil => simp [nestingFields, Fields.values]
    | cons l h v rest ih => simp [nestingFields, Fields.values, ih]
  rw [hvalues]
  constructor
  · exact fun h k v hv => h v (Fields.mem_values.2 ⟨k, hv⟩)
  · rintro h v hv
    obtain ⟨k, hk⟩ := Fields.mem_values.1 hv
    exact h k v hk

private theorem nesting_record_le {s : IdSet} {f : Fields Flow none} {n : Bool} {d : Nat} :
    (record s (some f) n).nesting ≤ d + 1 ↔ ∀ k v, f.find? k = some v → v.nesting ≤ d := by
  rw [← nestingFields_le]
  exact Nat.add_le_add_iff_right

/-- A field nests less deep than the record that it is from. -/
theorem nesting_field_lt {s : IdSet} {f : Fields Flow none} {n : Bool} {k : String} {v : Flow}
    (h : f.find? k = some v) : v.nesting < (record s (some f) n).nesting :=
  Nat.lt_succ_of_le (nestingFields_le.1 le_rfl k v h)

/-! ## Records of some sites -/

section Sites

variable {p : IdSet → Bool}

private theorem nestingFieldsBy_le {bound : Option String} {f : Fields Flow bound} {d : Nat} :
    nestingFieldsBy p f ≤ d ↔ ∀ k v, f.find? k = some v → v.nestingBy p ≤ d := by
  have hvalues : nestingFieldsBy p f ≤ d ↔ ∀ v ∈ f.values, v.nestingBy p ≤ d := by
    induction f with
    | nil => simp [nestingFieldsBy, Fields.values]
    | cons l h v rest ih => simp [nestingFieldsBy, Fields.values, ih]
  rw [hvalues]
  constructor
  · exact fun h k v hv => h v (Fields.mem_values.2 ⟨k, hv⟩)
  · rintro h v hv
    obtain ⟨k, hk⟩ := Fields.mem_values.1 hv
    exact h k v hk

/-- A record nests as deep as is left if its fields nest as deep as it leaves. -/
theorem nestingBy_record_le {s : IdSet} {f : Fields Flow none} {n : Bool} {d e : Nat}
    (hf : ∀ k v, f.find? k = some v → v.nestingBy p ≤ d) (hd : d + (if p s then 1 else 0) ≤ e) :
    (record s (some f) n).nestingBy p ≤ e :=
  (Nat.add_le_add_right (nestingFieldsBy_le.2 hf) _).trans hd

@[simp] theorem nestingBy_orNil (a : Flow) : a.orNil.nestingBy p = a.nestingBy p := by
  cases a with
  | record s f n => cases f <;> rfl
  | _ => rfl

end Sites

private theorem nestingBy_true (a : Flow) : a.nestingBy (fun _ => true) = a.nesting := by
  induction a using all_of with
  | record s f n ih =>
    have hfields : nestingFieldsBy (fun _ => true) f = nestingFields f := by
      refine Nat.le_antisymm (nestingFieldsBy_le.2 fun k v hv => ?_)
        (nestingFields_le.2 fun k v hv => ?_)
      · rw [ih k v hv]
        exact nestingFields_le.1 le_rfl k v hv
      · rw [← ih k v hv]
        exact nestingFieldsBy_le.1 le_rfl k v hv
    exact congrArg (· + 1) hfields
  | _ => rfl

@[simp] theorem nesting_orNil (a : Flow) : a.orNil.nesting = a.nesting := by
  cases a with
  | record s f n => cases f <;> rfl
  | _ => rfl

@[simp] theorem nesting_withoutNil (a : Flow) : a.withoutNil.nesting = a.nesting := by
  cases a with
  | record s f n => cases f <;> rfl
  | int i => cases i <;> rfl
  | float x => cases x <;> rfl
  | _ => rfl

@[simp] theorem nesting_widen (a : Flow) : a.widen.nesting = a.nesting := by
  cases a with
  | record s f n => cases f <;> rfl
  | _ => rfl

/-! ## Truncated flows -/

/-- Below some records a truncated flow nests as deep as is left, if every record that is kept leaves
enough for its fields. -/
theorem nestingBy_truncateAt {cutoff : Nat} {site : SiteId} {p : IdSet → Bool}
    (left : Nat → Nat → Nat) (hleft : ∀ s seen depth, seenWith site s seen ≤ cutoff + 1 →
      depth < maxNesting →
        left (seenWith site s seen) (depth + 1) + (if p s then 1 else 0) ≤ left seen depth)
    (a : Flow) (seen depth : Nat) :
    (a.truncateAt cutoff site seen depth).nestingBy p ≤ left seen depth := by
  induction a using all_of generalizing seen depth with
  | record s f n ih =>
    rw [truncateAt_record]
    split
    · exact Nat.zero_le _
    · rename_i hkept
      obtain ⟨hseen, hdepth⟩ := not_or.1 hkept
      refine nestingBy_record_le (fun k v hv => ?_)
        (hleft s seen depth (Nat.le_of_not_lt hseen) (Nat.lt_of_not_le hdepth))
      rw [find?_truncateFields] at hv
      obtain ⟨w, hw, rfl⟩ := Option.map_eq_some_iff.1 hv
      exact ih k w hw _ _
  | _ => exact Nat.zero_le _

/-- Truncated flows nest no deeper than allowed. -/
theorem nesting_truncate (cutoff : Nat) (site : SiteId) (a : Flow) :
    (a.truncate cutoff site).nesting ≤ maxNesting := by
  rw [← nestingBy_true]
  refine nestingBy_truncateAt (fun _ depth => maxNesting - depth) ?_ a 0 0
  intro s seen depth _ hdepth
  rw [if_pos rfl]
  omega

/-- In truncated flows not more than `cutoff + 1` records from the site nest in each other. -/
theorem nestingBy_truncate (cutoff : Nat) (site : SiteId) (a : Flow) :
    (a.truncate cutoff site).nestingBy (·.contains site) ≤ cutoff + 1 := by
  refine nestingBy_truncateAt (fun seen _ => cutoff + 1 - seen) ?_ a 0 0
  intro s seen depth hseen _
  cases h : s.contains site with
  | true =>
    simp only [seenWith, h, ↓reduceIte] at hseen ⊢
    omega
  | false => simp only [seenWith, h, Bool.false_eq_true, ↓reduceIte, Nat.add_zero, le_refl]

/-- Truncating is a closure: it leads down, what is truncated already stays what it is, and what is
lower is truncated to what is lower.  In a truncated flow at most `maxNesting` records with a known
layout nest in each other, and at most `cutoff + 1` of them are from the site. -/
theorem truncate_closure (cutoff : Nat) (site : SiteId) (x y : Flow) :
    x.covers (x.truncate cutoff site) = true ∧
      (x.truncate cutoff site).truncate cutoff site = x.truncate cutoff site ∧
      (x.covers y = true → (x.truncate cutoff site).covers (y.truncate cutoff site) = true) ∧
      (x.truncate cutoff site).nesting ≤ maxNesting ∧
      (x.truncate cutoff site).nestingBy (·.contains site) ≤ cutoff + 1 :=
  ⟨covers_iff_le.2 (truncate_le cutoff site x), truncate_truncate cutoff site x,
    fun h => covers_iff_le.2 (truncate_mono cutoff site (covers_iff_le.1 h)),
    nesting_truncate cutoff site x, nestingBy_truncate cutoff site x⟩

/-- Of three nested records from one site the innermost loses its layout where one may nest in
another, whatever it holds. -/
theorem truncate_closure_nested : ∃ x y z : Flow,
    x = recordAt 4 (.ofList [("n", recordAt 4 (.ofList [("n", recordAt 4 (.ofList [("n", nil)]))]))]) ∧
      y = recordAt 4 (.ofList [("n", recordAt 4 (.ofList [("n", recordAt 4 (.ofList [("n", int64)]))]))]) ∧
      z = recordAt 4 (.ofList [("n", recordAt 4 (.ofList [("n", record (.singleton 4) none false)]))]) ∧
      x.truncate 1 4 = z ∧ y.truncate 1 4 = z ∧ x.covers y = true ∧ x.covers z = true ∧
      z.truncate 1 4 = z ∧ z.covers z = true ∧ z.nestingBy (·.contains 4) ≤ 2 := by
  have hclosure : ∀ x y z : Flow, x.truncate 1 4 = z → y.truncate 1 4 = z → x.covers y = true →
      x.truncate 1 4 = z ∧ y.truncate 1 4 = z ∧ x.covers y = true ∧ x.covers z = true ∧
        z.truncate 1 4 = z ∧ z.covers z = true ∧ z.nestingBy (·.contains 4) ≤ 2 := by
    rintro x y _ rfl hy hxy
    obtain ⟨hle, htwice, hmono, -, hsite⟩ := truncate_closure 1 4 x y
    exact ⟨rfl, hy, hxy, hle, htwice, hy ▸ hmono hxy, hsite⟩
  exact ⟨_, _, _, rfl, rfl, rfl,
    hclosure _ _ _ (by decide +kernel) (by decide +kernel) (by decide +kernel)⟩

/-! ## Meets -/

/-- A meet is one of the two, perhaps with nil taken in, or of two records with known layouts, or no
record with one. -/
theorem meet_cases (a b : Flow) :
    (∃ c, (c = a ∨ c = b) ∧ (a.meet b = c ∨ a.meet b = c.orNil)) ∨
      (∃ s f n t g m, a = record s (some f) n ∧ b = record t (some g) m) ∨
      (a.meet b).nesting = 0 := by
  rcases eq_or_isClassed a with rfl | rfl | ⟨n, rfl⟩ | ha
  · exact Or.inl ⟨b, Or.inr rfl, Or.inl rfl⟩
  · exact Or.inl ⟨b, Or.inr rfl, Or.inr (nil_meet b)⟩
  · rw [scalar_meet]
    exact Or.inr (Or.inr rfl)
  rcases eq_or_isClassed b with rfl | rfl | ⟨m, rfl⟩ | hb
  · exact Or.inl ⟨a, Or.inl rfl, Or.inl (meet_any a)⟩
  · exact Or.inl ⟨a, Or.inl rfl, Or.inr rfl⟩
  · rw [meet_scalar]
    exact Or.inr (Or.inr rfl)
  cases hkind : a.sameKind b with
  | false =>
    rw [meet_of_clash ha hb hkind]
    exact Or.inr (Or.inr rfl)
  | true =>
    rcases eq_of_sameKind ha hkind with ⟨i, j, rfl, rfl⟩ | ⟨x, y, rfl, rfl⟩ |
      ⟨c, n, d, m, rfl, rfl⟩ | ⟨s, n, t, m, rfl, rfl⟩ | ⟨s, f, n, t, g, m, rfl, rfl⟩
    · exact Or.inr (Or.inr rfl)
    · exact Or.inr (Or.inr rfl)
    · exact Or.inr (Or.inr rfl)
    · exact Or.inr (Or.inr rfl)
    · cases f with
      | none =>
        rw [record_meet_record]
        exact Or.inr (Or.inr rfl)
      | some f =>
        cases g with
        | none =>
          rw [record_meet_record]
          exact Or.inr (Or.inr rfl)
        | some g => exact Or.inr (Or.inl ⟨s, f, n, t, g, m, rfl, rfl⟩)

/-- The fields of a meet of records are meets of fields. -/
theorem find?_meetFields_eq_some {f g : Fields Flow none} {k : String} {v : Flow} :
    (meetFields f g).find? k = some v ↔
      ∃ x y, f.find? k = some x ∧ g.find? k = some y ∧ x.meet y = v := by
  rw [find?_meetFields]
  simp only [Option.bind_eq_some_iff, Option.map_eq_some_iff]
  constructor
  · rintro ⟨x, hx, y, hy, e⟩
    exact ⟨x, y, hx, hy, e⟩
  · rintro ⟨x, y, hx, hy, e⟩
    exact ⟨x, hx, y, hy, e⟩

/-- A meet nests no deeper than what it is made of. -/
theorem nesting_meet_le {a b : Flow} {d : Nat} (ha : a.nesting ≤ d) (hb : b.nesting ≤ d) :
    (a.meet b).nesting ≤ d := by
  induction d generalizing a b with
  | zero =>
    rcases meet_cases a b with ⟨c, hc, h⟩ | ⟨s, f, n, t, g, m, rfl, rfl⟩ | h
    · have hle : c.nesting ≤ 0 := by rcases hc with rfl | rfl <;> assumption
      rcases h with h | h <;> rw [h]
      · exact hle
      · rwa [nesting_orNil]
    · exact absurd ha (Nat.not_succ_le_zero _)
    · exact h.le
  | succ d ih =>
    rcases meet_cases a b with ⟨c, hc, h⟩ | ⟨s, f, n, t, g, m, rfl, rfl⟩ | h
    · have hle : c.nesting ≤ d + 1 := by rcases hc with rfl | rfl <;> assumption
      rcases h with h | h <;> rw [h]
      · exact hle
      · rwa [nesting_orNil]
    · rw [record_meet_record]
      refine nesting_record_le.2 fun k v hv => ?_
      obtain ⟨x, y, hx, hy, rfl⟩ := find?_meetFields_eq_some.1 hv
      exact ih (nesting_record_le.1 ha k x hx) (nesting_record_le.1 hb k y hy)
    · omega

/-! ## Records from the sites of tuples -/

/-- Records that nest deeper than allowed are from one of the sites. -/
inductive Bounded (sites : SiteId → Prop) : Flow → Prop
  | shallow {a : Flow} (h : a.nesting ≤ maxNesting) : Bounded sites a
  | tuple {s : IdSet} {f : Fields Flow none} {n : Bool} {site : SiteId} (hmem : site ∈ s)
      (hsite : sites site) (hf : ∀ k v, f.find? k = some v → Bounded sites v) :
      Bounded sites (record s (some f) n)

namespace Bounded

variable {sites : SiteId → Prop} {a b : Flow}

/-- What does not nest is bounded. -/
theorem flat (h : a.nesting = 0) : a.Bounded sites := .shallow (h ▸ Nat.zero_le _)

/-- Without such sites there are no such records. -/
theorem nesting_le (h : a.Bounded sites) (hnone : ∀ site, ¬sites site) : a.nesting ≤ maxNesting := by
  cases h with
  | shallow h => exact h
  | tuple _ hsite _ => exact absurd hsite (hnone _)

/-- The fields of what is bounded are. -/
theorem field {s : IdSet} {f : Fields Flow none} {n : Bool} {k : String} {v : Flow}
    (h : (record s (some f) n).Bounded sites) (hv : f.find? k = some v) : v.Bounded sites := by
  cases h with
  | shallow h => exact .shallow ((nesting_field_lt hv).le.trans h)
  | tuple _ _ hf => exact hf k v hv

private theorem orNil (h : a.Bounded sites) : a.orNil.Bounded sites := by
  cases h with
  | shallow h => exact .shallow (by rwa [nesting_orNil])
  | tuple hmem hsite hf =>
    rw [orNil_record]
    exact .tuple hmem hsite hf

/-- What is bounded is so without nil. -/
theorem withoutNil (h : a.Bounded sites) : a.withoutNil.Bounded sites := by
  cases h with
  | shallow h => exact .shallow (by rwa [nesting_withoutNil])
  | tuple hmem hsite hf => exact .tuple hmem hsite hf

private theorem meet_shallow (ha : a.nesting ≤ maxNesting) (hb : b.Bounded sites) :
    (a.meet b).Bounded sites := by
  induction hb generalizing a with
  | shallow hb => exact .shallow (nesting_meet_le ha hb)
  | @tuple t g m site hmem hsite hg ih =>
    have hb : (record t (some g) m).Bounded sites := .tuple hmem hsite hg
    rcases meet_cases a (record t (some g) m) with ⟨c, hc, h⟩ | ⟨s, f, n, t, g, m, rfl, e⟩ | h
    · have hc' : c.Bounded sites := by
        rcases hc with rfl | rfl
        · exact .shallow ha
        · exact hb
      rcases h with h | h <;> rw [h]
      · exact hc'
      · exact hc'.orNil
    · cases e
      rw [record_meet_record]
      refine .tuple (IdSet.mem_union.2 (Or.inr hmem)) hsite fun k v hv => ?_
      obtain ⟨x, y, hx, hy, rfl⟩ := find?_meetFields_eq_some.1 hv
      exact ih k y hy ((nesting_field_lt hx).le.trans ha)
    · exact .flat h

/-- The meet of bounded flows is bounded. -/
theorem meet (ha : a.Bounded sites) (hb : b.Bounded sites) : (a.meet b).Bounded sites := by
  induction ha generalizing b with
  | shallow ha => exact meet_shallow ha hb
  | @tuple s f n site hmem hsite hf ih =>
    cases hb with
    | shallow hb =>
      rw [meet_comm]
      exact meet_shallow hb (.tuple hmem hsite hf)
    | tuple hmem' hsite' hg =>
      rw [record_meet_record]
      refine .tuple (IdSet.mem_union.2 (Or.inl hmem)) hsite fun k v hv => ?_
      obtain ⟨x, y, hx, hy, rfl⟩ := find?_meetFields_eq_some.1 hv
      exact ih k x hx (hg k y hy)

end Bounded

end Flow

/-! ## Flows of types -/

namespace Forest

/-- Under some records, the flow of a type nests as deep as is left and the base types in it nest, if
every record that is kept leaves enough for its fields.  `P` holds of the classes that are met. -/
theorem nestingBy_widestFrom {f : Forest} {p : IdSet → Bool} {n : Nat} {P : TermId → Prop}
    (hP : ∀ c slot x, P c → (f.kind c).child? slot = some x → P (f.rep x))
    (hbase : ∀ c flow, P c → f.kind c = .base flow → flow.nestingBy p ≤ n)
    (left : List IdSet → Nat) (hleft : ∀ sites above, above.count sites < 2 →
      above.length < Flow.maxNesting → left (sites :: above) + (if p sites then 1 else 0) ≤ left above)
    {fuel : Nat} {t : TermId} {above : List IdSet} {flow : Flow} (ht : P (f.rep t))
    (h : f.widestFrom fuel t above = some flow) : flow.nestingBy p ≤ left above + n := by
  induction fuel generalizing t above flow with
  | zero => cases h
  | succ fuel ih =>
    cases hk : f.kind (f.rep t) with
    | base own =>
      rw [widestFrom_base fuel above hk] at h
      cases h
      exact (hbase _ _ ht hk).trans (Nat.le_add_left n _)
    | nilable inner =>
      rw [widestFrom_nilable fuel above hk] at h
      obtain ⟨below, hbelow, rfl⟩ := Option.map_eq_some_iff.1 h
      rw [Flow.nestingBy_orNil]
      exact ih (hP _ .inner inner ht (by rw [hk]; rfl)) hbelow
    | record fields sites isOpen nil =>
      rw [widestFrom_record fuel above hk] at h
      split at h
      · cases h
        exact Nat.zero_le _
      · rename_i hkept
        obtain ⟨hcount, hlength⟩ := not_or.1 hkept
        have hsites := hleft sites above (Nat.lt_of_not_le hcount) (Nat.lt_of_not_le hlength)
        obtain ⟨flows, hflows, rfl⟩ := Option.map_eq_some_iff.1 h
        refine Flow.nestingBy_record_le (d := left (sites :: above) + n) (fun k v hv => ?_) (by omega)
        obtain ⟨child, hfield, hchild⟩ := Fields.find?_of_mapM? hflows hv
        exact ih (hP _ (.field k) child ht (by rw [hk]; exact hfield)) hchild
    | function args ret fids nil =>
      rw [widestFrom_function fuel above hk] at h
      cases h
      exact Nat.zero_le _
    | var =>
      rw [widestFrom_var fuel above hk] at h
      cases h
      exact Nat.zero_le _
    | error cause =>
      rw [widestFrom_error fuel above hk] at h
      cases h
      exact Nat.zero_le _
    | link target =>
      rw [widestFrom_link fuel above hk] at h
      cases h
      exact Nat.zero_le _

/-- Every record that is kept on the way down takes one from the nesting that is allowed. -/
theorem nesting_widest_le {f : Forest} {n : Nat} {P : TermId → Prop}
    (hP : ∀ c slot x, P c → (f.kind c).child? slot = some x → P (f.rep x))
    (hbase : ∀ c flow, P c → f.kind c = .base flow → flow.nesting ≤ n) {t : TermId} {flow : Flow}
    (ht : P (f.rep t)) (h : f.widest t = some flow) : flow.nesting ≤ Flow.maxNesting + n := by
  rw [← Flow.nestingBy_true]
  refine nestingBy_widestFrom hP (fun c own hc hk => ?_)
    (fun above => Flow.maxNesting - above.length) ?_ ht h
  · rw [Flow.nestingBy_true]
    exact hbase c own hc hk
  · intro sites above _ hlength
    rw [if_pos rfl, List.length_cons]
    omega

/-- A record is kept only if its sites stand at most once above it. -/
theorem nestingBy_widest_le {f : Forest} (sites : IdSet) {n : Nat} {P : TermId → Prop}
    (hP : ∀ c slot x, P c → (f.kind c).child? slot = some x → P (f.rep x))
    (hbase : ∀ c flow, P c → f.kind c = .base flow → flow.nestingBy (· == sites) ≤ n) {t : TermId}
    {flow : Flow} (ht : P (f.rep t)) (h : f.widest t = some flow) :
    flow.nestingBy (· == sites) ≤ 2 + n := by
  refine nestingBy_widestFrom hP hbase (fun above => 2 - above.count sites) ?_ ht h
  intro sites' above hcount _
  rw [List.count_cons]
  by_cases e : sites' = sites
  · subst e
    simp only [beq_self_eq_true, ↓reduceIte]
    omega
  · simp only [beq_eq_false_iff_ne.2 e, Bool.false_eq_true, ↓reduceIte]
    omega

end Forest

end TypeFlow
