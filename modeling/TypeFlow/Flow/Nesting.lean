import TypeFlow.Flow.Basic

/-!
# Bounded nesting of records

A record that holds a record of its own allocation site could be described ever deeper.
`Flow.truncate` forgets the layout of records below a depth, so that such descriptions end.
-/

namespace TypeFlow

/-- Records never nest deeper than this with a known layout. -/
def Flow.maxNesting : Nat := 8

mutual

/-- The flow with the layout of inner records forgotten: below `depth` records in all, of them
`seen` from the site, a record keeps its fields while at most `cutoff + 1` are from the site and
fewer than `maxNesting` stand above it. -/
def Flow.truncateAt (cutoff : Nat) (site : SiteId) : Flow → Nat → Nat → Flow
  | .record s (some f) n, seen, depth =>
    let seen := if s.contains site then seen + 1 else seen
    if cutoff + 1 < seen || Flow.maxNesting ≤ depth then .record s none n
    else .record s (some (Flow.truncateFields cutoff site f seen (depth + 1))) n
  | a, _, _ => a
  termination_by structural a => a

/-- Every entry truncated. -/
def Flow.truncateFields (cutoff : Nat) (site : SiteId) {bound : Option String} :
    Fields Flow bound → Nat → Nat → Fields Flow bound
  | .nil, _, _ => .nil
  | .cons l h v f, seen, depth =>
    .cons l h (Flow.truncateAt cutoff site v seen depth)
      (Flow.truncateFields cutoff site f seen depth)
  termination_by structural f => f

end

/-- The flow with at most `cutoff` records of the site nested below the outermost one. -/
def Flow.truncate (cutoff : Nat) (site : SiteId) (a : Flow) : Flow :=
  a.truncateAt cutoff site 0 0

end TypeFlow
