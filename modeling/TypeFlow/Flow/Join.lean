import TypeFlow.Flow.Basic

/-!
# Intersections of flows

`Flow.join` describes the values that two flows have in common.  Where the exact intersection is
no flow it is rounded down to one that still covers it; where nothing is left it is `any`.
-/

namespace TypeFlow

mutual

/-- The values described by both flows. -/
def Flow.join : Flow → Flow → Flow
  | .any, _ => .any
  | _, .any => .any
  | .scalar true, b => b
  | a, .scalar true => a
  | .scalar false, b => b.withoutNil
  | a, .scalar false => a.withoutNil
  | .record s (some f) n, .record t (some g) m =>
    let a : Flow := .record s (some f) n
    let b : Flow := .record t (some g) m
    if a.covers b then a
    else if b.covers a then b
    else
      let sites := s.inter t
      if sites.isEmpty then .any
      else .record sites (some ((Flow.joinShared f g).union g)) (n && m)
  | a, b =>
    if a.covers b then a
    else if b.covers a then b
    else
      match a, b with
      | .int i, .int j => (i.join j).elim .any .int
      | .float x, .float y => (x.join y).elim .any .float
      | .text c n, .text d m =>
        if c.isSome && d.isSome && c != d then .any else .text (c.or d) (n && m)
      | .function s n, .function t m =>
        let common := s.inter t
        if common.isEmpty then .any else .function common (n && m)
      | .record s f n, .record t g m =>
        let sites := s.inter t
        if sites.isEmpty then .any else .record sites (f.or g) (n && m)
      | _, _ => .any
  termination_by structural a => a

/-- The first entries, each joined with the second flow of its label if there is one. -/
def Flow.joinShared {bound bound' : Option String} :
    Fields Flow bound → Fields Flow bound' → Fields Flow bound
  | .nil, _ => .nil
  | .cons l h v f, g =>
    match g.find? l with
    | some w => .cons l h (Flow.join v w) (Flow.joinShared f g)
    | none => .cons l h v (Flow.joinShared f g)
  termination_by structural f => f

end

end TypeFlow
