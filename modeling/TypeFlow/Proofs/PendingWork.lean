import Mathlib.Data.Nat.Find
import TypeFlow.Proofs.Ceilings

/-!
# Histories of pending work

What is pending is told by what was asked of a worklist so far.  A history lists the nodes that were
pushed and those that were popped.  A node waits if it was pushed since it was last popped, and its
place among the nodes that wait is that of the first such push: pushing it again does not move it.

Main definitions:

- `Worklist.Request`, `Worklist.Event`: what is asked of a worklist, and what comes of it.
- `Worklist.Waits`, `Worklist.Enters`: a node waits according to a history, and since which push.
- `Worklist.Accounts`: a worklist is what its history tells.

Main results:

- `Worklist.Accounts.perform`: every request keeps a worklist what its history tells.
- `Worklist.work_conserved`: what is pending, and what is popped next, after any requests.
-/

namespace TypeFlow

namespace Worklist

/-! ## Histories -/

/-- What is asked of a worklist. -/
inductive Request
  | push (node : NodeId)
  | pushOptional (node? : Option NodeId)
  | pushAll (nodes : List NodeId)
  | pop

/-- A node came onto a worklist, or was taken off it. -/
inductive Event
  | pushed (node : NodeId)
  | popped (node : NodeId)

/-- The event takes a node off. -/
def Event.isPop : Event → Bool
  | pushed _ => false
  | popped _ => true

/-- A worklist with the events on it so far, oldest first. -/
structure Session where
  history : List Event
  work : Worklist

namespace Session

/-- A worklist on which nothing has happened. -/
def start (order : PopOrder) : Session := ⟨[], Worklist.empty order⟩

/-- The session after a request.  A pop that finds nothing is no event. -/
def perform (s : Session) : Request → Session
  | .push node => ⟨s.history ++ [.pushed node], s.work.push node⟩
  | .pushOptional node? => ⟨s.history ++ node?.toList.map Event.pushed, s.work.push? node?⟩
  | .pushAll nodes => ⟨s.history ++ nodes.map Event.pushed, s.work.pushAll nodes⟩
  | .pop =>
    match s.work.pop? with
    | none => s
    | some (node, rest) => ⟨s.history ++ [.popped node], rest⟩

/-- The session after requests to an empty worklist. -/
def after (order : PopOrder) (requests : List Request) : Session :=
  requests.foldl perform (start order)

end Session

/-- The node was pushed since it was last popped. -/
def Waits (history : List Event) (n : NodeId) : Prop :=
  ∃ i : Nat, history[i]? = some (.pushed n) ∧ ∀ j : Nat, i < j → history[j]? ≠ some (.popped n)

/-- The event at a position is the first push of the node since it was last popped. -/
structure Enters (history : List Event) (n : NodeId) (i : Nat) : Prop where
  pushed : history[i]? = some (.pushed n)
  stays : ∀ j, i < j → history[j]? ≠ some (.popped n)
  first : ∀ j < i, history[j]? = some (.pushed n) → ∃ k, j < k ∧ history[k]? = some (.popped n)

variable {history : List Event} {n m : NodeId} {i j : Nat}

private theorem Enters.waits (h : Enters history n i) : Waits history n := ⟨i, h.pushed, h.stays⟩

/-- A node that waits does so since a first push. -/
theorem Waits.exists_enters (h : Waits history n) : ∃ i, Enters history n i := by
  classical
  obtain ⟨hpushed, hstays⟩ := Nat.find_spec h
  refine ⟨Nat.find h, hpushed, hstays, fun j hj hpush => ?_⟩
  by_contra hnone
  exact Nat.find_min h hj ⟨hpush, fun k hk hpop => hnone ⟨k, hk, hpop⟩⟩

private theorem Enters.lt_length (h : Enters history n i) : i < history.length :=
  (List.getElem?_eq_some_iff.1 h.pushed).1

/-- A node waits since one push. -/
theorem Enters.unique (h : Enters history n i) (h' : Enters history n j) : i = j := by
  rcases Nat.lt_trichotomy i j with hlt | rfl | hlt
  · obtain ⟨k, hk, hpop⟩ := h'.first i hlt h.pushed
    exact absurd hpop (h.stays k hk)
  · rfl
  · obtain ⟨k, hk, hpop⟩ := h.first j hlt h'.pushed
    exact absurd hpop (h'.stays k hk)

/-! ## One more event -/

private theorem getElem?_concat_eq_some {e e' : Event} :
    (history ++ [e])[i]? = some e' ↔ history[i]? = some e' ∨ i = history.length ∧ e = e' := by
  grind

private theorem waits_pushed : Waits (history ++ [.pushed m]) n ↔ n = m ∨ Waits history n := by
  simp only [Waits, ne_eq, getElem?_concat_eq_some]
  constructor
  · rintro ⟨i, hpush | ⟨-, e⟩, hstays⟩
    · exact Or.inr ⟨i, hpush, fun j hj hpop => hstays j hj (Or.inl hpop)⟩
    · cases e
      exact Or.inl rfl
  · rintro (rfl | ⟨i, hpush, hstays⟩)
    · refine ⟨history.length, Or.inr ⟨rfl, rfl⟩, fun j hj => ?_⟩
      rintro (hpop | ⟨-, e⟩)
      · exact absurd (List.getElem?_eq_some_iff.1 hpop).1 (Nat.not_lt.2 hj.le)
      · cases e
    · refine ⟨i, Or.inl hpush, fun j hj => ?_⟩
      rintro (hpop | ⟨-, e⟩)
      · exact hstays j hj hpop
      · cases e

private theorem waits_popped : Waits (history ++ [.popped m]) n ↔ n ≠ m ∧ Waits history n := by
  simp only [Waits, ne_eq, getElem?_concat_eq_some]
  constructor
  · rintro ⟨i, hpush | ⟨-, e⟩, hstays⟩
    · refine ⟨fun e => ?_, i, hpush, fun j hj hpop => hstays j hj (Or.inl hpop)⟩
      exact hstays history.length (List.getElem?_eq_some_iff.1 hpush).1 (Or.inr ⟨rfl, by rw [e]⟩)
    · cases e
  · rintro ⟨hne, i, hpush, hstays⟩
    refine ⟨i, Or.inl hpush, fun j hj => ?_⟩
    rintro (hpop | ⟨-, e⟩)
    · exact hstays j hj hpop
    · cases e
      exact hne rfl

/-- A node that waits keeps its place until it is popped. -/
theorem Enters.concat {e : Event} (h : Enters history n i) (hwaits : Waits (history ++ [e]) n) :
    Enters (history ++ [e]) n i := by
  obtain ⟨i', hpush, hstays⟩ := hwaits
  refine ⟨getElem?_concat_eq_some.2 (Or.inl h.pushed), fun j hj hpop => ?_, fun j hj hpush => ?_⟩
  · rcases getElem?_concat_eq_some.1 hpop with hpop | ⟨rfl, rfl⟩
    · exact h.stays j hj hpop
    · refine hstays _ ?_ hpop
      rcases getElem?_concat_eq_some.1 hpush with hpush | ⟨-, e⟩
      · exact (List.getElem?_eq_some_iff.1 hpush).1
      · cases e
  · rcases getElem?_concat_eq_some.1 hpush with hpush | ⟨rfl, -⟩
    · obtain ⟨k, hk, hpop⟩ := h.first j hj hpush
      exact ⟨k, hk, getElem?_concat_eq_some.2 (Or.inl hpop)⟩
    · exact absurd h.lt_length (Nat.not_lt.2 hj.le)

/-- A node that did not wait enters last. -/
theorem enters_pushed (h : ¬Waits history n) :
    Enters (history ++ [.pushed n]) n history.length := by
  refine ⟨getElem?_concat_eq_some.2 (Or.inr ⟨rfl, rfl⟩), fun j hj hpop => ?_, fun j hj hpush => ?_⟩
  · rcases getElem?_concat_eq_some.1 hpop with hpop | ⟨-, e⟩
    · exact absurd (List.getElem?_eq_some_iff.1 hpop).1 (Nat.not_lt.2 hj.le)
    · cases e
  · rcases getElem?_concat_eq_some.1 hpush with hpush | ⟨rfl, -⟩
    · by_contra hnone
      refine h ⟨j, hpush, fun k hk hpop => hnone ⟨k, hk, ?_⟩⟩
      exact getElem?_concat_eq_some.2 (Or.inl hpop)
    · exact absurd hj (Nat.lt_irrefl _)

/-- Nodes that wait before and after an event are in the same order. -/
theorem Enters.lt_of_lt {e : Event} (hn : Waits history n) (hm : Waits history m)
    (hlt : ∀ i j, Enters history n i → Enters history m j → i < j) (i j : Nat)
    (hi : Enters (history ++ [e]) n i) (hj : Enters (history ++ [e]) m j) : i < j := by
  obtain ⟨i', hi'⟩ := hn.exists_enters
  obtain ⟨j', hj'⟩ := hm.exists_enters
  rw [hi.unique (hi'.concat hi.waits), hj.unique (hj'.concat hj.waits)]
  exact hlt i' j' hi' hj'

/-! ## Worklists and their histories -/

/-- A worklist is what its history tells: the nodes that wait are listed by their first pushes since
they were last popped. -/
structure Accounts (history : List Event) (work : Worklist) : Prop where
  waiting : ∀ n, n ∈ work.pending ↔ Waits history n
  ordered : work.pending.toList.Pairwise fun a b =>
    ∀ i j, Enters history a i → Enters history b j → i < j
  pops : work.pops = history.countP Event.isPop

private theorem accounts_empty (order : PopOrder) : Accounts [] (empty order) := by
  refine ⟨fun n => iff_of_false List.not_mem_nil ?_, .nil, rfl⟩
  rintro ⟨i, hpush, -⟩
  cases hpush

variable {work rest : Worklist}

private theorem Accounts.push (h : Accounts history work) (node : NodeId) :
    Accounts (history ++ [.pushed node]) (work.push node) where
  waiting n := by
    rw [waits_pushed, ← h.waiting]
    exact OrderedSet.mem_insert
  ordered := by
    have hstill : work.pending.toList.Pairwise fun a b => ∀ i j,
        Enters (history ++ [.pushed node]) a i → Enters (history ++ [.pushed node]) b j → i < j :=
      h.ordered.imp_of_mem fun ha hb =>
        Enters.lt_of_lt ((h.waiting _).1 ha) ((h.waiting _).1 hb)
    show (work.pending.insert node).toList.Pairwise _
    rw [OrderedSet.toList_insert]
    split
    · exact hstill
    · rename_i hnew
      refine List.pairwise_append.2 ⟨hstill, List.pairwise_singleton _ _, fun a ha b hb i j hi hj => ?_⟩
      rw [List.mem_singleton] at hb
      subst hb
      rw [h.waiting] at hnew
      obtain ⟨i', hi'⟩ := ((h.waiting a).1 ha).exists_enters
      rw [hi.unique (hi'.concat hi.waits), hj.unique (enters_pushed hnew)]
      exact hi'.lt_length
  pops := by
    rw [List.countP_append, ← h.pops]
    rfl

private theorem Accounts.pushAll (h : Accounts history work) (nodes : List NodeId) :
    Accounts (history ++ nodes.map Event.pushed) (work.pushAll nodes) := by
  induction nodes generalizing history work with
  | nil =>
    rw [List.map_nil, List.append_nil]
    exact h
  | cons node rest ih =>
    rw [List.map_cons, ← List.singleton_append, ← List.append_assoc]
    exact ih (h.push node)

/-- What is popped is the newest or the oldest of the nodes that wait, as the order has it. -/
theorem toList_of_pop? (h : work.pop? = some (n, rest)) :
    work.pending.toList = match work.order with
      | .lifo => rest.pending.toList ++ [n]
      | .fifo => n :: rest.pending.toList := by
  unfold pop? at h
  cases horder : work.order with
  | lifo =>
    rw [horder] at h
    obtain ⟨⟨a, left⟩, hpop, e⟩ := Option.map_eq_some_iff.1 h
    cases e
    exact OrderedSet.toList_of_popNewest? hpop
  | fifo =>
    rw [horder] at h
    obtain ⟨⟨a, left⟩, hpop, e⟩ := Option.map_eq_some_iff.1 h
    cases e
    exact OrderedSet.toList_of_popOldest? hpop

private theorem order_of_pop? (h : work.pop? = some (n, rest)) : rest.order = work.order := by
  unfold pop? at h
  split at h
  all_goals
    obtain ⟨_, -, e⟩ := Option.map_eq_some_iff.1 h
    cases e
    rfl

private theorem Accounts.pop (h : Accounts history work) (hpop : work.pop? = some (n, rest)) :
    Accounts (history ++ [.popped n]) rest where
  waiting m := by
    rw [(mem_of_pop? hpop).2, waits_popped, h.waiting, and_comm]
  ordered := by
    have hsub : rest.pending.toList.Sublist work.pending.toList := by
      rw [toList_of_pop? hpop]
      split
      · exact List.sublist_append_left _ _
      · exact List.sublist_cons_self _ _
    refine (h.ordered.sublist hsub).imp_of_mem fun ha hb => ?_
    exact Enters.lt_of_lt ((h.waiting _).1 (hsub.mem ha)) ((h.waiting _).1 (hsub.mem hb))
  pops := by
    rw [List.countP_append, ← h.pops, pops_of_pop? hpop]
    rfl

/-- Every request keeps a worklist what its history tells. -/
theorem Accounts.perform {s : Session} (h : Accounts s.history s.work) (request : Request) :
    Accounts (s.perform request).history (s.perform request).work := by
  cases request with
  | push node => exact h.push node
  | pushOptional node? =>
    cases node? with
    | none =>
      show Accounts (s.history ++ []) s.work
      rwa [List.append_nil]
    | some node => exact h.push node
  | pushAll nodes => exact h.pushAll nodes
  | pop =>
    unfold Session.perform
    dsimp only
    split
    · exact h
    · rename_i hpop
      exact h.pop hpop

/-- After any requests a worklist is what its history tells, and has the order that it was made with. -/
theorem accounts_after (order : PopOrder) (requests : List Request) :
    Accounts (Session.after order requests).history (Session.after order requests).work := by
  unfold Session.after
  induction requests using List.reverseRecOn with
  | nil => exact accounts_empty order
  | append_singleton requests request ih =>
    rw [List.foldl_append]
    exact ih.perform request

private theorem order_after (order : PopOrder) (requests : List Request) :
    (Session.after order requests).work.order = order := by
  have hperform : ∀ (s : Session) request, (s.perform request).work.order = s.work.order := by
    intro s request
    cases request with
    | pushOptional node? => cases node? <;> rfl
    | pop =>
      unfold Session.perform
      dsimp only
      split
      · rfl
      · rename_i hpop
        exact order_of_pop? hpop
    | _ => rfl
  unfold Session.after
  induction requests using List.reverseRecOn with
  | nil => rfl
  | append_singleton requests request ih =>
    rw [List.foldl_append]
    exact (hperform _ request).trans ih

/-- What is popped waits since the latest or since the earliest of all first pushes. -/
theorem Accounts.of_pop? (h : Accounts history work) (hpop : work.pop? = some (n, rest)) :
    ∃ i, Enters history n i ∧ ∀ m j, Enters history m j →
      match work.order with
      | .lifo => j ≤ i
      | .fifo => i ≤ j := by
  have hlist := toList_of_pop? hpop
  obtain ⟨i, hi⟩ := ((h.waiting n).1 (mem_of_pop? hpop).1).exists_enters
  refine ⟨i, hi, fun m j hj => ?_⟩
  have hm : m ∈ work.pending.toList := (h.waiting m).2 hj.waits
  have hordered := h.ordered
  cases horder : work.order with
  | lifo =>
    rw [horder] at hlist
    rw [hlist, List.pairwise_append] at hordered
    rw [hlist, List.mem_append, List.mem_singleton] at hm
    rcases hm with hm | rfl
    · exact (hordered.2.2 m hm n (List.mem_singleton_self n) j i hj hi).le
    · exact (hj.unique hi).le
  | fifo =>
    rw [horder] at hlist
    rw [hlist, List.pairwise_cons] at hordered
    rw [hlist, List.mem_cons] at hm
    rcases hm with rfl | hm
    · exact (hi.unique hj).le
    · exact (hordered.1 m hm i j hi hj).le

/-- After any requests to an empty worklist, a node is pending exactly if it was pushed since it was
last popped, and no node is listed twice.  Pushing a pending node changes nothing.  What is popped next
is, of the pending nodes, the one whose first push since its last pop is the latest, or the earliest if
the oldest is taken, and there is none only if no node is pending.  The worklist has counted the pops
that answered a node. -/
theorem work_conserved (order : PopOrder) (requests : List Request) :
    let s := Session.after order requests
    (∀ n, s.work.has n = true ↔ Waits s.history n) ∧ s.work.pending.toList.Nodup ∧
      (∀ n, s.work.has n = true → s.work.push n = s.work) ∧
      (match s.work.pop? with
        | none => ∀ n, ¬Waits s.history n
        | some (n, _) => ∃ i, Enters s.history n i ∧ ∀ m j, Enters s.history m j →
          match order with
          | .lifo => j ≤ i
          | .fifo => i ≤ j) ∧
      s.work.pops = s.history.countP Event.isPop := by
  intro s
  have h : Accounts s.history s.work := accounts_after order requests
  have hhas : ∀ n, s.work.has n = true ↔ n ∈ s.work.pending := fun n => OrderedSet.contains_eq_true
  refine ⟨fun n => (hhas n).trans (h.waiting n), s.work.pending.nodup_toList, fun n hn => ?_, ?_,
    h.pops⟩
  · have hpending : s.work.pending.insert n = s.work.pending := dif_pos hn
    rw [push, hpending]
  · split
    · rename_i hpop
      intro n hn
      exact not_mem_of_pop? hpop n ((h.waiting n).2 hn)
    · rename_i hpop
      have hnext := h.of_pop? hpop
      rwa [order_after order requests] at hnext

end Worklist

end TypeFlow
