import TypeFlow.Expr.Parser

/-!
# What readers take off a text

A reader is followed in two directions: forward, from the text before it to what it takes off, and
back, from what it took off to what must have stood there.

Main definitions:

- `Parse.trim`: a text without its leading blanks.
- `Parse.Reads`: a reader takes a value off a text, and leaves the rest of it.
- `Parse.Yields`: whatever a reader takes off, a property holds of it and of the rest.
- `Parse.IsName`: the texts that are names.
-/

namespace TypeFlow

namespace Parse

variable {α β : Type}

/-- The text without its leading blanks. -/
def trim (text : List Char) : List Char := text.dropWhile isBlank

@[simp] theorem trim_nil : trim [] = [] := rfl

/-- What is not blank is not trimmed. -/
theorem trim_cons {c : Char} (h : isBlank c = false) (text : List Char) :
    trim (c :: text) = c :: text := by
  simp [trim, h]

@[simp] theorem trim_blank (text : List Char) : trim (' ' :: text) = trim text := rfl

/-- The first character after blanks is none. -/
theorem isBlank_of_head? {text : List Char} {c : Char} (h : (trim text).head? = some c) :
    isBlank c = false := by
  cases hblank : isBlank c with
  | false => rfl
  | true =>
    have := List.head?_dropWhile_not isBlank text
    rw [show text.dropWhile isBlank = trim text from rfl, h] at this
    simp [hblank] at this

@[simp] theorem trim_trim (text : List Char) : trim (trim text) = trim text := by
  cases h : trim text with
  | nil => rfl
  | cons c rest => exact trim_cons (isBlank_of_head? (by rw [h]; rfl)) rest

/-! ## Forward -/

/-- From the text, wherever it starts, the reader takes the value off and leaves the rest. -/
def Reads (m : ParseM α) (text : List Char) (a : α) (rest : List Char) : Prop :=
  ∀ offset, ∃ offset', m ⟨text, offset⟩ = ExceptT.mk (some (.ok (a, ⟨rest, offset'⟩)))

/-- Answering reads nothing. -/
theorem reads_pure (a : α) (text : List Char) : Reads (pure a) text a text :=
  fun offset => ⟨offset, rfl⟩

/-- Readers follow each other. -/
theorem Reads.bind {m : ParseM α} {f : α → ParseM β} {text rest rest' : List Char} {a : α} {b : β}
    (hm : Reads m text a rest) (hf : Reads (f a) rest b rest') : Reads (m >>= f) text b rest' := by
  intro offset
  obtain ⟨offset₁, h₁⟩ := hm offset
  obtain ⟨offset₂, h₂⟩ := hf offset₁
  refine ⟨offset₂, ?_⟩
  change ExceptT.bind (m ⟨text, offset⟩) (fun r => f r.1 r.2) = _
  rw [h₁, ← h₂]
  rfl

/-- Peeking answers the next character and reads nothing. -/
theorem reads_peek (text : List Char) : Reads peek text text.head? text :=
  fun offset => ⟨offset, rfl⟩

/-- What is read of the cursor is the text and some position. -/
theorem reads_get_bind {f : Cursor → ParseM β} {text rest : List Char} {b : β}
    (h : ∀ offset, Reads (f ⟨text, offset⟩) text b rest) : Reads (get >>= f) text b rest :=
  fun offset => h offset offset

/-- What follows is read from any position. -/
theorem reads_position_bind {f : Nat → ParseM β} {text rest : List Char} {b : β}
    (h : ∀ offset, Reads (f offset) text b rest) : Reads (position >>= f) text b rest :=
  fun offset => h offset offset

/-- Advancing reads a character. -/
theorem reads_advance (c : Char) (rest : List Char) : Reads advance (c :: rest) () rest :=
  fun offset => ⟨offset + c.utf8Size, rfl⟩

private theorem reads_takeRun (kind : Char → Bool) (text : List Char) :
    Reads (takeRun kind) text (text.takeWhile kind) (text.dropWhile kind) :=
  fun _ => ⟨_, rfl⟩

/-- The next character is the first that is not blank. -/
theorem reads_next (text : List Char) : Reads next text (trim text).head? (trim text) :=
  (reads_takeRun isBlank text).bind (reads_peek _)

section Tokens

variable {text rest : List Char} {c : Char}

/-- A character comes next, after blanks. -/
theorem reads_next_cons (h : trim text = c :: rest) : Reads next text (some c) (c :: rest) := by
  have := reads_next text
  rwa [h] at this

/-- It is read where there is one. -/
theorem reads_nextSome (h : trim text = c :: rest) : Reads nextSome text c (c :: rest) :=
  (reads_next_cons h).bind (reads_pure c _)

/-- A character that is required is read if it comes next. -/
theorem reads_require (h : trim text = c :: rest) : Reads (require c) text () rest := by
  refine (reads_next_cons h).bind ?_
  dsimp only
  rw [if_pos rfl]
  exact reads_advance c rest

/-- The text is a name. -/
structure IsName (x : String) : Prop where
  starts : ∃ c rest, x.toList = c :: rest ∧ startsName c = true
  goesOn : ∀ c ∈ x.toList, continuesName c = true

private theorem isName_iff {x : String} :
    (x.toList.head?.any startsName && x.toList.all continuesName) = true ↔ IsName x := by
  rw [Bool.and_eq_true, List.all_eq_true]
  constructor
  · rintro ⟨hstarts, hall⟩
    cases hx : x.toList with
    | nil =>
      rw [hx] at hstarts
      cases hstarts
    | cons c rest =>
      rw [hx] at hstarts
      exact ⟨⟨c, rest, hx, hstarts⟩, hall⟩
  · rintro ⟨⟨c, rest, hx, hstarts⟩, hall⟩
    refine ⟨?_, hall⟩
    rw [hx]
    exact hstarts

instance (x : String) : Decidable (IsName x) := decidable_of_iff _ isName_iff

private theorem takeWhile_append {kind : Char → Bool} {run : List Char} (hrun : ∀ c ∈ run, kind c = true)
    (hrest : ∀ c, rest.head? = some c → kind c = false) :
    (run ++ rest).takeWhile kind = run ∧ (run ++ rest).dropWhile kind = rest := by
  induction run with
  | nil =>
    cases rest with
    | nil => simp
    | cons c rest => simp [hrest c rfl]
  | cons c run ih =>
    obtain ⟨htake, hdrop⟩ := ih fun d hd => hrun d (List.mem_cons_of_mem c hd)
    have hc := hrun c List.mem_cons_self
    simp [hc, htake, hdrop]

/-- A run of characters ends where another comes. -/
theorem reads_run {kind : Char → Bool} {run : List Char} (hrun : ∀ c ∈ run, kind c = true)
    (hrest : ∀ c, rest.head? = some c → kind c = false) :
    Reads (takeRun kind) (run ++ rest) run rest := by
  obtain ⟨htake, hdrop⟩ := takeWhile_append hrun hrest
  have := reads_takeRun kind (run ++ rest)
  rwa [htake, hdrop] at this

/-- A name is read up to what does not continue it. -/
theorem reads_name {x : String} (hx : IsName x) (h : trim text = x.toList ++ rest)
    (hrest : ∀ c, rest.head? = some c → continuesName c = false) : Reads name text x rest := by
  obtain ⟨c, tail, hc, hstarts⟩ := hx.starts
  have htext : trim text = c :: (tail ++ rest) := by rw [h, hc, List.cons_append]
  refine (reads_next_cons htext).bind ?_
  dsimp only
  rw [if_pos hstarts]
  have hrun : Reads (takeRun continuesName) (c :: (tail ++ rest)) x.toList rest := by
    rw [← htext, h]
    exact reads_run hx.goesOn hrest
  refine hrun.bind ?_
  rw [String.ofList_toList]
  exact reads_pure x rest

end Tokens

/-! ## Back -/

/-- A reader has a result after another has one. -/
theorem bind_eq_ok {m : ParseM α} {f : α → ParseM β} {c d : Cursor} {b : β} :
    (m >>= f) c = ExceptT.mk (some (.ok (b, d))) ↔
      ∃ a c', m c = ExceptT.mk (some (.ok (a, c'))) ∧ f a c' = ExceptT.mk (some (.ok (b, d))) := by
  change ExceptT.bind (m c) (fun r => f r.1 r.2) = _ ↔ _
  rcases h : m c with _ | _ | ⟨a, c'⟩
  · constructor
    · intro h
      cases h
    · rintro ⟨a, c', h, -⟩
      cases h
  · constructor
    · intro h
      cases h
    · rintro ⟨a, c', h, -⟩
      cases h
  · constructor
    · exact fun hf => ⟨a, c', rfl, hf⟩
    · rintro ⟨_, _, h, hf⟩
      cases h
      exact hf

/-- A reader that only answers leaves the cursor alone. -/
theorem pure_eq_ok {a b : α} {c d : Cursor} :
    (pure a : ParseM α) c = ExceptT.mk (some (.ok (b, d))) ↔ a = b ∧ c = d := by
  constructor
  · intro h
    cases h
    exact ⟨rfl, rfl⟩
  · rintro ⟨rfl, rfl⟩
    rfl

/-- Whatever the reader takes off, the property holds of it and of the rest. -/
def Yields (m : ParseM α) (P : α → List Char → Prop) : Prop :=
  ∀ c a d, m c = ExceptT.mk (some (.ok (a, d))) → P a d.rest

section Yields

variable {m : ParseM α} {f : α → ParseM β} {P : α → List Char → Prop} {Q : β → List Char → Prop}

/-- What is yielded satisfies any weaker condition. -/
theorem Yields.mono {P' : α → List Char → Prop} (h : Yields m P) (hP : ∀ a t, P a t → P' a t) :
    Yields m P' :=
  fun c a d hm => hP a d.rest (h c a d hm)

/-- An answer is yielded. -/
theorem yields_pure {a : α} (h : ∀ t, P a t) : Yields (pure a) P := by
  intro c b d hb
  obtain ⟨rfl, rfl⟩ := pure_eq_ok.1 hb
  exact h _

/-- An error yields nothing. -/
theorem yields_throw (e : ParseError) : Yields (throw e : ParseM α) P := by
  intro c b d h
  cases h

/-- Neither does being cut off. -/
theorem yields_cutOff : Yields (cutOff : ParseM α) P := by
  intro c b d h
  cases h

/-- What is known of the first result may be used of the second. -/
theorem yields_bind (hm : Yields m P) (hf : ∀ a t, P a t → Yields (f a) Q) :
    Yields (m >>= f) Q := by
  intro c b d h
  obtain ⟨a, c', ha, hb⟩ := bind_eq_ok.1 h
  exact hf a c'.rest (hm c a c' ha) c' b d hb

/-- Any reader yields something or nothing. -/
theorem yields_any (m : ParseM α) : Yields m fun _ _ => True := fun _ _ _ _ => trivial

/-- Either branch yields what it does. -/
theorem yields_ite {p : Prop} [Decidable p] {m m' : ParseM α} (hm : p → Yields m P)
    (hm' : ¬p → Yields m' P) : Yields (if p then m else m') P := by
  split
  · exact hm ‹_›
  · exact hm' ‹_›

end Yields

/-! ## Points -/

/-- The text starts with a point and a digit. -/
def startsFraction (text : List Char) : Bool :=
  text.head? == some '.' && text.tail.head?.any Char.isDigit

/-- Digits before a point and a digit: there are none. -/
theorem dropWhile_of_startsFraction {text : List Char} (h : startsFraction text = true) :
    text.takeWhile Char.isDigit = [] ∧ text.dropWhile Char.isDigit = text := by
  cases text with
  | nil => exact ⟨rfl, rfl⟩
  | cons c rest =>
    simp only [startsFraction, List.head?_cons, Bool.and_eq_true, beq_iff_eq, Option.some_inj] at h
    obtain rfl := h.1
    exact ⟨rfl, rfl⟩

/-- Whether a fraction follows is told by the rest of the text. -/
theorem fractionFollows_apply (c : Cursor) :
    fractionFollows c = ExceptT.mk (some (.ok (startsFraction c.rest, c))) := by
  refine bind_eq_ok.2 ⟨c, c, rfl, ?_⟩
  rcases hrest : c.rest with _ | ⟨y, _ | ⟨x, rest⟩⟩
  · rfl
  · by_cases hy : y = '.'
    · subst hy
      rfl
    · simp [startsFraction]
      rfl
  · by_cases hy : y = '.'
    · subst hy
      rfl
    · simp [startsFraction, hy, beq_eq_false_iff_ne.2 hy]
      rfl

/-- Finding that out reads nothing. -/
theorem reads_fractionFollows (text : List Char) :
    Reads fractionFollows text (startsFraction text) text :=
  fun offset => ⟨offset, fractionFollows_apply ⟨text, offset⟩⟩

end Parse

end TypeFlow
