import TypeFlow.Proofs.Cursors
import TypeFlow.Proofs.Readers

/-!
# Readers that only move on

The recursion of the readers is never cut off: an expression takes at least one character, so the
loops and the nested expressions of a text are fewer than its characters.  On the way the cursor
stays in the text and does not move back, and every error names a position of the text.

Main definitions:

- `Parse.Forward`: from a cursor the reader takes a value off and moves on, or it reports an error.
- `Parse.Advances`: the same, told by positions.
- `Parse.ForwardReaders`: every reader of expressions advances at a cursor.

Main results:

- `Parse.forward_atom`, `Parse.forward_expression`: an expression takes at least one character.
- `Expr.parse_forward`: every text is a program or has an error that points into it.
-/

namespace TypeFlow

namespace Parse

variable {α β : Type} {text : String}

/-- At the cursor the reader takes a value off and leaves a cursor further on, of which the property
holds, or it reports an error that points into the text. -/
def Forward (text : String) (m : ParseM α) (c : Cursor) (P : α → Cursor → Prop) : Prop :=
  (∃ a d, m c = ExceptT.mk (some (.ok (a, d))) ∧ c.Ahead d ∧ P a d) ∨
    ∃ e : ParseError, m c = ExceptT.mk (some (.error e)) ∧ e.PointsInto text

section Forward

variable {m : ParseM α} {f : α → ParseM β} {c : Cursor} {P P' : α → Cursor → Prop}
  {Q : β → Cursor → Prop}

private theorem Forward.mono (h : Forward text m c P) (hP : ∀ a d, c.Ahead d → P a d → P' a d) :
    Forward text m c P' := by
  rcases h with ⟨a, d, hm, hd, ha⟩ | herror
  · exact .inl ⟨a, d, hm, hd, hP a d hd ha⟩
  · exact .inr herror

private theorem forward_pure {a : α} (h : P a c) : Forward text (pure a) c P := .inl ⟨a, c, rfl, .refl c, h⟩

private theorem forward_throw {e : ParseError} (h : e.PointsInto text) :
    Forward text (throw e : ParseM α) c P := .inr ⟨e, rfl, h⟩

private theorem Forward.bind (hm : Forward text m c P)
    (hf : ∀ a d, c.Ahead d → P a d → Forward text (f a) d Q) : Forward text (m >>= f) c Q := by
  rcases hm with ⟨a, d, hm, hd, ha⟩ | ⟨e, hm, he⟩
  · have hrun : (m >>= f) c = f a d := by
      change ExceptT.bind (m c) (fun r => f r.1 r.2) = _
      rw [hm]
      rfl
    rcases hf a d hd ha with ⟨b, d', hb, hd', hQ⟩ | ⟨e, hb, he⟩
    · exact .inl ⟨b, d', hrun.trans hb, hd.trans hd', hQ⟩
    · exact .inr ⟨e, hrun.trans hb, he⟩
  · refine .inr ⟨e, ?_, he⟩
    change ExceptT.bind (m c) (fun r => f r.1 r.2) = _
    rw [hm]
    rfl

/-- A reader that only looks at the cursor leaves it to the next. -/
theorem Forward.look {a : α} (hm : m c = ExceptT.mk (some (.ok (a, c))))
    (hf : Forward text (f a) c Q) : Forward text (m >>= f) c Q := by
  have hlook : Forward text m c fun b d => b = a ∧ d = c := .inl ⟨a, c, hm, .refl c, rfl, rfl⟩
  refine hlook.bind fun b d _ hb => ?_
  obtain ⟨rfl, rfl⟩ := hb
  exact hf

private theorem forward_ite {p : Prop} [Decidable p] {m m' : ParseM α} (hm : p → Forward text m c P)
    (hm' : ¬p → Forward text m' c P) : Forward text (if p then m else m') c P := by
  split
  · exact hm ‹_›
  · exact hm' ‹_›

end Forward

/-! ## Signs -/

section Signs

variable {c : Cursor}

private theorem forward_advance (c : Cursor) : Forward text advance c fun _ d => d = c.advance :=
  .inl ⟨(), c.advance, rfl, Cursor.ahead_advance c, rfl⟩

private theorem foldl_utf8Size (run : List Char) (offset : Nat) :
    run.foldl (fun n c => n + c.utf8Size) offset = offset + String.utf8Len run := by
  induction run generalizing offset with
  | nil => rfl
  | cons c run ih =>
    rw [List.foldl_cons, ih, String.utf8Len_cons]
    omega

private theorem forward_takeRun (kind : Char → Bool) (c : Cursor) :
    Forward text (takeRun kind) c fun a d =>
      a = c.rest.takeWhile kind ∧ d.rest = c.rest.dropWhile kind :=
  .inl ⟨_, ⟨_, _⟩, rfl, ⟨c.rest.takeWhile kind, List.takeWhile_append_dropWhile.symm,
    foldl_utf8Size _ _⟩, rfl, rfl⟩

/-- A run that there is takes a character. -/
theorem left_lt_of_dropWhile {kind : Char → Bool} {d : Cursor} {x : Char}
    (hx : c.rest.head? = some x) (hkind : kind x = true) (hd : d.rest = c.rest.dropWhile kind) :
    d.left < c.left := by
  obtain ⟨rest, hrest⟩ := List.head?_eq_some_iff.1 hx
  rw [Cursor.left, Cursor.left, hd, hrest, List.dropWhile_cons_of_pos hkind, List.length_cons]
  exact Nat.lt_succ_of_le ((List.dropWhile_sublist kind).length_le)

private theorem forward_next (c : Cursor) :
    Forward text next c fun a d =>
      a = d.rest.head? ∧ ∀ x, d.rest.head? = some x → isBlank x = false := by
  refine (forward_takeRun isBlank c).bind fun _ d _ hrun => ?_
  refine .inl ⟨d.rest.head?, d, rfl, .refl d, rfl, fun x hx => ?_⟩
  rw [hrun.2] at hx
  exact isBlank_of_head? hx

private theorem forward_nextSome (c : Cursor) :
    Forward text nextSome c fun a d => d.rest.head? = some a ∧ isBlank a = false := by
  refine (forward_next c).bind fun o d _ ho => ?_
  obtain ⟨rfl, hblank⟩ := ho
  cases hx : d.rest.head? with
  | none => exact forward_throw (.of_offset_le (fun _ h => by cases h) (by simp))
  | some x => exact forward_pure ⟨hx, hblank x hx⟩

/-- An error about a missing sign or name at a cursor. -/
theorem forward_throw_at {e : Nat → ParseError} {P : α → Cursor → Prop} (h : c.In text)
    (hoffset : ∀ n, (e n).offset? = some n)
    (hsign : ∀ k n, e k ≠ .unknownForm n ∧ e k ≠ .trailing n) :
    Forward text (position >>= fun n => throw (e n)) c P := by
  refine .look rfl (forward_throw (.of_offset_le (fun k hk => ?_) (hsign c.offset)))
  rw [hoffset] at hk
  cases hk
  exact h.offset_le

private theorem forward_require (sign : Char) (h : c.In text) :
    Forward text (require sign) c fun _ d => d.left < c.left := by
  refine (forward_next c).bind fun o d hd ho => ?_
  obtain ⟨rfl, -⟩ := ho
  have hmissing : Forward text (position >>= fun n => throw (.expected sign n) : ParseM Unit) d
      fun _ d => d.left < c.left :=
    forward_throw_at (h.ahead hd) (fun _ => rfl) (by simp)
  cases hx : d.rest.head? with
  | none => exact hmissing
  | some x =>
    refine forward_ite (fun _ => (forward_advance d).mono ?_) fun _ => hmissing
    rintro _ _ - rfl
    exact (Cursor.left_advance_lt hx).trans_le hd.left_le

private theorem forward_name (h : c.In text) : Forward text name c fun _ d => d.left < c.left := by
  refine (forward_next c).bind fun o d hd ho => ?_
  obtain ⟨rfl, -⟩ := ho
  have hmissing : Forward text (position >>= fun n => throw (.missingName n) : ParseM String) d
      fun _ d => d.left < c.left :=
    forward_throw_at (h.ahead hd) (fun _ => rfl) (by simp)
  cases hx : d.rest.head? with
  | none => exact hmissing
  | some x =>
    refine forward_ite (fun hstarts => ?_) fun _ => hmissing
    refine (forward_takeRun continuesName d).bind fun _ d' _ hrun => forward_pure ?_
    refine (left_lt_of_dropWhile hx ?_ hrun.2).trans_le hd.left_le
    simp [continuesName, hstarts]

end Signs

/-! ## Literals -/

section Literals

variable {c : Cursor}

/-- Digits that start at a position of the text take a character if one is a digit. -/
theorem forward_digits {start : Nat} (hstart : start ≤ text.utf8ByteSize) (c : Cursor) :
    Forward text (digits start) c fun _ d =>
      ∀ x, c.rest.head? = some x → x.isDigit = true → d.left < c.left := by
  refine (forward_takeRun Char.isDigit c).bind fun _ d _ hrun => ?_
  have hleft : ∀ x, c.rest.head? = some x → x.isDigit = true → d.left < c.left :=
    fun x hx hdigit => left_lt_of_dropWhile hx hdigit hrun.2
  refine .look (fractionFollows_apply d) ?_
  refine forward_ite (fun _ => ?_) fun _ => forward_ite (fun _ => forward_pure hleft) fun _ => ?_
  · refine (forward_advance d).bind fun _ d₁ hd₁ _ => ?_
    refine (forward_takeRun Char.isDigit d₁).bind fun _ d₂ hd₂ _ => forward_pure ?_
    exact fun x hx hdigit => (hd₁.trans hd₂).left_le.trans_lt (hleft x hx hdigit)
  · refine forward_throw (.of_offset_le (fun n hn => ?_) (by simp))
    cases hn
    exact hstart

/-- A number, at whose first digit the cursor stands, takes a character. -/
theorem forward_number {x : Char} (h : c.In text) (hx : c.rest.head? = some x)
    (hdigit : x.isDigit = true) : Forward text number c fun _ d => d.left < c.left := by
  refine .look rfl (.look rfl ?_)
  refine forward_ite (fun _ => ?_) fun _ => ?_
  · refine (forward_advance c).bind fun _ d _ hd => ?_
    have hleft : d.left < c.left := hd ▸ Cursor.left_advance_lt hx
    refine .look (fractionFollows_apply d) ?_
    refine forward_ite (fun _ => ?_) fun _ => forward_pure hleft
    exact (forward_digits h.offset_le _).mono fun _ _ hd' _ => hd'.left_le.trans_lt hleft
  · exact (forward_digits h.offset_le _).mono fun _ _ _ hd => hd x hx hdigit

/-- A text, at whose opening quote the cursor stands, takes a character. -/
theorem forward_quotedText (h : c.In text) (hx : c.rest.head? = some '"') :
    Forward text quotedText c fun _ d => d.left < c.left := by
  refine (forward_advance c).bind fun _ c₁ h₁ hc₁ => ?_
  have hleft : c₁.left < c.left := hc₁ ▸ Cursor.left_advance_lt hx
  refine (forward_takeRun _ c₁).bind fun _ c₂ h₂ _ => ?_
  refine .look rfl ?_
  have h₂' := h₁.trans h₂
  cases c₂.rest.head? with
  | none => exact forward_throw_at (h.ahead h₂') (fun _ => rfl) (by simp)
  | some x =>
    refine (forward_advance c₂).bind fun _ c₃ h₃ _ => forward_pure ?_
    exact (h₂.trans h₃).left_le.trans_lt hleft

end Literals

/-! ## Compound forms

The parts are expressions that start where fewer than some number of characters are left.  A loop
takes a character a turn, so it ends within as many turns as characters are left. -/

/-- Wherever fewer characters are left, the reader takes at least one of them. -/
def TakesOne (text : String) (n : Nat) (part : ParseM α) : Prop :=
  ∀ c : Cursor, c.In text → c.left < n → Forward text part c fun _ d => d.left < c.left

/-- A sign that closes a list is passed. -/
theorem forward_close {c c₁ : Cursor} {x : Char} (a : α) (h₁ : c.Ahead c₁)
    (hx : c₁.rest.head? = some x) :
    Forward text (advance >>= fun _ => pure a) c₁ fun _ d => d.left < c.left := by
  refine (forward_advance c₁).bind fun _ d _ hd => forward_pure ?_
  rw [hd]
  exact (Cursor.left_advance_lt hx).trans_le h₁.left_le

section Forms

variable {part : ParseM Expr} {n fuel : Nat} {c : Cursor}

private theorem forward_arguments (hpart : TakesOne text n part) (h : c.In text) (hn : c.left < n)
    (hfuel : c.left < fuel) : Forward text (arguments part fuel) c fun _ d => d.left < c.left := by
  induction fuel generalizing c with
  | zero => exact absurd hfuel (Nat.not_lt_zero _)
  | succ fuel ih =>
    refine (forward_nextSome c).bind fun x c₁ h₁ hx => ?_
    refine forward_ite (fun _ => forward_close [] h₁ hx.1) fun _ => ?_
    have hle := h₁.left_le
    refine (hpart c₁ (h.ahead h₁) (by omega)).bind fun e c₂ h₂ hlt => ?_
    have hturn := ih (h.ahead (h₁.trans h₂)) (by omega) (by omega)
    exact hturn.bind fun _ c₃ _ hlt₃ => forward_pure (by omega)

private theorem forward_parameters (h : c.In text) (hfuel : c.left < fuel) :
    Forward text (parameters fuel) c fun _ d => d.left < c.left := by
  induction fuel generalizing c with
  | zero => exact absurd hfuel (Nat.not_lt_zero _)
  | succ fuel ih =>
    refine (forward_nextSome c).bind fun x c₁ h₁ hx => ?_
    refine forward_ite (fun _ => forward_close [] h₁ hx.1) fun _ => ?_
    have hle := h₁.left_le
    refine (forward_name (h.ahead h₁)).bind fun x c₂ h₂ hlt => ?_
    have hturn := ih (h.ahead (h₁.trans h₂)) (by omega)
    exact hturn.bind fun _ c₃ _ hlt₃ => forward_pure (by omega)

private theorem forward_entries (hpart : TakesOne text n part) (h : c.In text) (hn : c.left < n)
    (hfuel : c.left < fuel) : Forward text (entries part fuel) c fun _ d => d.left < c.left := by
  induction fuel generalizing c with
  | zero => exact absurd hfuel (Nat.not_lt_zero _)
  | succ fuel ih =>
    refine (forward_nextSome c).bind fun x c₁ h₁ hx => ?_
    refine forward_ite (fun _ => forward_close [] h₁ hx.1) fun _ => ?_
    have hle := h₁.left_le
    refine (forward_name (h.ahead h₁)).bind fun label c₂ h₂ hlt₂ => ?_
    have hin₂ := h.ahead (h₁.trans h₂)
    refine (forward_require '=' hin₂).bind fun _ c₃ h₃ hlt₃ => ?_
    refine (hpart c₃ (hin₂.ahead h₃) (by omega)).bind fun e c₄ h₄ hlt₄ => ?_
    have hin₄ := (hin₂.ahead h₃).ahead h₄
    refine (forward_next c₄).bind fun o c₅ h₅ _ => ?_
    have hle₅ := h₅.left_le
    -- Whether a comma is passed or not, what follows is the next turn.
    have hturn : ∀ c₆, c₅.Ahead c₆ → Forward text
        (entries part fuel >>= fun rest => pure ((label, e) :: rest)) c₆
        fun _ d => d.left < c.left := by
      intro c₆ h₆
      have hle₆ := h₆.left_le
      refine (ih (hin₄.ahead (h₅.trans h₆)) (by omega) (by omega)).bind fun _ c₇ _ hlt₇ => ?_
      exact forward_pure (by omega)
    exact forward_ite (fun _ => (forward_advance c₅).bind fun _ c₆ h₆ _ => hturn c₆ h₆)
      fun _ => hturn c₅ (.refl c₅)

/-- A call, at whose opening parenthesis the cursor stands. -/
theorem forward_callForm (hpart : TakesOne text n part) (h : c.In text) (hn : c.left ≤ n)
    (hx : c.rest.head? = some '(') : Forward text (callForm part) c fun _ d => d.left < c.left := by
  refine (forward_advance c).bind fun _ c₁ h₁ hc₁ => ?_
  have hlt₁ : c₁.left < c.left := hc₁ ▸ Cursor.left_advance_lt hx
  refine (hpart c₁ (h.ahead h₁) (by omega)).bind fun fn c₂ h₂ hlt₂ => ?_
  refine .look rfl ?_
  have hin := h.ahead (h₁.trans h₂)
  refine (forward_arguments hpart hin (by omega) (Nat.lt_succ_self _)).bind fun args c₃ _ hlt₃ => ?_
  exact forward_pure (by omega)

/-- A function, at whose opening brace the cursor stands. -/
theorem forward_functionForm (hpart : TakesOne text n part) (h : c.In text) (hn : c.left ≤ n)
    (hx : c.rest.head? = some '\x7b') :
    Forward text (functionForm part) c fun _ d => d.left < c.left := by
  refine (forward_advance c).bind fun _ c₁ h₁ hc₁ => ?_
  have hlt₁ : c₁.left < c.left := hc₁ ▸ Cursor.left_advance_lt hx
  refine .look rfl ?_
  have hin₁ := h.ahead h₁
  refine (forward_parameters hin₁ (Nat.lt_succ_self _)).bind fun params c₂ h₂ hlt₂ => ?_
  refine .look rfl ?_
  have hin₂ := hin₁.ahead h₂
  refine forward_ite (fun _ => ?_) fun _ => forward_throw_at hin₂ (fun _ => rfl) (by simp)
  refine (forward_advance _).bind fun _ c₃ h₃ _ => ?_
  have hle₃ := h₃.left_le
  have hin₃ := hin₂.ahead h₃
  refine (hpart c₃ hin₃ (by omega)).bind fun body c₄ h₄ hlt₄ => ?_
  refine (forward_require '\x7d' (hin₃.ahead h₄)).bind fun _ c₅ _ hlt₅ => ?_
  exact forward_pure (by omega)

/-- A record, at whose sign the cursor stands. -/
theorem forward_recordForm (hpart : TakesOne text n part) (h : c.In text) (hn : c.left ≤ n)
    (hx : c.rest.head? = some '@') :
    Forward text (recordForm part) c fun _ d => d.left < c.left := by
  refine (forward_advance c).bind fun _ c₁ h₁ hc₁ => ?_
  have hlt₁ : c₁.left < c.left := hc₁ ▸ Cursor.left_advance_lt hx
  have hin₁ := h.ahead h₁
  refine (forward_require '\x7b' hin₁).bind fun _ c₂ h₂ hlt₂ => ?_
  refine .look rfl ?_
  have hin₂ := hin₁.ahead h₂
  refine (forward_entries hpart hin₂ (by omega) (Nat.lt_succ_self _)).bind fun es c₃ _ hlt₃ => ?_
  exact forward_pure (by omega)

/-- A definition, a primitive or an identifier. -/
theorem forward_namedForm (hpart : TakesOne text n part) (h : c.In text) (hn : c.left ≤ n) :
    Forward text (namedForm part) c fun _ d => d.left < c.left := by
  refine (forward_name h).bind fun x c₁ h₁ hlt₁ => ?_
  have hin₁ := h.ahead h₁
  refine (forward_next c₁).bind fun o c₂ h₂ _ => ?_
  have hle₂ := h₂.left_le
  have hin₂ := hin₁.ahead h₂
  refine forward_ite (fun _ => ?_) fun _ => ?_
  · refine (forward_advance c₂).bind fun _ c₃ h₃ _ => ?_
    have hle₃ := h₃.left_le
    have hin₃ := hin₂.ahead h₃
    refine (hpart c₃ hin₃ (by omega)).bind fun definition c₄ h₄ hlt₄ => ?_
    have hin₄ := hin₃.ahead h₄
    refine (forward_require ';' hin₄).bind fun _ c₅ h₅ hlt₅ => ?_
    refine (hpart c₅ (hin₄.ahead h₅) (by omega)).bind fun body c₆ _ hlt₆ => ?_
    exact forward_pure (by omega)
  · cases Primitive.ofName? x with
    | some p => exact forward_pure (by omega)
    | none => exact forward_pure (by omega)

/-- An expression without loads takes a character, if its parts do. -/
theorem forward_atom (hpart : TakesOne text n part) (h : c.In text) (hn : c.left ≤ n) :
    Forward text (atom part) c fun _ d => d.left < c.left := by
  refine (forward_nextSome c).bind fun x c₁ h₁ hx => ?_
  obtain ⟨hx, hblank⟩ := hx
  have hle₁ := h₁.left_le
  have hin := h.ahead h₁
  have hn₁ : c₁.left ≤ n := hle₁.trans hn
  have hfrom : ∀ {m : ParseM Expr}, (Forward text m c₁ fun _ d => d.left < c₁.left) →
      Forward text m c₁ fun _ d => d.left < c.left :=
    fun hm => hm.mono fun _ _ _ hlt => hlt.trans_le hle₁
  refine forward_ite (fun hdigit => hfrom (forward_number hin hx hdigit)) fun _ => ?_
  refine forward_ite (fun hsign => hfrom (forward_quotedText hin (hsign ▸ hx))) fun _ => ?_
  refine forward_ite (fun hsign => hfrom (forward_callForm hpart hin hn₁ (hsign ▸ hx))) fun _ => ?_
  refine forward_ite (fun hsign => hfrom (forward_functionForm hpart hin hn₁ (hsign ▸ hx)))
    fun _ => ?_
  refine forward_ite (fun hsign => hfrom (forward_recordForm hpart hin hn₁ (hsign ▸ hx)))
    fun _ => ?_
  refine forward_ite (fun _ => hfrom (forward_namedForm hpart hin hn₁)) fun _ => ?_
  exact .look rfl (forward_throw (.sign hin hx hblank (.inl rfl)))

private theorem forward_loads (e : Expr) (h : c.In text) (hfuel : c.left < fuel) :
    Forward text (loads fuel e) c fun _ _ => True := by
  induction fuel generalizing c e with
  | zero => exact absurd hfuel (Nat.not_lt_zero _)
  | succ fuel ih =>
    refine (forward_next c).bind fun o c₁ h₁ _ => ?_
    have hin₁ := h.ahead h₁
    have hle₁ := h₁.left_le
    refine forward_ite (fun _ => ?_) fun _ => forward_pure trivial
    refine (forward_advance c₁).bind fun _ c₂ h₂ _ => ?_
    have hin₂ := hin₁.ahead h₂
    have hle₂ := h₂.left_le
    refine (forward_name hin₂).bind fun label c₃ h₃ hlt₃ => ?_
    exact ih _ (hin₂.ahead h₃) (by omega)

/-- An expression takes a character.  By induction on the depth: its parts start after its first
character, where fewer are left. -/
theorem takesOne_expression (depth : Nat) : TakesOne text depth (expression depth) := by
  induction depth with
  | zero => exact fun _ _ h => absurd h (Nat.not_lt_zero _)
  | succ depth ih =>
    intro c h hdepth
    refine (forward_atom ih h (Nat.le_of_lt_succ hdepth)).bind fun e c₁ h₁ hlt => ?_
    refine .look rfl ?_
    refine (forward_loads e (h.ahead h₁) (Nat.lt_succ_self _)).mono fun _ d hd _ => ?_
    exact hd.left_le.trans_lt hlt

private theorem forward_program {depth : Nat} (h : c.In text) (hdepth : c.left < depth) :
    Forward text (program depth) c fun _ _ => True := by
  refine (takesOne_expression depth c h hdepth).bind fun e c₁ h₁ _ => ?_
  refine (forward_next c₁).bind fun o c₂ h₂ ho => ?_
  obtain ⟨rfl, hblank⟩ := ho
  cases hx : c₂.rest.head? with
  | none => exact forward_pure trivial
  | some x =>
    have hin := h.ahead (h₁.trans h₂)
    exact .look rfl (forward_throw (.sign hin hx (hblank x hx) (.inr rfl)))

end Forms

/-! ## Positions -/

/-- At the cursor the reader takes a value off, having passed at least so many bytes of the text and
none past its end, or it reports an error that points into the text. -/
def Advances (text : String) (least : Nat) (m : ParseM α) (c : Cursor) : Prop :=
  (∃ a d, m c = ExceptT.mk (some (.ok (a, d))) ∧ c.Ahead d ∧
      c.offset + least ≤ d.offset ∧ d.offset ≤ text.utf8ByteSize) ∨
    ∃ e : ParseError, m c = ExceptT.mk (some (.error e)) ∧ e.PointsInto text

section Advances

variable {m : ParseM α} {P : α → Cursor → Prop} {c : Cursor}

private theorem Forward.advances (h : c.In text) (hm : Forward text m c P) : Advances text 0 m c := by
  rcases hm with ⟨a, d, hm, hd, -⟩ | herror
  · exact .inl ⟨a, d, hm, hd, hd.offset_le, (h.ahead hd).offset_le⟩
  · exact .inr herror

private theorem Forward.advances_one (h : c.In text)
    (hm : Forward text m c fun _ d => d.left < c.left) : Advances text 1 m c := by
  rcases hm with ⟨a, d, hm, hd, hlt⟩ | herror
  · exact .inl ⟨a, d, hm, hd, hd.offset_lt hlt, (h.ahead hd).offset_le⟩
  · exact .inr herror

end Advances

/-- Every reader of the notation advances at the cursor, those of a form if the cursor stands at its
first sign.  Loops may take a turn more than there are characters left. -/
structure ForwardReaders (text : String) (depth : Nat) (c : Cursor) : Prop where
  next : Advances text 0 Parse.next c
  require (sign : Char) : Advances text 1 (Parse.require sign) c
  name : Advances text 1 Parse.name c
  number (x : Char) : c.rest.head? = some x → x.isDigit = true → Advances text 1 Parse.number c
  quotedText : c.rest.head? = some '"' → Advances text 1 Parse.quotedText c
  arguments : Advances text 1 (Parse.arguments (expression depth) (c.left + 1)) c
  callForm : c.rest.head? = some '(' → Advances text 1 (Parse.callForm (expression depth)) c
  parameters : Advances text 1 (Parse.parameters (c.left + 1)) c
  functionForm : c.rest.head? = some '\x7b' →
    Advances text 1 (Parse.functionForm (expression depth)) c
  entries : Advances text 1 (Parse.entries (expression depth) (c.left + 1)) c
  recordForm : c.rest.head? = some '@' → Advances text 1 (Parse.recordForm (expression depth)) c
  namedForm : Advances text 1 (Parse.namedForm (expression depth)) c
  atom : Advances text 1 (Parse.atom (expression depth)) c
  loads (e : Expr) : Advances text 0 (Parse.loads (c.left + 1) e) c
  expression : Advances text 1 (Parse.expression depth) c
  program : Advances text 0 (Parse.program depth) c

private theorem forwardReaders {c : Cursor} {depth : Nat} (h : c.In text) (hdepth : c.left < depth) :
    ForwardReaders text depth c := by
  have hpart : TakesOne text depth (Parse.expression depth) := takesOne_expression depth
  have hturns : c.left < c.left + 1 := Nat.lt_succ_self _
  exact
    { next := (forward_next c).advances h
      require := fun sign => (forward_require sign h).advances_one h
      name := (forward_name h).advances_one h
      number := fun x hx hdigit => (forward_number h hx hdigit).advances_one h
      quotedText := fun hx => (forward_quotedText h hx).advances_one h
      arguments := (forward_arguments hpart h hdepth hturns).advances_one h
      callForm := fun hx => (forward_callForm hpart h hdepth.le hx).advances_one h
      parameters := (forward_parameters h hturns).advances_one h
      functionForm := fun hx => (forward_functionForm hpart h hdepth.le hx).advances_one h
      entries := (forward_entries hpart h hdepth hturns).advances_one h
      recordForm := fun hx => (forward_recordForm hpart h hdepth.le hx).advances_one h
      namedForm := (forward_namedForm hpart h hdepth.le).advances_one h
      atom := (forward_atom hpart h hdepth.le).advances_one h
      loads := fun e => (forward_loads e h hturns).advances h
      expression := (hpart c h hdepth).advances_one h
      program := (forward_program h hdepth).advances h }

end Parse

namespace Expr

/-- Every text is a program or has an error, which points into it.  At every cursor in the text all
readers that are allowed as much recursion as characters are left have a result, move on and stay in
the text. -/
theorem parse_forward (text : String) :
    (∃ outcome, parse? text = some outcome ∧ parse text = outcome ∧
      ∀ e, outcome = .error e → e.PointsInto text) ∧
    ∀ (c : Cursor) (depth : Nat), c.In text → c.left < depth → Parse.ForwardReaders text depth c := by
  refine ⟨?_, fun c depth h hdepth => Parse.forwardReaders h hdepth⟩
  have hstart := Cursor.in_start text
  have hdepth : Cursor.left ⟨text.toList, 0⟩ < text.toList.length + 1 := Nat.lt_succ_self _
  rcases Parse.forward_program hstart hdepth with ⟨e, d, hrun, -⟩ | ⟨e, hrun, he⟩
  · have hparse : parse? text = some (.ok e) := by
      unfold parse?
      simp only [StateT.run, ExceptT.run]
      rw [hrun]
      rfl
    exact ⟨.ok e, hparse, by rw [parse, hparse]; rfl, fun _ h => by cases h⟩
  · have hparse : parse? text = some (.error e) := by
      unfold parse?
      simp only [StateT.run, ExceptT.run]
      rw [hrun]
      rfl
    refine ⟨.error e, hparse, by rw [parse, hparse]; rfl, fun _ h => ?_⟩
    cases h
    exact he

/-- After a text with a character of two bytes, one more digit follows. -/
theorem parse_forward_after_text :
    Cursor.In "\"é\" 3" ⟨[' ', '3'], 4⟩ ∧ Cursor.left ⟨[' ', '3'], 4⟩ < 3 ∧
      Parse.ForwardReaders "\"é\" 3" 3 ⟨[' ', '3'], 4⟩ := by
  have hin : Cursor.In "\"é\" 3" ⟨[' ', '3'], 4⟩ := ⟨['"', 'é', '"'], by decide, by decide⟩
  have hleft : Cursor.left ⟨[' ', '3'], 4⟩ < 3 := by decide
  exact ⟨hin, hleft, (parse_forward _).2 _ 3 hin hleft⟩

end Expr

end TypeFlow
