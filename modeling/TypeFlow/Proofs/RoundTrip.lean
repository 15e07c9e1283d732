import TypeFlow.Expr.Text
import TypeFlow.Proofs.SpelledForms

/-!
# Reading what is written

The written form of what was read is read as the same expression, unless a conditional in it is
guarded or a double in it is written with an exponent.

Main definitions:

- `Parse.Stops`, `Parse.Ends`: what may follow an expression, and what may follow one without the
  fields loaded from it.
- `Parse.PartReads`, `Parse.Spine`: a reader takes an expression off its written form.

Main results:

- `Parse.partReads_expression`: expressions are read back.
- `Expr.parse_render`: programs are read back.
-/

namespace TypeFlow

namespace Expr

/-- What is at the top of the expression is written as it is read. -/
structure Readable (e : Expr) : Prop where
  spelled : e.Spelled
  unguarded : e.isGuard = false
  moderate : ∀ x, e = float x → x.isModerate = true

/-! ## Written forms as characters -/

/-- The characters of the written form. -/
def chars (e : Expr) : List Char := e.render.toList

/-- The characters of the written forms of arguments. -/
def argsChars (args : List Expr) : List Char := (renderArgs args).toList

/-- The characters of the written forms of fields, the first after a blank. -/
def fieldsChars (fields : List (String × Expr)) : List Char := (renderFields " " fields).toList

/-- The characters of parameters, each after a blank. -/
def paramsChars (params : List String) : List Char := params.flatMap fun x => ' ' :: x.toList

@[simp] theorem chars_apply (fn : Expr) (args : List Expr) :
    (apply fn args).chars = '(' :: (fn.chars ++ (argsChars args ++ [')'])) := by
  simp [chars, argsChars, render]

@[simp] theorem chars_lambda (params : List String) (body : Expr) (widen : Bool) :
    (lambda params body widen).chars =
      '\x7b' :: (paramsChars params ++ ' ' :: '-' :: '>' :: ' ' :: (body.chars ++ [' ', '\x7d'])) := by
  simp [chars, paramsChars, render, String.toList_join, List.flatMap_map]

@[simp] theorem chars_letIn (x : String) (definition body : Expr) :
    (letIn x definition body).chars =
      x.toList ++ ' ' :: '=' :: ' ' :: (definition.chars ++ ';' :: ' ' :: body.chars) := by
  simp [chars, render]

@[simp] theorem chars_record (fields : List (String × Expr)) :
    (record fields).chars = '@' :: '\x7b' :: (fieldsChars fields ++ [' ', '\x7d']) := by
  simp [chars, fieldsChars, render]

@[simp] theorem chars_field (rec : Expr) (label : String) :
    (field rec label).chars = rec.chars ++ '.' :: label.toList := by
  simp [chars, render]

@[simp] theorem argsChars_nil : argsChars [] = [] := rfl

@[simp] theorem argsChars_cons (e : Expr) (rest : List Expr) :
    argsChars (e :: rest) = ' ' :: (e.chars ++ argsChars rest) := by
  simp [argsChars, chars, renderArgs]

@[simp] theorem fieldsChars_nil : fieldsChars [] = [] := rfl

/-- The fields after the first stand after a comma and a blank. -/
theorem renderFields_comma (fields : List (String × Expr)) :
    (renderFields ", " fields).toList = if fields = [] then [] else ',' :: fieldsChars fields := by
  cases fields with
  | nil => rfl
  | cons e rest => simp [fieldsChars, renderFields]

private theorem fieldsChars_cons (label : String) (e : Expr) (rest : List (String × Expr)) :
    fieldsChars ((label, e) :: rest) =
      ' ' :: (label.toList ++ ' ' :: '=' :: ' ' ::
        (e.chars ++ if rest = [] then [] else ',' :: fieldsChars rest)) := by
  rw [← renderFields_comma]
  simp [fieldsChars, renderFields, renderField, chars]

@[simp] theorem paramsChars_nil : paramsChars [] = [] := rfl

@[simp] theorem paramsChars_cons (x : String) (rest : List String) :
    paramsChars (x :: rest) = ' ' :: (x.toList ++ paramsChars rest) := by
  simp [paramsChars]

end Expr

namespace Parse

open TypeFlow.Expr (chars argsChars fieldsChars paramsChars Readable)

/-! ## What follows an expression -/

/-- No name or number goes on in what follows, and nothing is defined or loaded there. -/
structure Stops (rest : List Char) : Prop where
  ends : ∀ c, rest.head? = some c → continuesName c = false
  defines : (trim rest).head? ≠ some '='
  loads : LoadsNothing rest

/-- No name or number goes on in what follows, and nothing is defined there. -/
structure Ends (rest : List Char) : Prop where
  ends : ∀ c, rest.head? = some c → continuesName c = false
  defines : (trim rest).head? ≠ some '='
  fraction : startsFraction rest = false

private theorem Stops.toEnds {rest : List Char} (h : Stops rest) : Ends rest := by
  refine ⟨h.ends, h.defines, ?_⟩
  cases rest with
  | nil => rfl
  | cons c rest =>
    have hpoint : c ≠ '.' := by
      rintro rfl
      exact h.loads rfl
    simp [startsFraction, hpoint]

/-- A sign other than a point or an equality sign stops an expression. -/
theorem stops_cons {c : Char} (hname : continuesName c = false) (hblank : isBlank c = false)
    (hpoint : c ≠ '.') (hequals : c ≠ '=') (rest : List Char) : Stops (c :: rest) := by
  have htrim := trim_cons hblank rest
  refine ⟨?_, ?_, ?_⟩
  · simp [hname]
  · simp [htrim, hequals]
  · simp [LoadsNothing, htrim, hpoint]

private theorem stops_nil : Stops [] := by
  refine ⟨?_, ?_, ?_⟩ <;> simp [LoadsNothing]

/-- A blank stops what the text after it stops. -/
theorem stops_blank {c : Char} {rest : List Char} (hblank : isBlank c = false)
    (hpoint : c ≠ '.') (hequals : c ≠ '=') : Stops (' ' :: c :: rest) := by
  have htrim : trim (' ' :: c :: rest) = c :: rest := trim_cons hblank rest
  refine ⟨?_, ?_, ?_⟩
  · simp [show continuesName ' ' = false from rfl]
  · simp [htrim, hequals]
  · simp [LoadsNothing, htrim, hpoint]

private theorem isDigit_of_not_continuesName {c : Char} (h : continuesName c = false) : c.isDigit = false := by
  simp only [continuesName, Bool.or_eq_false_iff] at h
  exact h.1.2

private theorem isDigit_of_startsName {c : Char} (h : startsName c = true) : c.isDigit = false := by
  simp only [startsName, Bool.or_eq_true, beq_iff_eq] at h
  rcases h with (((h | rfl) | rfl) | rfl) | rfl
  · have hletter : (decide (c.val ≥ 65 ∧ c.val ≤ 90) || c.val ≥ 97 && c.val ≤ 122) = true := h
    simp only [Bool.or_eq_true, Bool.and_eq_true, decide_eq_true_eq] at hletter
    simp only [Char.isDigit, Bool.and_eq_false_iff, decide_eq_false_iff_not]
    grind
  all_goals rfl

/-- A property of characters that are no start of a name does not hold of one. -/
theorem ne_of_startsName {c d : Char} (h : startsName c = true) (hd : startsName d = false) :
    c ≠ d := by
  rintro rfl
  exact absurd (hd.symm.trans h) Bool.false_ne_true

/-! ## Atoms -/

/-- The reader takes a value off the text and leaves the rest, up to blanks before it. -/
def ReadsBefore {α : Type} (m : ParseM α) (text : List Char) (a : α) (rest : List Char) : Prop :=
  ∃ rest₀, trim rest₀ = trim rest ∧ Reads m text a rest₀

section Atoms

variable {part : ParseM Expr} {text rest rest' : List Char} {c : Char} {e : Expr}

private theorem reads_atom_digit (h : trim text = c :: rest) (hdigit : c.isDigit = true)
    (hr : Reads number (c :: rest) e rest') : Reads (atom part) text e rest' := by
  refine (reads_nextSome h).bind ?_
  rw [if_pos hdigit]
  exact hr

private theorem reads_atom_quote (h : trim text = '"' :: rest)
    (hr : Reads quotedText ('"' :: rest) e rest') : Reads (atom part) text e rest' :=
  (reads_nextSome h).bind hr

private theorem reads_atom_call (h : trim text = '(' :: rest)
    (hr : Reads (callForm part) ('(' :: rest) e rest') : Reads (atom part) text e rest' :=
  (reads_nextSome h).bind hr

private theorem reads_atom_function (h : trim text = '\x7b' :: rest)
    (hr : Reads (functionForm part) ('\x7b' :: rest) e rest') : Reads (atom part) text e rest' :=
  (reads_nextSome h).bind hr

private theorem reads_atom_record (h : trim text = '@' :: rest)
    (hr : Reads (recordForm part) ('@' :: rest) e rest') : Reads (atom part) text e rest' :=
  (reads_nextSome h).bind hr

private theorem reads_atom_name (h : trim text = c :: rest) (hname : startsName c = true)
    (hr : Reads (namedForm part) (c :: rest) e rest') : Reads (atom part) text e rest' := by
  refine (reads_nextSome h).bind ?_
  rw [if_neg (by simp [isDigit_of_startsName hname]), if_neg (ne_of_startsName hname rfl),
    if_neg (ne_of_startsName hname rfl), if_neg (ne_of_startsName hname rfl),
    if_neg (ne_of_startsName hname rfl), if_pos hname]
  exact hr

end Atoms

/-! ## Literals -/

section Literals

variable {part : ParseM Expr} {text rest : List Char}

private theorem Ends.isDigit (h : Ends rest) : ∀ c, rest.head? = some c → c.isDigit = false :=
  fun c hc => isDigit_of_not_continuesName (h.ends c hc)

private theorem startsFraction_append {fraction : List Char} (hne : fraction ≠ [])
    (hfraction : ∀ c ∈ fraction, c.isDigit = true) (rest : List Char) :
    startsFraction ('.' :: (fraction ++ rest)) = true := by
  obtain ⟨c, tail, rfl⟩ := List.exists_cons_of_ne_nil hne
  simp [startsFraction, hfraction c List.mem_cons_self]

/-- Digits around a point are read as a double. -/
theorem reads_digits_float (start : Nat) {whole fraction : List Char}
    (hwhole : ∀ c ∈ whole, c.isDigit = true) (hfraction : ∀ c ∈ fraction, c.isDigit = true)
    (hne : fraction ≠ []) (hrest : ∀ c, rest.head? = some c → c.isDigit = false) :
    Reads (digits start) (whole ++ '.' :: (fraction ++ rest))
      (.float (.ofDecimal (decimalValue (whole ++ fraction)) (-(fraction.length : Int)))) rest := by
  refine (reads_run hwhole fun c hc => ?_).bind ((reads_fractionFollows _).bind ?_)
  · simp only [List.head?_cons, Option.some_inj] at hc
    subst hc
    rfl
  rw [if_pos (startsFraction_append hne hfraction rest)]
  exact (reads_advance '.' _).bind ((reads_run hfraction hrest).bind (reads_pure _ _))

/-- Digits without a point are read as an integer. -/
theorem reads_digits_int (start : Nat) {whole : List Char}
    (hwhole : ∀ c ∈ whole, c.isDigit = true) (hroom : decimalValue whole < Nat.pow 2 63)
    (hrest : Ends rest) :
    Reads (digits start) (whole ++ rest) (.int (Int64.ofNat (decimalValue whole))) rest := by
  refine (reads_run hwhole hrest.isDigit).bind ((reads_fractionFollows _).bind ?_)
  rw [if_neg (by simp [hrest.fraction])]
  dsimp only
  rw [if_pos hroom]
  exact reads_pure _ _

/-- A number that does not start with a zero. -/
theorem reads_number_digits {c : Char} {tail : List Char} {e : Expr} (hzero : c ≠ '0')
    (h : ∀ start, Reads (digits start) (c :: tail) e rest) : Reads number (c :: tail) e rest := by
  refine reads_position_bind fun start => (reads_peek _).bind ?_
  rw [if_neg (by simpa using hzero)]
  exact h start

/-- A number that starts with a zero has a fraction or is nil. -/
theorem reads_number_zero {tail : List Char} {e : Expr}
    (h : ∀ start, Reads (if startsFraction tail = true then digits start else pure .nil) tail e rest) :
    Reads number ('0' :: tail) e rest := by
  refine reads_position_bind fun start => (reads_peek _).bind ?_
  rw [if_pos (by rfl)]
  exact (reads_advance '0' tail).bind ((reads_fractionFollows tail).bind (h start))

private theorem reads_nil (h : trim text = Expr.nil.chars ++ rest) (hrest : Ends rest) :
    Reads (atom part) text .nil rest := by
  have htext : trim text = '0' :: rest := h
  refine reads_atom_digit htext rfl (reads_number_zero fun _ => ?_)
  rw [if_neg (by simp [hrest.fraction])]
  exact reads_pure _ _

/-- An integer that is not negative is written in digits. -/
theorem chars_int {c : Int64} (hc : 0 < c.toInt) :
    (Expr.int c).chars = Nat.toDigits 10 c.toInt.toNat := by
  obtain ⟨n, hn⟩ := Int.eq_ofNat_of_zero_le hc.le
  change (toString c.toInt).toList = _
  rw [hn, Int.toNat_natCast]
  change (toString n).toList = _
  rw [Nat.toString_eq_ofList_toDigits, String.toList_ofList]

private theorem reads_int {c : Int64} (hc : 0 < c.toInt) (h : trim text = (Expr.int c).chars ++ rest)
    (hrest : Ends rest) : Reads (atom part) text (.int c) rest := by
  rw [chars_int hc] at h
  obtain ⟨n, hn⟩ := Int.eq_ofNat_of_zero_le hc.le
  have hpos : 0 < n := by omega
  rw [hn, Int.toNat_natCast] at h
  have hdigits : ∀ x ∈ Nat.toDigits 10 n, x.isDigit = true := fun x hx =>
    Nat.isDigit_of_mem_toDigits (by decide) (by decide) hx
  have hvalue : Int64.ofNat (decimalValue (Nat.toDigits 10 n)) = c := by
    rw [decimalValue_toDigits, ← Int64.ofInt_toInt c, hn]
    rfl
  have hroom : decimalValue (Nat.toDigits 10 n) < Nat.pow 2 63 := by
    have := c.toInt_lt
    rw [decimalValue_toDigits]
    change n < 2 ^ 63
    omega
  have hread : ∀ start, Reads (digits start) (Nat.toDigits 10 n ++ rest) (.int c) rest := by
    intro start
    have := reads_digits_int start hdigits hroom hrest
    rwa [hvalue] at this
  cases htext : Nat.toDigits 10 n with
  | nil => exact absurd htext Nat.toDigits_ne_nil
  | cons x tail =>
    rw [htext, List.cons_append] at h hread
    have hzero : x ≠ '0' := by
      rintro rfl
      exact head?_toDigits hpos (by rw [htext]; rfl)
    have hx : x.isDigit = true := hdigits x (by rw [htext]; exact List.mem_cons_self)
    exact reads_atom_digit h hx (reads_number_digits hzero hread)

private theorem reads_float {x : Double} (hpos : x.isNegative = false) (hx : x.isModerate = true)
    (h : trim text = (Expr.float x).chars ++ rest) (hrest : Ends rest) :
    Reads (atom part) text (.float x) rest := by
  obtain ⟨whole, fraction, hchars, hspells⟩ := Double.spells_render hpos hx
  have htext : trim text = whole ++ '.' :: (fraction ++ rest) := by
    rw [h, chars, Expr.render, hchars, List.append_assoc]
    rfl
  have hfraction : ∀ c ∈ fraction, c.isDigit = true := fun c hc =>
    hspells.digits c (List.mem_append_right _ hc)
  have hwhole : ∀ c ∈ whole, c.isDigit = true := fun c hc =>
    hspells.digits c (List.mem_append_left _ hc)
  rcases hspells.leads with rfl | ⟨c, tail, rfl, hzero⟩
  · refine reads_atom_digit htext rfl (reads_number_zero fun start => ?_)
    have hnone : ∀ c ∈ ([] : List Char), c.isDigit = true := by simp
    have hread := reads_digits_float start hnone hfraction hspells.nonempty hrest.isDigit
    have hvalue := hspells.reads
    rw [List.singleton_append, decimalValue_zero_cons] at hvalue
    rw [List.nil_append, List.nil_append, hvalue] at hread
    change Reads (if startsFraction ('.' :: (fraction ++ rest)) = true then _ else _) _ _ _
    rw [if_pos (startsFraction_append hspells.nonempty hfraction rest)]
    exact hread
  · refine reads_atom_digit htext (hwhole c List.mem_cons_self) ?_
    refine reads_number_digits hzero fun start => ?_
    have hread := reads_digits_float start hwhole hfraction hspells.nonempty hrest.isDigit
    rw [hspells.reads] at hread
    exact hread

private theorem reads_text {s : String} (hs : '"' ∉ s.toList) (h : trim text = (Expr.text s).chars ++ rest) :
    Reads (atom part) text (.text s) rest := by
  have htext : trim text = '"' :: (s.toList ++ '"' :: rest) := by
    rw [h]
    simp [chars, Expr.render]
  refine reads_atom_quote htext ((reads_advance _ _).bind ?_)
  have hrun : Reads (takeRun (· != '"')) (s.toList ++ '"' :: rest) s.toList ('"' :: rest) := by
    refine reads_run (fun c hc => ?_) fun c hc => ?_
    · have : c ≠ '"' := fun e => hs (e ▸ hc)
      simp [this]
    · simp only [List.head?_cons, Option.some_inj] at hc
      simp [← hc]
  refine hrun.bind ((reads_peek _).bind ((reads_advance _ _).bind ?_))
  rw [String.ofList_toList]
  exact reads_pure _ _

end Literals

/-! ## Names -/

section Names

variable {part : ParseM Expr} {text rest : List Char}

/-- A name comes where an expression is read. -/
theorem reads_atom_of_name {x : String} {e : Expr} {tail rest' : List Char} (hx : IsName x)
    (h : trim text = x.toList ++ tail)
    (hr : ∀ text', trim text' = x.toList ++ tail → Reads (namedForm part) text' e rest') :
    Reads (atom part) text e rest' := by
  obtain ⟨c, xs, hc, hstarts⟩ := hx.starts
  have htext : trim text = c :: (xs ++ tail) := by rw [h, hc, List.cons_append]
  refine reads_atom_name htext hstarts (hr _ ?_)
  rw [← htext, trim_trim, h]

private theorem reads_ident {x : String} (hx : IsName x) (hname : Primitive.ofName? x = none)
    (h : trim text = (Expr.ident x).chars ++ rest) (hrest : Ends rest) :
    ReadsBefore (atom part) text (.ident x) rest := by
  refine ⟨trim rest, trim_trim rest, reads_atom_of_name hx h fun text' h' => ?_⟩
  refine (reads_name hx h' hrest.ends).bind ((reads_next rest).bind ?_)
  rw [if_neg hrest.defines, hname]
  exact reads_pure _ _

/-- Every primitive but one is named in programs. -/
theorem named_of_ne_notNil {p : Primitive} (hp : p ≠ .notNil) :
    p.shownName = p.name ∧ IsName p.name ∧ Primitive.ofName? p.name = some p := by
  cases p <;> first | exact absurd rfl hp | exact ⟨rfl, by decide, by decide⟩

private theorem reads_prim {p : Primitive} (hp : p ≠ .notNil)
    (h : trim text = (Expr.prim p).chars ++ rest) (hrest : Ends rest) :
    ReadsBefore (atom part) text (.prim p) rest := by
  obtain ⟨hshown, hx, hname⟩ := named_of_ne_notNil hp
  have hchars : (Expr.prim p).chars = p.name.toList := by rw [← hshown]; rfl
  rw [hchars] at h
  refine ⟨trim rest, trim_trim rest, reads_atom_of_name hx h fun text' h' => ?_⟩
  refine (reads_name hx h' hrest.ends).bind ((reads_next rest).bind ?_)
  rw [if_neg hrest.defines, hname]
  exact reads_pure _ _

end Names

/-! ## What a written form starts with -/

/-- The text starts like an expression: with no blank, and with no sign that may follow one. -/
structure Starts (text : List Char) : Prop where
  exists_cons : ∃ c rest, text = c :: rest ∧ isBlank c = false ∧ c ≠ '.' ∧ c ≠ '=' ∧ c ≠ ')'

private theorem Starts.append {text : List Char} (h : Starts text) (rest : List Char) :
    Starts (text ++ rest) := by
  obtain ⟨c, tail, rfl, hc⟩ := h
  exact ⟨c, tail ++ rest, rfl, hc⟩

private theorem Starts.trim_eq {text : List Char} (h : Starts text) : trim text = text := by
  obtain ⟨c, tail, rfl, hblank, -⟩ := h
  exact trim_cons hblank tail

private theorem starts_name {x : String} (hx : IsName x) : Starts x.toList := by
  obtain ⟨c, tail, hc, hstarts⟩ := hx.starts
  refine ⟨c, tail, hc, ?_, ne_of_startsName hstarts rfl, ne_of_startsName hstarts rfl,
    ne_of_startsName hstarts rfl⟩
  cases hblank : isBlank c with
  | false => rfl
  | true =>
    simp only [isBlank, Bool.or_eq_true, beq_iff_eq] at hblank
    rcases hblank with (((rfl | rfl) | rfl) | rfl) | rfl <;> cases hstarts

private theorem starts_digit {c : Char} (hdigit : c.isDigit = true) (tail : List Char) :
    Starts (c :: tail) := by
  have hne : ∀ d : Char, d.isDigit = false → c ≠ d := by
    rintro d hd rfl
    exact absurd (hd.symm.trans hdigit) Bool.false_ne_true
  refine ⟨c, tail, rfl, ?_, hne _ rfl, hne _ rfl, hne _ rfl⟩
  simp [isBlank, hne]

private theorem starts_chars : ∀ e : Expr, e.All Readable → Starts e.chars
  | .nil, _ => ⟨'0', [], rfl, by decide⟩
  | .int c, h => by
    have hc : 0 < c.toInt := h.top.spelled
    rw [chars_int hc]
    obtain ⟨x, tail, hx⟩ := List.exists_cons_of_ne_nil (Nat.toDigits_ne_nil (b := 10) (n := c.toInt.toNat))
    rw [hx]
    refine starts_digit (Nat.isDigit_of_mem_toDigits (b := 10) (n := c.toInt.toNat) (by decide)
      (by decide) ?_) tail
    rw [hx]
    exact List.mem_cons_self
  | .float x, h => by
    obtain ⟨whole, fraction, hchars, hspells⟩ :=
      Double.spells_render h.top.spelled (h.top.moderate x rfl)
    rw [chars, Expr.render, hchars]
    rcases hspells.leads with rfl | ⟨c, tail, rfl, -⟩
    · exact starts_digit rfl _
    · exact starts_digit (hspells.digits c (by simp)) _
  | .text s, _ => ⟨'"', s.toList ++ ['"'], by simp [chars, Expr.render], by decide⟩
  | .prim p, h => by
    obtain ⟨hshown, hx, -⟩ := named_of_ne_notNil h.top.spelled
    rw [chars, Expr.render, hshown]
    exact starts_name hx
  | .ident x, h => starts_name h.top.spelled.1
  | .apply fn args, _ => ⟨'(', _, Expr.chars_apply fn args, by decide⟩
  | .lambda params body widen, _ => ⟨'\x7b', _, Expr.chars_lambda params body widen, by decide⟩
  | .letIn x definition body, h => by
    have hx : IsName x := h.top.spelled
    rw [Expr.chars_letIn]
    exact (starts_name hx).append _
  | .record fields, _ => ⟨'@', _, Expr.chars_record fields, by decide⟩
  | .field rec label, h => by
    rw [Expr.chars_field]
    exact (starts_chars rec (Expr.all_field.1 h).2).append _

/-! ## Compound forms -/

/-- The reader takes the expression off its written form wherever that stops, and the blanks after
it. -/
def PartReads (part : ParseM Expr) (e : Expr) : Prop :=
  ∀ text rest, trim text = e.chars ++ rest → Stops rest → Reads part text e (trim rest)

section Forms

variable {part : ParseM Expr} {text rest : List Char}

private theorem PartReads.of_starts {e : Expr} (he : PartReads part e) (hstarts : Starts e.chars)
    (hrest : Stops rest) : Reads part (e.chars ++ rest) e (trim rest) :=
  he _ rest (hstarts.append rest).trim_eq hrest

/-- A blank may stand before the part. -/
theorem PartReads.of_blank {e : Expr} (he : PartReads part e) (hstarts : Starts e.chars)
    (hrest : Stops rest) : Reads part (' ' :: (e.chars ++ rest)) e (trim rest) :=
  he _ rest (hstarts.append rest).trim_eq hrest

/-- Arguments stop the expression before them, and so does the end of the call. -/
theorem stops_args {args : List Expr} (hargs : ∀ e ∈ args, Starts e.chars) (rest : List Char) :
    Stops (argsChars args ++ ')' :: rest) := by
  cases args with
  | nil => exact stops_cons rfl rfl (by decide) (by decide) rest
  | cons e args =>
    obtain ⟨c, tail, hc, hblank, hpoint, hequals, -⟩ := hargs e List.mem_cons_self
    rw [Expr.argsChars_cons, hc]
    exact stops_blank hblank hpoint hequals

/-- Each argument takes characters. -/
theorem length_args_le {args : List Expr} (hargs : ∀ e ∈ args, Starts e.chars)
    (rest : List Char) :
    args.length ≤ (trim (argsChars args ++ ')' :: rest)).length := by
  have hlength : ∀ args : List Expr, (∀ e ∈ args, Starts e.chars) →
      args.length ≤ (argsChars args).length := by
    intro args hargs
    induction args with
    | nil => exact Nat.le_refl 0
    | cons e args ih =>
      have := ih fun a ha => hargs a (List.mem_cons_of_mem e ha)
      simp
      omega
  cases args with
  | nil => simp
  | cons e args =>
    obtain ⟨he, hargs⟩ := List.forall_mem_cons.1 hargs
    have := hlength args hargs
    rw [Expr.argsChars_cons, List.cons_append, trim_blank, List.append_assoc,
      (he.append _).trim_eq]
    obtain ⟨c, tail, hc, -⟩ := he
    simp [hc]
    omega

private theorem reads_arguments {args : List Expr} (hargs : ∀ e ∈ args, Starts e.chars)
    (hparts : ∀ e ∈ args, PartReads part e) {fuel : Nat} (hfuel : args.length < fuel)
    (h : trim text = trim (argsChars args ++ ')' :: rest)) :
    Reads (arguments part fuel) text args rest := by
  induction fuel generalizing args text with
  | zero => omega
  | succ fuel ih =>
    cases args with
    | nil =>
      refine (reads_nextSome h).bind ?_
      rw [if_pos rfl]
      exact (reads_advance ')' rest).bind (reads_pure _ _)
    | cons e args =>
      obtain ⟨he, hargs⟩ := List.forall_mem_cons.1 hargs
      obtain ⟨hpart, hparts⟩ := List.forall_mem_cons.1 hparts
      rw [Expr.argsChars_cons, List.cons_append, trim_blank, List.append_assoc,
        (he.append _).trim_eq] at h
      have hread := hpart.of_starts he (stops_args hargs rest)
      obtain ⟨c, tail, hc, -, -, -, hclose⟩ := he
      rw [hc, List.cons_append] at h hread
      refine (reads_nextSome h).bind ?_
      rw [if_neg hclose]
      refine hread.bind ((ih hargs hparts (Nat.lt_of_succ_lt_succ hfuel) ?_).bind (reads_pure _ _))
      exact trim_trim _

private theorem reads_call {fn : Expr} {args : List Expr} (hguard : (Expr.apply fn args).isGuard = false)
    (hfn : Starts fn.chars) (hargs : ∀ e ∈ args, Starts e.chars) (hpart : PartReads part fn)
    (hparts : ∀ e ∈ args, PartReads part e)
    (h : trim text = (Expr.apply fn args).chars ++ rest) :
    Reads (atom part) text (.apply fn args) rest := by
  have htext : trim text = '(' :: (fn.chars ++ (argsChars args ++ ')' :: rest)) := by
    rw [h]
    simp
  refine reads_atom_call htext ((reads_advance _ _).bind ?_)
  refine (hpart.of_starts hfn (stops_args hargs rest)).bind (reads_get_bind fun offset => ?_)
  have hfuel := length_args_le hargs rest
  refine (reads_arguments hargs hparts (Nat.lt_succ_of_le hfuel) (trim_trim _)).bind ?_
  rw [Expr.call_of_not_isGuard hguard]
  exact reads_pure _ _

private theorem length_params_le (params : List String) (rest : List Char) :
    params.length ≤ (paramsChars params ++ rest).length := by
  induction params with
  | nil => exact Nat.zero_le _
  | cons x params ih =>
    simp at ih ⊢
    omega

private theorem reads_parameters {params : List String} (hparams : ∀ x ∈ params, IsName x) {fuel : Nat}
    (hfuel : params.length < fuel) (h : trim text = trim (paramsChars params ++ ' ' :: '-' :: rest)) :
    Reads (parameters fuel) text params rest := by
  induction fuel generalizing params text with
  | zero => omega
  | succ fuel ih =>
    cases params with
    | nil =>
      have htext : trim text = '-' :: rest := h
      refine (reads_nextSome htext).bind ?_
      rw [if_pos rfl]
      exact (reads_advance '-' rest).bind (reads_pure _ _)
    | cons x params =>
      obtain ⟨hx, hparams⟩ := List.forall_mem_cons.1 hparams
      rw [Expr.paramsChars_cons, List.cons_append, trim_blank, List.append_assoc,
        ((starts_name hx).append _).trim_eq] at h
      have hnext : ∀ c, (paramsChars params ++ ' ' :: '-' :: rest).head? = some c →
          continuesName c = false := by
        intro c hc
        cases params <;> simp at hc <;> subst hc <;> rfl
      have hread : Reads name (trim text) x _ := reads_name hx ((trim_trim text).trans h) hnext
      obtain ⟨c, tail, hc, hstarts⟩ := hx.starts
      rw [hc, List.cons_append] at h
      rw [h] at hread
      refine (reads_nextSome h).bind ?_
      rw [if_neg (ne_of_startsName hstarts rfl)]
      exact hread.bind ((ih hparams (Nat.lt_of_succ_lt_succ hfuel) rfl).bind (reads_pure _ _))

private theorem reads_function {params : List String} {body : Expr} (hparams : ∀ x ∈ params, IsName x)
    (hbody : Starts body.chars) (hpart : PartReads part body)
    (h : trim text = (Expr.lambda params body true).chars ++ rest) :
    Reads (atom part) text (.lambda params body true) rest := by
  have htext : trim text = '\x7b' :: (paramsChars params ++ ' ' :: '-' :: '>' :: ' ' ::
      (body.chars ++ ' ' :: '\x7d' :: rest)) := by
    rw [h]
    simp
  have hstops : Stops (' ' :: '\x7d' :: rest) := stops_blank rfl (by decide) (by decide)
  refine reads_atom_function htext ((reads_advance _ _).bind (reads_get_bind fun offset => ?_))
  have hfuel := length_params_le params
    (' ' :: '-' :: '>' :: ' ' :: (body.chars ++ ' ' :: '\x7d' :: rest))
  refine (reads_parameters hparams (Nat.lt_succ_of_le hfuel) rfl).bind ((reads_peek _).bind ?_)
  rw [if_pos (by rfl)]
  refine (reads_advance _ _).bind ((hpart.of_blank hbody hstops).bind ?_)
  have hclose : trim (trim (' ' :: '\x7d' :: rest)) = '\x7d' :: rest := rfl
  exact (reads_require hclose).bind (reads_pure _ _)

/-- What stands after the value of a field. -/
def afterField (fields : List (String × Expr)) (rest : List Char) : List Char :=
  (if fields = [] then [] else ',' :: fieldsChars fields) ++ ' ' :: '\x7d' :: rest

private theorem stops_afterField (fields : List (String × Expr)) (rest : List Char) :
    Stops (afterField fields rest) := by
  unfold afterField
  split
  · exact stops_blank rfl (by decide) (by decide)
  · exact stops_cons rfl rfl (by decide) (by decide) _

private theorem fields_append (label : String) (e : Expr) (fields : List (String × Expr)) :
    fieldsChars ((label, e) :: fields) ++ ' ' :: '\x7d' :: rest =
      ' ' :: (label.toList ++ ' ' :: '=' :: ' ' :: (e.chars ++ afterField fields rest)) := by
  rw [Expr.fieldsChars_cons, afterField]
  simp

private theorem length_fields_le (fields : List (String × Expr)) :
    fields.length ≤ (fieldsChars fields).length := by
  induction fields with
  | nil => exact Nat.le_refl 0
  | cons e fields ih =>
    obtain ⟨label, e⟩ := e
    rw [Expr.fieldsChars_cons]
    by_cases hnil : fields = []
    · simp [hnil]
    · simp [hnil]
      omega

private theorem reads_entries {fields : List (String × Expr)} (hlabels : ∀ e ∈ fields, IsName e.1)
    (hstarts : ∀ e ∈ fields, Starts e.2.chars) (hparts : ∀ e ∈ fields, PartReads part e.2)
    {fuel : Nat} (hfuel : fields.length < fuel)
    (h : trim text = trim (fieldsChars fields ++ ' ' :: '\x7d' :: rest)) :
    Reads (entries part fuel) text fields rest := by
  induction fuel generalizing fields text with
  | zero => omega
  | succ fuel ih =>
    cases fields with
    | nil =>
      have htext : trim text = '\x7d' :: rest := h
      refine (reads_nextSome htext).bind ?_
      rw [if_pos rfl]
      exact (reads_advance '\x7d' rest).bind (reads_pure _ _)
    | cons e fields =>
      obtain ⟨label, e⟩ := e
      obtain ⟨hlabel, hlabels⟩ := List.forall_mem_cons.1 hlabels
      obtain ⟨he, hstarts⟩ := List.forall_mem_cons.1 hstarts
      obtain ⟨hpart, hparts⟩ := List.forall_mem_cons.1 hparts
      rw [fields_append, trim_blank, ((starts_name hlabel).append _).trim_eq] at h
      have hread : Reads name (trim text) label _ :=
        reads_name hlabel ((trim_trim text).trans h) (by intro c hc; simp at hc; subst hc; rfl)
      obtain ⟨c, tail, hc, hfirst⟩ := hlabel.starts
      rw [hc, List.cons_append] at h
      rw [h] at hread
      refine (reads_nextSome h).bind ?_
      rw [if_neg (ne_of_startsName hfirst rfl)]
      refine hread.bind ((reads_require (c := '=') rfl).bind ?_)
      refine (hpart.of_blank he (stops_afterField fields rest)).bind ((reads_next _).bind ?_)
      rw [trim_trim]
      have hrest : ∀ text', trim text' = trim (fieldsChars fields ++ ' ' :: '\x7d' :: rest) →
          Reads (entries part fuel >>= fun rest => pure ((label, e) :: rest)) text'
            ((label, e) :: fields) rest := fun text' h' =>
        (ih hlabels hstarts hparts (Nat.lt_of_succ_lt_succ hfuel) h').bind (reads_pure _ _)
      by_cases hnil : fields = []
      · have hafter : trim (afterField fields rest) = '\x7d' :: rest := by
          rw [afterField, if_pos hnil]
          rfl
        rw [hafter, if_neg (by simp)]
        refine hrest _ ?_
        rw [hnil]
        rfl
      · have hafter : trim (afterField fields rest) =
            ',' :: (fieldsChars fields ++ ' ' :: '\x7d' :: rest) := by
          rw [afterField, if_neg hnil]
          rfl
        rw [hafter, if_pos (by rfl)]
        exact (reads_advance ',' _).bind (hrest _ rfl)

private theorem reads_record {fields : List (String × Expr)} (hlabels : ∀ e ∈ fields, IsName e.1)
    (hstarts : ∀ e ∈ fields, Starts e.2.chars) (hparts : ∀ e ∈ fields, PartReads part e.2)
    (h : trim text = (Expr.record fields).chars ++ rest) :
    Reads (atom part) text (.record fields) rest := by
  have htext : trim text = '@' :: '\x7b' :: (fieldsChars fields ++ ' ' :: '\x7d' :: rest) := by
    rw [h]
    simp
  refine reads_atom_record htext ((reads_advance _ _).bind ((reads_require (c := '\x7b') rfl).bind ?_))
  refine reads_get_bind fun offset => ?_
  have hfuel : fields.length < (fieldsChars fields ++ ' ' :: '\x7d' :: rest).length + 1 := by
    have := length_fields_le fields
    rw [List.length_append]
    omega
  exact (reads_entries hlabels hstarts hparts hfuel rfl).bind (reads_pure _ _)

/-- A definition takes the blanks after its body. -/
theorem reads_letIn {x : String} {definition body : Expr} (hx : IsName x)
    (hdefinition : Starts definition.chars) (hbody : Starts body.chars)
    (hpart : PartReads part definition) (hpart' : PartReads part body)
    (h : trim text = (Expr.letIn x definition body).chars ++ rest) (hrest : Stops rest) :
    Reads (atom part) text (.letIn x definition body) (trim rest) := by
  have htext : trim text = x.toList ++ ' ' :: '=' :: ' ' ::
      (definition.chars ++ ';' :: ' ' :: (body.chars ++ rest)) := by
    rw [h]
    simp
  have hstops : Stops (';' :: ' ' :: (body.chars ++ rest)) :=
    stops_cons rfl rfl (by decide) (by decide) _
  refine reads_atom_of_name hx htext fun text' h' => ?_
  refine (reads_name hx h' (by intro c hc; simp at hc; subst hc; rfl)).bind ((reads_next _).bind ?_)
  rw [if_pos (by rfl)]
  refine (reads_advance _ _).bind ((hpart.of_blank hdefinition hstops).bind ?_)
  refine (reads_require (trim_trim _)).bind ?_
  exact (hpart'.of_blank hbody hrest).bind (reads_pure _ _)

end Forms

/-! ## Loads -/

section Loads

variable {part : ParseM Expr} {text rest : List Char} {e : Expr}

/-- Where no field is loaded, the expression is as it is. -/
theorem reads_loads_end {fuel : Nat} (h : trim text = trim rest) (hrest : LoadsNothing rest) :
    Reads (loads (fuel + 1) e) text e (trim rest) := by
  refine (reads_next text).bind ?_
  rw [h, if_neg hrest]
  exact reads_pure _ _

private theorem reads_loads_field {label : String} (hlabel : IsName label) {fuel : Nat} {e' : Expr}
    {rest' : List Char} (h : trim text = '.' :: (label.toList ++ rest))
    (hrest : ∀ c, rest.head? = some c → continuesName c = false)
    (hloads : Reads (loads fuel (.field e label)) rest e' rest') :
    Reads (loads (fuel + 1) e) text e' rest' := by
  refine (reads_next text).bind ?_
  rw [h, if_pos (by rfl)]
  refine (reads_advance '.' _).bind (Reads.bind ?_ hloads)
  exact reads_name hlabel ((starts_name hlabel).append rest).trim_eq hrest

/-- The reader takes what the fields are loaded from off the written form, and the loads bring back
the expression. -/
def Spine (part : ParseM Expr) (e : Expr) : Prop :=
  ∀ text rest, trim text = e.chars ++ rest → Ends rest →
    ∃ first rest₀ count, Reads (atom part) text first rest₀ ∧
      count + (trim rest).length ≤ rest₀.length ∧
      ∀ fuel e' rest', (∀ text, trim text = trim rest → Reads (loads fuel e) text e' rest') →
        Reads (loads (count + fuel) first) rest₀ e' rest'

private theorem length_trim_le (text : List Char) : (trim text).length ≤ text.length :=
  List.length_dropWhile_le _ _

private theorem spine_of_atom
    (h : ∀ text rest, trim text = e.chars ++ rest → Ends rest → ReadsBefore (atom part) text e rest) :
    Spine part e := by
  intro text rest htext hrest
  obtain ⟨rest₀, htrim, hread⟩ := h text rest htext hrest
  refine ⟨e, rest₀, 0, hread, ?_, fun fuel e' rest' hloads => ?_⟩
  · rw [Nat.zero_add, ← htrim]
    exact length_trim_le rest₀
  · rw [Nat.zero_add]
    exact hloads rest₀ htrim

private theorem ReadsBefore.of_reads {α : Type} {m : ParseM α} {a : α} (h : Reads m text a rest) :
    ReadsBefore m text a rest := ⟨rest, rfl, h⟩

private theorem spine_field {label : String} (he : Spine part e) (hlabel : IsName label) :
    Spine part (.field e label) := by
  intro text rest htext hrest
  obtain ⟨c, tail, hc, hstarts⟩ := hlabel.starts
  have htrim : trim ('.' :: (label.toList ++ rest)) = '.' :: (label.toList ++ rest) :=
    trim_cons rfl _
  have hends : Ends ('.' :: (label.toList ++ rest)) := by
    refine ⟨?_, ?_, ?_⟩
    · simp [show continuesName '.' = false from rfl]
    · simp [htrim]
    · simp [startsFraction, hc, isDigit_of_startsName hstarts]
  rw [Expr.chars_field, List.append_assoc, List.cons_append] at htext
  obtain ⟨first, rest₀, count, hread, hlength, hloads⟩ := he text _ htext hends
  refine ⟨first, rest₀, count + 1, hread, ?_, fun fuel e' rest' h => ?_⟩
  · have := length_trim_le rest
    rw [htrim] at hlength
    simp at hlength
    omega
  · rw [Nat.add_assoc, Nat.add_comm 1 fuel]
    refine hloads (fuel + 1) e' rest' fun text' h' => ?_
    exact reads_loads_field hlabel (h'.trans htrim) hrest.ends (h rest rfl)

private theorem partReads_of_spine {depth : Nat} (h : Spine (expression depth) e) :
    PartReads (expression (depth + 1)) e := by
  intro text rest htext hrest
  obtain ⟨first, rest₀, count, hread, hlength, hloads⟩ := h text rest htext hrest.toEnds
  refine hread.bind (reads_get_bind fun offset => ?_)
  obtain ⟨fuel, hfuel⟩ : ∃ fuel, rest₀.length + 1 = count + (fuel + 1) :=
    ⟨rest₀.length - count, by omega⟩
  dsimp only
  rw [hfuel]
  exact hloads (fuel + 1) e _ fun text' h' => reads_loads_end h' hrest.loads

end Loads

/-! ## All expressions -/

/-- The parts of a call are written in fewer characters. -/
theorem length_arg_lt {args : List Expr} {e : Expr} (h : e ∈ args) :
    e.chars.length < (argsChars args).length := by
  induction args with
  | nil => cases h
  | cons a args ih =>
    rw [Expr.argsChars_cons, List.length_cons, List.length_append]
    rcases List.mem_cons.1 h with rfl | h
    · omega
    · have := ih h
      omega

private theorem length_field_lt {fields : List (String × Expr)} {e : String × Expr} (h : e ∈ fields) :
    e.2.chars.length < (fieldsChars fields).length := by
  induction fields with
  | nil => cases h
  | cons a fields ih =>
    obtain ⟨label, a⟩ := a
    rw [Expr.fieldsChars_cons]
    rcases List.mem_cons.1 h with rfl | h
    · simp
      omega
    · have := ih h
      have hne : fields ≠ [] := List.ne_nil_of_mem h
      simp [hne]
      omega

section Depth

variable {depth : Nat}
  (ih : ∀ e : Expr, e.All Readable → e.chars.length ≤ depth → PartReads (expression depth) e)

include ih

/-- If the parts of an expression are read back, so is what fields are loaded from. -/
theorem spine_expression : ∀ e : Expr, e.isLet = false → e.All Readable →
    e.chars.length ≤ depth + 1 → Spine (expression depth) e
  | .nil, _, _, _ => spine_of_atom fun _ _ h hrest => .of_reads (reads_nil h hrest)
  | .int _, _, hall, _ => spine_of_atom fun _ _ h hrest =>
      .of_reads (reads_int hall.top.spelled h hrest)
  | .float x, _, hall, _ => spine_of_atom fun _ _ h hrest =>
      .of_reads (reads_float hall.top.spelled (hall.top.moderate x rfl) h hrest)
  | .text _, _, hall, _ => spine_of_atom fun _ _ h _ => .of_reads (reads_text hall.top.spelled h)
  | .prim _, _, hall, _ => spine_of_atom fun _ _ h hrest => reads_prim hall.top.spelled h hrest
  | .ident _, _, hall, _ => spine_of_atom fun _ _ h hrest =>
      reads_ident hall.top.spelled.1 hall.top.spelled.2 h hrest
  | .apply fn args, _, hall, hlength => by
    obtain ⟨htop, hfn, hargs⟩ := Expr.all_apply.1 hall
    rw [Expr.chars_apply] at hlength
    simp at hlength
    refine spine_of_atom fun text rest h _ => .of_reads ?_
    refine reads_call htop.unguarded (starts_chars fn hfn) (fun e he => starts_chars e (hargs e he))
      (ih fn hfn (by omega)) (fun e he => ih e (hargs e he) ?_) h
    have := length_arg_lt he
    omega
  | .lambda params body widen, _, hall, hlength => by
    obtain ⟨htop, hbody⟩ := Expr.all_lambda.1 hall
    obtain ⟨hparams, rfl⟩ := htop.spelled
    rw [Expr.chars_lambda] at hlength
    simp at hlength
    refine spine_of_atom fun text rest h _ => .of_reads ?_
    exact reads_function hparams (starts_chars body hbody) (ih body hbody (by omega)) h
  | .letIn _ _ _, hlet, _, _ => Bool.noConfusion hlet
  | .record fields, _, hall, hlength => by
    obtain ⟨htop, hfields⟩ := Expr.all_record.1 hall
    rw [Expr.chars_record] at hlength
    simp at hlength
    refine spine_of_atom fun text rest h _ => .of_reads ?_
    refine reads_record htop.spelled (fun e he => starts_chars e.2 (hfields e he))
      (fun e he => ih e.2 (hfields e he) ?_) h
    have := length_field_lt he
    omega
  | .field rec label, _, hall, hlength => by
    obtain ⟨htop, hrec⟩ := Expr.all_field.1 hall
    rw [Expr.chars_field] at hlength
    simp at hlength
    exact spine_field (spine_expression rec htop.spelled.1 hrec (by omega)) htop.spelled.2

end Depth

/-- An expression is read back by a reader that is let as deep as the written form is long. -/
theorem partReads_expression (depth : Nat) (e : Expr) (hall : e.All Readable)
    (hlength : e.chars.length ≤ depth) : PartReads (expression depth) e := by
  induction depth generalizing e with
  | zero =>
    obtain ⟨c, rest, hc, -⟩ := starts_chars e hall
    simp [hc] at hlength
  | succ depth ih =>
    cases hlet : e.isLet with
    | false => exact partReads_of_spine (spine_expression ih e hlet hall hlength)
    | true =>
      cases e with
      | letIn x definition body =>
        obtain ⟨htop, hdefinition, hbody⟩ := Expr.all_letIn.1 hall
        rw [Expr.chars_letIn] at hlength
        simp at hlength
        intro text rest h hrest
        have hread := reads_letIn htop.spelled (starts_chars definition hdefinition)
          (starts_chars body hbody) (ih definition hdefinition (by omega))
          (ih body hbody (by omega)) h hrest
        exact hread.bind (reads_get_bind fun offset => reads_loads_end (trim_trim rest) hrest.loads)
      | _ => cases hlet

end Parse

namespace Expr

/-- The written form of a program is read as the same program, if no conditional in it is guarded and
each double in it is zero or from `0.0001` up to below `10 ^ 16`. -/
theorem parse_render {source : String} {e : Expr} (h : parse source = .ok e)
    (hguards : ∀ sub ∈ e.subterms, sub.isGuard = false)
    (hfloats : ∀ x, float x ∈ e.subterms → x.isModerate = true) : parse e.render = .ok e := by
  have hall : e.All Readable := by
    intro sub hsub
    refine ⟨spelled_of_parse h hguards sub hsub, hguards sub hsub, ?_⟩
    rintro x rfl
    exact hfloats x hsub
  have hread := Parse.partReads_expression (e.render.toList.length + 1) e hall (Nat.le_succ _)
  have hprogram : Parse.Reads (Parse.program (e.render.toList.length + 1)) e.render.toList e [] := by
    refine (hread e.render.toList [] ?_ Parse.stops_nil).bind ((Parse.reads_next _).bind ?_)
    · rw [List.append_nil]
      exact (Parse.starts_chars e hall).trim_eq
    · exact Parse.reads_pure _ _
  obtain ⟨offset, hoffset⟩ := hprogram 0
  exact parse_eq_ok.2 ⟨_, hoffset⟩

/-- A program with a definition, a record, a call, a function without parameters and fields loaded
from an identifier and a number is read back from its written form. -/
theorem parse_render_record :
    ∃ e, parse "x=2.50 ;@\x7ba=x.b c = (f \x7b->\"s\"\x7d 3 .l) \x7d" = .ok e ∧
      e.render = "x = 2.5; @\x7b a = x.b, c = (f \x7b -> \"s\" \x7d 3.l) \x7d" ∧
      parse e.render = .ok e := by
  have hparse : parse "x=2.50 ;@\x7ba=x.b c = (f \x7b->\"s\"\x7d 3 .l) \x7d" =
      .ok (.letIn "x" (.float ⟨4612811918334230528⟩) (.record [("a", .field (.ident "x") "b"),
        ("c", .apply (.ident "f") [.lambda [] (.text "s") true, .field (.int 3) "l"])])) := by
    decide +kernel
  refine ⟨_, hparse, by decide +kernel, parse_render hparse (by decide) fun x hx => ?_⟩
  simp [subterms, subtermsOfFields, subtermsOfField, subtermsOfArgs] at hx
  subst hx
  decide +kernel

end Expr

end TypeFlow
