import Mathlib.Data.String.Basic
import TypeFlow.Expr.Parser

/-!
# Cursors in a text

A cursor counts the bytes it has passed.  The cursors in a text are those that have passed a part of
it and have the rest still before them, so their positions are positions in its UTF-8 form.

Main definitions:

- `Cursor.Ahead`: a cursor that has moved on from another.
- `Cursor.In`: a cursor that stands in a text.
- `ParseError.PointsInto`: an error that names a position of a text.

Main results:

- `Cursor.In.offset_le`: a cursor is never past the last byte.
- `Cursor.In.byte_of_head?`: the byte at a cursor is no blank if the character there is none.
-/

namespace TypeFlow

open String (utf8Len)

/-! ## Positions -/

/-- The bytes that stand for blanks. -/
def isBlankByte (b : UInt8) : Bool := b == 0x20 || b == 0x09 || b == 0x0a || b == 0x0c || b == 0x0d

private theorem isBlank_eq_isBlankByte {c : Char} (h : c.val ≤ 127) :
    Parse.isBlank c = isBlankByte c.val.toUInt8 := by
  have hbyte : ∀ x : Char, x.val ≤ 127 → ((c == x) = (c.val.toUInt8 == x.val.toUInt8)) := by
    intro x hx
    rw [Bool.eq_iff_iff, beq_iff_eq, beq_iff_eq, Char.ext_iff, ← UInt32.toNat_inj,
      ← UInt8.toNat_inj, UInt32.toNat_toUInt8, UInt32.toNat_toUInt8]
    have hc : c.val.toNat ≤ 127 := h
    have hx : x.val.toNat ≤ 127 := hx
    omega
  unfold Parse.isBlank isBlankByte
  rw [hbyte ' ' (by decide), hbyte '\t' (by decide), hbyte '\n' (by decide),
    hbyte '\x0c' (by decide), hbyte '\r' (by decide)]
  rfl

/-- The first byte of a character is no blank if the character is none. -/
theorem isBlankByte_head {c : Char} {b : UInt8} (hb : (String.utf8EncodeChar c).head? = some b)
    (h : Parse.isBlank c = false) : isBlankByte b = false := by
  by_cases hsize : c.val ≤ 127
  · rw [String.utf8EncodeChar_eq_singleton (Char.utf8Size_eq_one_iff.2 hsize)] at hb
    cases hb
    rw [← isBlank_eq_isBlankByte hsize, h]
  · -- The first byte of a longer form is at least 192.
    have hlarge : 192 ≤ b.toNat := by
      have hval : ¬c.val.toNat ≤ 127 := hsize
      unfold String.utf8EncodeChar at hb
      simp only [hval, if_false] at hb
      split_ifs at hb
      all_goals
        cases hb
        rw [UInt8.toNat_ofNat']
        omega
    simp only [isBlankByte, Bool.or_eq_false_iff, beq_eq_false_iff_ne]
    refine ⟨⟨⟨⟨?_, ?_⟩, ?_⟩, ?_⟩, ?_⟩ <;>
    · rintro rfl
      revert hlarge
      decide

/-! ## Cursors that move on -/

namespace Cursor

variable {c d e : Cursor}

/-- How many characters are left. -/
def left (c : Cursor) : Nat := c.rest.length

/-- The second cursor is the first one, moved past a run of characters. -/
def Ahead (c d : Cursor) : Prop :=
  ∃ run, c.rest = run ++ d.rest ∧ d.offset = c.offset + utf8Len run

/-- A cursor is ahead of itself. -/
theorem Ahead.refl (c : Cursor) : c.Ahead c := ⟨[], rfl, rfl⟩

/-- What is ahead of what is ahead is ahead. -/
theorem Ahead.trans (h : c.Ahead d) (h' : d.Ahead e) : c.Ahead e := by
  obtain ⟨run, hrest, hoffset⟩ := h
  obtain ⟨run', hrest', hoffset'⟩ := h'
  refine ⟨run ++ run', by rw [hrest, hrest', List.append_assoc], ?_⟩
  rw [hoffset', hoffset, String.utf8Len_append, Nat.add_assoc]

/-- Nothing more is left ahead. -/
theorem Ahead.left_le (h : c.Ahead d) : d.left ≤ c.left := by
  obtain ⟨run, hrest, -⟩ := h
  simp [left, hrest]

/-- The offset is no less ahead. -/
theorem Ahead.offset_le (h : c.Ahead d) : c.offset ≤ d.offset := by
  obtain ⟨run, -, hoffset⟩ := h
  omega

/-- A cursor that has passed a character has passed a byte. -/
theorem Ahead.offset_lt (h : c.Ahead d) (hleft : d.left < c.left) : c.offset < d.offset := by
  obtain ⟨run, hrest, hoffset⟩ := h
  have hrun : utf8Len run ≠ 0 := by
    rw [Ne, String.utf8Len_eq_zero]
    rintro rfl
    rw [List.nil_append] at hrest
    rw [left, left, hrest] at hleft
    exact lt_irrefl _ hleft
  omega

/-- Advancing goes ahead. -/
theorem ahead_advance (c : Cursor) : c.Ahead c.advance := by
  rcases c with ⟨_ | ⟨x, rest⟩, offset⟩
  · exact .refl _
  · exact ⟨[x], rfl, by simp [advance]⟩

/-- Advancing past a character leaves less. -/
theorem left_advance_lt {x : Char} (h : c.rest.head? = some x) : c.advance.left < c.left := by
  rcases c with ⟨_ | ⟨y, rest⟩, offset⟩
  · cases h
  · exact Nat.lt_succ_self rest.length

/-- The cursor stands in the text. -/
def In (text : String) (c : Cursor) : Prop := Ahead ⟨text.toList, 0⟩ c

variable {text : String}

/-- Reading begins in the text. -/
theorem in_start (text : String) : In text ⟨text.toList, 0⟩ := .refl _

/-- What is ahead of a cursor in a text is in it. -/
theorem In.ahead (h : c.In text) (hd : c.Ahead d) : d.In text := Ahead.trans h hd

private theorem utf8ByteSize_eq (text : String) : text.utf8ByteSize = utf8Len text.toList := by
  rw [← String.utf8ByteSize_ofList, String.ofList_toList]

/-- The offset is one in the text. -/
theorem In.offset_le (h : c.In text) : c.offset ≤ text.utf8ByteSize := by
  obtain ⟨run, hrest, hoffset⟩ := h
  have htext : text.toList = run ++ c.rest := hrest
  have hrun : c.offset = utf8Len run := by rw [hoffset, Nat.zero_add]
  rw [utf8ByteSize_eq, htext, String.utf8Len_append, hrun]
  exact Nat.le_add_right _ _

/-- Where a character stands that is no blank, there is a byte that is none. -/
theorem In.byte_of_head? {x : Char} (h : c.In text) (hx : c.rest.head? = some x)
    (hblank : Parse.isBlank x = false) :
    ∃ hsize : c.offset < text.toUTF8.size, isBlankByte text.toUTF8[c.offset] = false := by
  obtain ⟨run, hrest, hoffset⟩ := h
  obtain ⟨rest, hrest'⟩ := List.head?_eq_some_iff.1 hx
  obtain ⟨b, bytes, hbytes⟩ : ∃ b bytes, String.utf8EncodeChar x = b :: bytes := by
    refine List.exists_cons_of_length_pos ?_
    rw [String.length_utf8EncodeChar]
    exact x.utf8Size_pos
  have htext : text = String.ofList (run ++ x :: rest) := by
    rw [← hrest', ← hrest, String.ofList_toList]
  have hrun : c.offset = run.utf8Encode.size := by
    rw [← String.toByteArray_ofList, String.size_toByteArray, String.utf8ByteSize_ofList, hoffset]
    exact Nat.zero_add _
  have hutf8 : text.toUTF8 = run.utf8Encode ++ ((b :: bytes).toByteArray ++ rest.utf8Encode) := by
    rw [String.toUTF8, htext, String.toByteArray_ofList, List.utf8Encode_append,
      List.utf8Encode_cons (c := x), List.utf8Encode_singleton, hbytes]
  have hsize : c.offset < text.toUTF8.size := by
    rw [hutf8, hrun, ByteArray.size_append, ByteArray.size_append, List.size_toByteArray,
      List.length_cons]
    omega
  refine ⟨hsize, ?_⟩
  have hbyte : text.toUTF8[c.offset] = b := by
    simp only [hutf8, hrun]
    rw [ByteArray.getElem_append_right (Nat.le_refl _),
      ByteArray.getElem_append_left (by simp), List.getElem_toByteArray]
    simp
  rw [hbyte]
  exact isBlankByte_head (by rw [hbytes]; rfl) hblank

end Cursor

/-! ## Errors that point into a text -/

namespace ParseError

/-- The position that an error names. -/
def offset? : ParseError → Option Nat
  | unexpectedEnd => none
  | expected _ offset | missingName offset | unknownForm offset | badNumber offset
  | trailing offset => some offset

/-- The error names no position past the text, and if it is about the sign at a position, one stands
there. -/
structure PointsInto (text : String) (e : ParseError) : Prop where
  offset_le : ∀ n, e.offset? = some n → n ≤ text.utf8ByteSize
  byte : ∀ n, e = .unknownForm n ∨ e = .trailing n →
    ∃ hsize : n < text.toUTF8.size, isBlankByte text.toUTF8[n] = false

variable {text : String} {c : Cursor}

/-- An error about no sign points into the text if its position is one of the text. -/
theorem PointsInto.of_offset_le {e : ParseError}
    (h : ∀ n, e.offset? = some n → n ≤ text.utf8ByteSize)
    (hsign : ∀ n, e ≠ .unknownForm n ∧ e ≠ .trailing n) : e.PointsInto text :=
  ⟨h, fun n hn => absurd hn (not_or.2 (hsign n))⟩

/-- An error about the sign at a cursor. -/
theorem PointsInto.sign {e : ParseError} {x : Char} (h : c.In text) (hx : c.rest.head? = some x)
    (hblank : Parse.isBlank x = false) (he : e = .unknownForm c.offset ∨ e = .trailing c.offset) :
    e.PointsInto text := by
  have hoffset : e.offset? = some c.offset := by
    rcases he with rfl | rfl <;> rfl
  refine ⟨fun n hn => ?_, fun n hn => ?_⟩
  · rw [hoffset] at hn
    cases hn
    exact h.offset_le
  · have hn : e.offset? = some n := by
      rcases hn with rfl | rfl <;> rfl
    rw [hoffset] at hn
    cases hn
    exact h.byte_of_head? hx hblank

end ParseError

end TypeFlow
