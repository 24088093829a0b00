import Mathlib.Data.List.Induction
import ProtoSchema.Editor.Range
import ProtoSchema.Proofs.Lexical.Splitting

/-!
# ProtoSchema.Proofs.Editor.Range

Ranges of a text. A place behind the first characters of a text is found again in the lines of the text:
its row is the number of line feeds before it, and it stands in that row behind the characters since the
last line feed, whichever units they are counted in (`range_placeBehind`).
-/

namespace ProtoSchema
namespace Text

/-- The characters behind the last line feed. -/
def sinceBreak (cs : List Char) : List Char := (cs.reverse.takeWhile (· != '\n')).reverse

/-- The characters before the first line feed. -/
def untilBreak (cs : List Char) : List Char := cs.takeWhile (· != '\n')

theorem sinceBreak_concat (cs : List Char) (c : Char) :
    sinceBreak (cs ++ [c]) = if c = '\n' then [] else sinceBreak cs ++ [c] := by
  unfold sinceBreak
  rw [List.reverse_append, List.reverse_singleton, List.singleton_append, List.takeWhile_cons]
  by_cases hc : c = '\n' <;> simp [hc]

/-- The first character of what is left of a line. -/
theorem take_one_untilBreak (cs : List Char) :
    (untilBreak cs).take 1 = (cs.head?.filter (· != '\n')).toList := by
  cases cs with
  | nil => rfl
  | cons c cs =>
    by_cases hc : c = '\n' <;> simp [untilBreak, Option.filter, hc]

theorem count_concat_of_ne {cs : List Char} {c : Char} (hc : c ≠ '\n') :
    (cs ++ [c]).count '\n' = cs.count '\n' := by
  rw [List.count_append, List.count_singleton, if_neg (by simpa using hc), Nat.add_zero]

/-! ## Lines -/

theorem head_lines (cs : List Char) : (lines cs)[0]? = some (untilBreak cs) := by
  induction cs with
  | nil => rfl
  | cons c cs ih =>
    unfold lines untilBreak
    by_cases hc : c = '\n'
    · simp [hc]
    · rw [if_neg hc, List.takeWhile_cons_of_pos (by simpa using hc)]
      cases h : lines cs with
      | nil => exact absurd h (lines_ne_nil cs)
      | cons l ls =>
        rw [h] at ih
        obtain rfl : l = untilBreak cs := by simpa using ih
        rfl

/-- A line feed cuts a text in two, line by line. -/
theorem lines_append_break (cs ds : List Char) :
    lines (cs ++ '\n' :: ds) = lines cs ++ lines ds := by
  induction cs with
  | nil => rfl
  | cons c cs ih =>
    rw [List.cons_append, lines, lines, ih]
    by_cases hc : c = '\n'
    · rw [if_pos hc, if_pos hc, List.cons_append]
    · rw [if_neg hc, if_neg hc]
      cases h : lines cs with
      | nil => exact absurd h (lines_ne_nil cs)
      | cons l ls => rfl

/-- The line that is reached behind the characters `cs` of a text. -/
theorem line_behind (cs ds : List Char) :
    (lines (cs ++ ds))[cs.count '\n']? = some (sinceBreak cs ++ untilBreak ds) := by
  induction cs using List.reverseRecOn generalizing ds with
  | nil => exact head_lines ds
  | append_singleton cs c ih =>
    rw [List.append_assoc, List.singleton_append, sinceBreak_concat]
    by_cases hc : c = '\n'
    · -- a new line begins behind all lines of `cs`
      subst hc
      have hlen := length_lines cs
      have hcount : (cs ++ ['\n']).count '\n' = (lines cs).length := by
        rw [hlen, List.count_append]
        rfl
      rw [lines_append_break, hcount, List.getElem?_append_right (Nat.le_refl _), Nat.sub_self]
      exact head_lines ds
    · rw [count_concat_of_ne hc, ih, if_neg hc, untilBreak,
        List.takeWhile_cons_of_pos (by simpa using hc), List.append_assoc]
      rfl

/-! ## Places -/

theorem after_of_no_break {x : List UInt8} (h : Byte.lineFeed ∉ x) (p : Position) :
    p.after x = ⟨p.line, p.column + x.length⟩ := by
  induction x generalizing p with
  | nil => simp
  | cons b x ih =>
    obtain ⟨hb, hx⟩ := not_or.1 (mt List.mem_cons.2 h)
    have hb' : ¬ b = 0x0A := fun e => hb e.symm
    rw [Position.after_cons, ih hx, Position.next, if_neg hb']
    simp only [List.length_cons, Position.mk.injEq, true_and]
    omega

theorem after_encodeChar (p : Position) (c : Char) :
    p.after (String.utf8EncodeChar c) =
      if c = '\n' then ⟨p.line + 1, 1⟩ else ⟨p.line, p.column + (String.utf8EncodeChar c).length⟩ := by
  by_cases hc : c = '\n'
  · subst hc
    rfl
  · rw [if_neg hc]
    refine after_of_no_break (fun hmem => ?_) p
    by_cases ha : c.toNat < 0x80
    · rw [encodeChar_ascii ha, List.mem_singleton, Utf8.eq_iff_toNat_eq,
        Utf8.toNat_ofNat_of_lt (by omega)] at hmem
      exact hc (Char.toNat_inj.1 hmem.symm)
    · have := encodeChar_of_not_ascii ha _ hmem
      revert this
      decide

/-- The place behind a text: its line feeds count the lines, the bytes behind the last of them the
columns. -/
theorem placeBehind_encode (cs : List Char) :
    Lexical.placeBehind (Utf8.encode cs) =
      ⟨1 + cs.count '\n', 1 + (Utf8.encode (sinceBreak cs)).length⟩ := by
  induction cs using List.reverseRecOn with
  | nil => rfl
  | append_singleton cs c ih =>
    have hchar : Utf8.encode [c] = String.utf8EncodeChar c := List.append_nil _
    rw [Utf8.encode_append, hchar, ← Lexical.after_placeBehind, ih, after_encodeChar, sinceBreak_concat]
    by_cases hc : c = '\n'
    · subst hc
      simp [List.count_append, Int.add_assoc]
    · rw [if_neg hc, if_neg hc, count_concat_of_ne hc, Utf8.encode_append, hchar, List.length_append]
      simp [Int.add_assoc]

end Text

/-! ## Ranges -/

open Text

/-- The range of `length` characters from a place in a source. -/
def Position.range (p : Position) (lines : List (List Char)) (length : Nat) (e : Encoding) : Range :=
  Range.convert lines p.line p.column length e

/-- Exactly the characters fit whose bytes are counted. -/
theorem fitting_encode (cs ds : List Char) : fitting (Utf8.encode cs).length (cs ++ ds) = cs := by
  induction cs with
  | nil =>
    cases ds with
    | nil => rfl
    | cons d ds =>
      have hd := d.utf8Size_pos
      rw [List.nil_append, fitting, if_neg (by simp; omega)]
  | cons c cs ih =>
    have hlen : (Utf8.encode (c :: cs)).length = c.utf8Size + (Utf8.encode cs).length := by
      rw [Utf8.encode_cons, List.length_append, String.length_utf8EncodeChar]
    rw [List.cons_append, fitting, hlen, if_pos (Nat.le_add_right _ _), Nat.add_sub_cancel_left, ih]

/-- The range of `length` characters behind the characters `cs` of a text. -/
theorem range_placeBehind (cs ds : List Char) (length : Nat) (e : Encoding) :
    (Lexical.placeBehind (Utf8.encode cs)).range (lines (cs ++ ds)) length e =
      ⟨⟨cs.count '\n', e.units (sinceBreak cs)⟩, ⟨cs.count '\n',
        e.units (sinceBreak cs) + e.units ((untilBreak ds).take length)⟩⟩ := by
  have hrow : ((1 + (cs.count '\n' : Int)) - 1).toNat = cs.count '\n' := by omega
  have hcolumn (n : Nat) : ((1 + (n : Int)) - 1).toNat = n := by omega
  have hindex (n m size : Nat) : indexOf size ((n : Int) + m) = n + m := by
    unfold indexOf
    rw [if_neg (by omega)]
    omega
  rw [placeBehind_encode, Position.range, Range.convert]
  simp only [hrow, hcolumn, hindex, line_behind, Option.getD_some, fitting_encode]
  rw [List.take_length_add_append, List.drop_left]

end ProtoSchema
