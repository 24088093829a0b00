import Mathlib.Data.List.Flatten
import ProtoSchema.Proofs.Editor.Conversion
import ProtoSchema.Proofs.Lexical.Encoding
import ProtoSchema.Proofs.Lexical.Order

/-!
# ProtoSchema.Proofs.Editor.Spot

Where the tokens of a text stand among its characters. `spotAt` is the place behind the first characters of
a text as editors count it, and it moves on with every character (`spotAt_lt`). A token that is neither a
string nor a comment is spelled in the text as it is shown; `StandsAt` says at which character it begins,
and from there its range is known (`StandsAt.range`).
-/

namespace ProtoSchema

open Text Lexical Utf8

namespace Spot

instance : LT Spot where
  lt p q := p.line < q.line ∨ p.line = q.line ∧ p.character < q.character

theorem lt_iff {p q : Spot} :
    p < q ↔ p.line < q.line ∨ p.line = q.line ∧ p.character < q.character := Iff.rfl

theorem lt_trans {p q r : Spot} (h : p < q) (h' : q < r) : p < r := by
  rw [lt_iff] at *
  omega

instance : LE Spot where
  le p q := p < q ∨ p = q

theorem le_refl (p : Spot) : p ≤ p := .inr rfl

theorem le_of_lt {p q : Spot} (h : p < q) : p ≤ q := .inl h

end Spot

namespace Encoding

theorem width_pos (e : Encoding) (c : Char) : 0 < e.width c := by
  cases e with
  | utf8 => exact c.utf8Size_pos
  | utf16 =>
    rw [width]
    split <;> decide
  | utf32 => exact Nat.one_pos

theorem units_singleton (e : Encoding) (c : Char) : e.units [c] = e.width c := rfl

theorem units_pos (e : Encoding) {cs : List Char} (h : cs ≠ []) : 0 < e.units cs := by
  obtain ⟨c, cs, rfl⟩ := List.exists_cons_of_ne_nil h
  exact Nat.add_pos_left (e.width_pos c) _

theorem length_le_units (e : Encoding) (cs : List Char) : cs.length ≤ e.units cs := by
  induction cs with
  | nil => exact Nat.zero_le _
  | cons c cs ih =>
    have := e.width_pos c
    have hcons : e.units (c :: cs) = e.width c + e.units cs := rfl
    rw [List.length_cons, hcons]
    omega

theorem units_le_of_sublist (e : Encoding) {cs ds : List Char} (h : cs.Sublist ds) :
    e.units cs ≤ e.units ds := by
  rw [units_eq, units_eq]
  exact (h.flatMap _).length_le

end Encoding

variable {cs : List Char} {e : Encoding} {j k : Nat} {t : Token}

/-! ## Places between characters -/

/-- The place behind the first `k` characters of a text. -/
def spotAt (cs : List Char) (e : Encoding) (k : Nat) : Spot :=
  ⟨(cs.take k).count '\n', e.units (sinceBreak (cs.take k))⟩

theorem spotAt_lt_succ (h : k < cs.length) : spotAt cs e k < spotAt cs e (k + 1) := by
  rw [Spot.lt_iff, spotAt, spotAt, List.take_succ_eq_append_getElem h, sinceBreak_concat]
  by_cases hc : cs[k] = '\n'
  · left
    rw [hc, List.count_append]
    exact Nat.lt_succ_self _
  · right
    refine ⟨(count_concat_of_ne hc).symm, ?_⟩
    rw [if_neg hc, e.units_append, e.units_singleton]
    exact Nat.lt_add_of_pos_right (e.width_pos _)

theorem spotAt_lt (h : j < k) (hk : k ≤ cs.length) : spotAt cs e j < spotAt cs e k := by
  induction h with
  | refl => exact spotAt_lt_succ hk
  | step _ ih => exact Spot.lt_trans (ih (Nat.le_of_succ_le hk)) (spotAt_lt_succ hk)

/-- The row of a place: the characters since the last line feed and those until the next. -/
theorem row_spotAt (cs : List Char) (e : Encoding) (k : Nat) :
    (lines cs)[(spotAt cs e k).line]? = some (sinceBreak (cs.take k) ++ untilBreak (cs.drop k)) := by
  have hrow := line_behind (cs.take k) (cs.drop k)
  rwa [List.take_append_drop] at hrow

/-- A row is no longer than its text. -/
theorem units_row_le (cs : List Char) (e : Encoding) (k : Nat) :
    e.units (sinceBreak (cs.take k) ++ untilBreak (cs.drop k)) ≤ e.units cs := by
  have hsince : (sinceBreak (cs.take k)).Sublist (cs.take k) := by
    have hsub := ((cs.take k).reverse.takeWhile_sublist (· != '\n')).reverse
    rwa [List.reverse_reverse] at hsub
  have hrow := hsince.append ((cs.drop k).takeWhile_sublist (· != '\n'))
  rw [List.take_append_drop] at hrow
  exact e.units_le_of_sublist hrow

theorem line_spotAt_le (cs : List Char) (e : Encoding) (k : Nat) :
    (spotAt cs e k).line ≤ e.units cs :=
  calc (cs.take k).count '\n' ≤ (cs.take k).length := List.count_le_length
    _ ≤ cs.length := List.length_take_le' ..
    _ ≤ e.units cs := e.length_le_units cs

/-! ## Ranges -/

/-- The range of at most `length` characters from the one at `k`, in the row of that one. -/
def rangeFrom (cs : List Char) (e : Encoding) (k length : Nat) : Range :=
  ⟨spotAt cs e k, ⟨(spotAt cs e k).line,
    (spotAt cs e k).character + e.units ((untilBreak (cs.drop k)).take length)⟩⟩

theorem stop_rangeFrom_le (cs : List Char) (e : Encoding) (k length : Nat) :
    (rangeFrom cs e k length).stop.character ≤
      e.units (sinceBreak (cs.take k) ++ untilBreak (cs.drop k)) := by
  rw [e.units_append]
  exact Nat.add_le_add_left (e.units_le_of_sublist (List.take_sublist _ _)) _

/-- The range from the place behind the first `k` characters. -/
theorem range_of_place {p : Position} (h : p = placeBehind (encode (cs.take k))) (length : Nat)
    (e : Encoding) : p.range (lines cs) length e = rangeFrom cs e k length := by
  have hrange := range_placeBehind (cs.take k) (cs.drop k) length e
  rwa [List.take_append_drop, ← h] at hrange

/-- The ranges of a text that is not longer than a limit stay below the limit. -/
theorem fits_rangeFrom {limit : Nat} (h : e.units cs ≤ limit) (k length : Nat) :
    (rangeFrom cs e k length).Fits limit := by
  have hline : (spotAt cs e k).line ≤ e.units cs := line_spotAt_le cs e k
  have hstop : (rangeFrom cs e k length).stop.character ≤ e.units cs :=
    Nat.le_trans (stop_rangeFrom_le cs e k length) (units_row_le cs e k)
  have hstart : (rangeFrom cs e k length).start.character ≤ (rangeFrom cs e k length).stop.character :=
    Nat.le_add_right _ _
  exact ⟨⟨by simp only [rangeFrom]; omega, by omega⟩, ⟨by simp only [rangeFrom]; omega, by omega⟩⟩

/-- The place of a byte does not decrease from one character to a later one. -/
theorem placeBehind_take_not_lt (h : j ≤ k) :
    ¬ placeBehind (encode (cs.take k)) < placeBehind (encode (cs.take j)) := by
  obtain ⟨n, rfl⟩ := Nat.exists_eq_add_of_le h
  rw [List.take_add, encode_append, ← after_placeBehind]
  intro hlt
  cases hbytes : encode ((cs.drop j).take n) with
  | nil =>
    rw [hbytes] at hlt
    exact Position.lt_irrefl _ hlt
  | cons b bs =>
    rw [hbytes] at hlt
    exact Position.lt_irrefl _ (Position.lt_trans hlt (Position.lt_after _ b bs))

/-! ## Tokens -/

theorem encode_injective {ds : List Char} (h : encode cs = encode ds) : cs = ds :=
  Except.ok.inj ((decode_eq_ok_iff.2 h).symm.trans (decode_eq_ok_iff.2 rfl))

/-- Where the bytes of a text are cut before an ASCII byte, its characters are cut. -/
theorem exists_take_of_encode {a y : List UInt8} {b : UInt8} (h : encode cs = a ++ b :: y)
    (hb : b.toNat < 0x80) : ∃ k, a = encode (cs.take k) ∧ b :: y = encode (cs.drop k) := by
  obtain ⟨⟨us, rfl⟩, ⟨vs, hvs⟩⟩ :=
    (isEncoding_append_cons (not_isContinuation_of_ascii hb)).1 ⟨cs, h⟩
  obtain rfl : cs = us ++ vs := encode_injective (by rw [h, encode_append, hvs])
  exact ⟨us.length, by rw [List.take_left], by rw [List.drop_left, hvs]⟩

/-- The token `t` begins with the character at `k` of a text: it is read from there, its spelling is what
stands there, and its place is that of the character. -/
structure StandsAt (cs : List Char) (k : Nat) (t : Token) : Prop where
  read : ∃ x rest, encode (cs.drop k) = x ++ rest ∧ Reading x rest t.lexeme
  spelled : t.lexeme.plain.toList <+: cs.drop k
  place : t.position = placeBehind (encode (cs.take k))

/-- Lexemes that are written as they are shown: all but strings and comments. -/
def Lexeme.IsSpelled (l : Lexeme) : Prop := (∀ s, l ≠ .text s) ∧ ∀ s, l ≠ .comment s

/-- Every spelled token of a text begins with one of its characters. -/
theorem Lexical.Splits.standsAt {ps : List Piece} {tail : List UInt8}
    (h : Splits (encode cs) ps tail) (ht : t ∈ placed [] ps) (hspelled : t.lexeme.IsSpelled) :
    ∃ k, StandsAt cs k t := by
  obtain ⟨a, x, rest, hcs, hread, hplace⟩ := h.of_mem_placed ht
  have hascii := hread.ascii hspelled.1 hspelled.2
  have hplain := hread.bytes_plain hspelled.1 hspelled.2
  obtain ⟨b, y, hx, _⟩ := hread.head
  have hcut : encode cs = a ++ b :: (y ++ rest) := by rw [hcs, hx, List.cons_append]
  obtain ⟨k, rfl, hdrop⟩ := exists_take_of_encode hcut (hascii b (by simp [hx]))
  have hdrop : encode (cs.drop k) = x ++ rest := by rw [← hdrop, hx, List.cons_append]
  -- what is behind the token encodes characters too
  obtain ⟨ws, hws⟩ := (isEncoding_of_ascii hascii).append_iff.1 ⟨_, hdrop⟩
  refine ⟨k, ⟨x, rest, hdrop, hread⟩, ⟨ws, ?_⟩, hplace⟩
  exact encode_injective (by rw [encode_append, hws, hdrop, ← hplain]; rfl)

namespace StandsAt

/-- A token begins with a character that ends no line. -/
theorem head (h : StandsAt cs k t) : ∃ c vs, cs.drop k = c :: vs ∧ c ≠ '\n' := by
  obtain ⟨x, rest, hdrop, hread⟩ := h.read
  obtain ⟨b, y, rfl, ⟨hb, _⟩, _⟩ := hread.head
  cases hvs : cs.drop k with
  | nil =>
    rw [hvs] at hdrop
    cases hdrop
  | cons c vs =>
    refine ⟨c, vs, rfl, ?_⟩
    rintro rfl
    rw [hvs] at hdrop
    obtain ⟨rfl, _⟩ := List.cons.inj hdrop
    cases hb

theorem lt_length (h : StandsAt cs k t) : k < cs.length := by
  obtain ⟨c, vs, hvs, _⟩ := h.head
  refine Nat.lt_of_not_le fun hk => ?_
  rw [List.drop_of_length_le hk] at hvs
  cases hvs

theorem untilBreak_ne_nil (h : StandsAt cs k t) : untilBreak (cs.drop k) ≠ [] := by
  obtain ⟨c, vs, hvs, hc⟩ := h.head
  rw [hvs, untilBreak, List.takeWhile_cons_of_pos (by simpa using hc)]
  exact List.cons_ne_nil _ _

/-- Tokens at later places begin with later characters. -/
theorem lt_of_lt {u : Token} (h : StandsAt cs j t) (hu : StandsAt cs k u)
    (hlt : t.position < u.position) : j < k := by
  refine Nat.lt_of_not_le fun hk => ?_
  rw [h.place, hu.place] at hlt
  exact placeBehind_take_not_lt hk hlt

/-- The range from the place of a token. -/
theorem range (h : StandsAt cs k t) (length : Nat) (e : Encoding) :
    t.position.range (lines cs) length e = rangeFrom cs e k length :=
  range_of_place h.place length e

theorem range_nonempty (h : StandsAt cs k t) (e : Encoding) {length : Nat} (hlength : length ≠ 0) :
    (rangeFrom cs e k length).start < (rangeFrom cs e k length).stop := by
  have hne : (untilBreak (cs.drop k)).take length ≠ [] := by
    simpa [hlength] using h.untilBreak_ne_nil
  exact .inr ⟨rfl, Nat.lt_add_of_pos_right (e.units_pos hne)⟩

end StandsAt
end ProtoSchema
