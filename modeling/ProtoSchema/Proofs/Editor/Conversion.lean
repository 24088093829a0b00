import ProtoSchema.Proofs.Editor.Protocol
import ProtoSchema.Proofs.Editor.Range

/-!
# ProtoSchema.Proofs.Editor.Conversion

From byte columns to characters. A range starts behind the longest run of whole characters that the
bytes before its column hold, which is what can be read of those bytes (`decodeIgnoring_take`), and its
ends stand between the code units of whole characters. `rangeAt_exact` says so for every line, column and
length, and which ranges are beyond the numbers of a protocol.
-/

namespace ProtoSchema
namespace Utf8

/-! ## Reading bytes with bad sequences -/

/-- A bad sequence has a byte. -/
theorem fault_nonempty {n : Nat} {bs : List UInt8} {f : Fault} (h : decodeFrom n bs = .error f) :
    bs ≠ [] ∧ f.bytes ≠ [] := by
  have tail {c : Char} {r : Except Fault (List Char)} {f : Fault} (h : r.map (c :: ·) = .error f) :
      r = .error f := by
    cases r <;> cases h
    rfl
  fun_induction decodeFrom n bs
  all_goals try (cases h; exact ⟨List.cons_ne_nil _ _, List.cons_ne_nil _ _⟩)
  case case1 => cases h
  case case3 ih => exact ⟨List.cons_ne_nil _ _, (ih (tail h)).2⟩
  case case5 ih => exact ⟨List.cons_ne_nil _ _, (ih (tail h)).2⟩
  case case9 ih => exact ⟨List.cons_ne_nil _ _, (ih (tail h)).2⟩
  case case15 ih => exact ⟨List.cons_ne_nil _ _, (ih (tail h)).2⟩

/-- The characters of a byte list whose bad sequences are left out. -/
def decodeIgnoring (bs : List UInt8) : List Char :=
  match _h : decode bs with
  | .ok cs => cs
  | .error f =>
    (decode (bs.take f.offset)).toOption.getD [] ++
      decodeIgnoring (bs.drop (f.offset + f.bytes.length))
termination_by bs.length
decreasing_by
  obtain ⟨hbs, hf⟩ := fault_nonempty _h
  have := List.length_pos_iff.2 hbs
  have := List.length_pos_iff.2 hf
  rw [List.length_drop]
  omega

theorem decodeIgnoring_of_ok {bs : List UInt8} {cs : List Char} (h : decode bs = .ok cs) :
    decodeIgnoring bs = cs := by
  rw [decodeIgnoring]
  split <;> simp_all

theorem decodeIgnoring_of_error {bs : List UInt8} {f : Fault} (h : decode bs = .error f) :
    decodeIgnoring bs = (decode (bs.take f.offset)).toOption.getD [] ++
      decodeIgnoring (bs.drop (f.offset + f.bytes.length)) := by
  rw [decodeIgnoring]
  split <;> simp_all

theorem decodeFrom_encode_append (cs : List Char) (n : Nat) (bs : List UInt8) :
    decodeFrom n (encode cs ++ bs) =
      (decodeFrom (n + (encode cs).length) bs).map (cs ++ ·) := by
  induction cs generalizing n with
  | nil =>
    show decodeFrom n bs = (decodeFrom n bs).map id
    cases decodeFrom n bs <;> rfl
  | cons c cs ih =>
    rw [encode_cons, List.append_assoc, (sequence_encodeChar c).decodeFrom, ih, List.length_append,
      Nat.add_assoc]
    cases decodeFrom (n + _) bs <;> rfl

/-- A character that is cut off is one bad sequence. -/
theorem Sequence.decodeFrom_take {x : List UInt8} {c : Char} (h : Sequence x c) (n : Nat) {m : Nat}
    (h₀ : 0 < m) (hm : m < x.length) :
    Utf8.decodeFrom n (x.take m) = .error ⟨n, x.take m, .cutShort⟩ := by
  cases h with
  | one => simp only [List.length_singleton] at hm; omega
  | two h₁ h₂ hb =>
    obtain rfl : m = 1 := by simp only [List.length_cons, List.length_nil] at hm; omega
    rw [Utf8.decodeFrom.eq_def]
    simp [lead_two h₁ h₂]
  | three h₁ h₂ hb hc =>
    simp only [List.length_cons, List.length_nil] at hm
    rw [Utf8.decodeFrom.eq_def]
    obtain rfl | rfl : m = 1 ∨ m = 2 := by omega
    · simp [lead_three h₁ h₂]
    · simp [lead_three h₁ h₂, hb]
  | four h₁ h₂ hb hc hd =>
    simp only [List.length_cons, List.length_nil] at hm
    rw [Utf8.decodeFrom.eq_def]
    obtain rfl | rfl | rfl : m = 1 ∨ m = 2 ∨ m = 3 := by omega
    · simp [lead_four h₁ h₂]
    · simp [lead_four h₁ h₂, hb]
    · simp [lead_four h₁ h₂, hb, hc]

/-- Whole characters are read, and the one that is cut off behind them is left out. -/
theorem decodeIgnoring_cut (cs : List Char) (c : Char) {m : Nat}
    (hm : m < (String.utf8EncodeChar c).length) :
    decodeIgnoring (encode cs ++ (String.utf8EncodeChar c).take m) = cs := by
  rcases Nat.eq_zero_or_pos m with rfl | h₀
  · rw [List.take_zero, List.append_nil]
    exact decodeIgnoring_of_ok (decode_eq_ok_iff.2 rfl)
  · have hcut := (sequence_encodeChar c).decodeFrom_take (0 + (encode cs).length) h₀ hm
    have hfault : decode (encode cs ++ (String.utf8EncodeChar c).take m) =
        .error ⟨(encode cs).length, (String.utf8EncodeChar c).take m, .cutShort⟩ := by
      rw [decode, decodeFrom_encode_append, hcut, Nat.zero_add]
      rfl
    have hrest : decodeIgnoring [] = [] := decodeIgnoring_of_ok rfl
    rw [decodeIgnoring_of_error hfault]
    simp only [List.take_left, ← List.length_append, List.drop_length, hrest,
      decode_eq_ok_iff.2 (rfl : encode cs = encode cs)]
    exact List.append_nil cs

end Utf8

open Utf8

/-! ## Whole characters in a number of bytes -/

/-- What the first bytes of a text hold: characters that fit, and the front of the next one. -/
theorem take_encode (n : Nat) (cs : List Char) :
    (encode cs).take n = encode (fitting n cs) ∨
      ∃ c m, m < (String.utf8EncodeChar c).length ∧
        (encode cs).take n = encode (fitting n cs) ++ (String.utf8EncodeChar c).take m := by
  induction cs generalizing n with
  | nil => exact .inl List.take_nil
  | cons c cs ih =>
    have hlen : (String.utf8EncodeChar c).length = c.utf8Size := String.length_utf8EncodeChar c
    rw [encode_cons, List.take_append, hlen, fitting]
    by_cases hc : c.utf8Size ≤ n
    · rw [if_pos hc, encode_cons, List.take_of_length_le (hlen.symm ▸ hc)]
      rcases ih (n - c.utf8Size) with h | ⟨d, m, hm, h⟩
      · exact .inl (by rw [h])
      · exact .inr ⟨d, m, hm, by rw [h, List.append_assoc]⟩
    · rw [if_neg hc]
      refine .inr ⟨c, n, by omega, ?_⟩
      rw [Nat.sub_eq_zero_of_le (by omega), List.take_zero, List.append_nil]
      rfl

/-- What can be read of the first bytes of a text are the characters that fit into them. -/
theorem decodeIgnoring_take (n : Nat) (cs : List Char) :
    decodeIgnoring ((encode cs).take n) = fitting n cs := by
  rcases take_encode n cs with h | ⟨c, m, hm, h⟩
  · rw [h]
    exact decodeIgnoring_of_ok (decode_eq_ok_iff.2 rfl)
  · rw [h]
    exact decodeIgnoring_cut _ c hm

/-- The first `k` characters of a text are all that `n` bytes hold of it. -/
structure RoundsTo (n : Nat) (cs : List Char) (k : Nat) : Prop where
  le : k ≤ cs.length
  holds : (encode (cs.take k)).length ≤ n
  most : ∀ j ≤ cs.length, (encode (cs.take j)).length ≤ n → j ≤ k

theorem RoundsTo.mono {n n' k k' : Nat} {cs : List Char} (h : RoundsTo n cs k)
    (h' : RoundsTo n' cs k') (hn : n ≤ n') : k ≤ k' :=
  h'.most k h.le (Nat.le_trans h.holds hn)

theorem length_encode_take_succ (c : Char) (cs : List Char) (k : Nat) :
    (encode ((c :: cs).take (k + 1))).length = c.utf8Size + (encode (cs.take k)).length := by
  rw [List.take_succ_cons, encode_cons, List.length_append, String.length_utf8EncodeChar]

theorem fitting_roundsTo (n : Nat) (cs : List Char) :
    ∃ k, fitting n cs = cs.take k ∧ RoundsTo n cs k := by
  induction cs generalizing n with
  | nil => exact ⟨0, rfl, Nat.le_refl _, Nat.zero_le _, fun j hj _ => hj⟩
  | cons c cs ih =>
    rw [fitting]
    by_cases hc : c.utf8Size ≤ n
    · obtain ⟨k, hk, hle, hholds, hmost⟩ := ih (n - c.utf8Size)
      rw [if_pos hc, hk]
      refine ⟨k + 1, rfl, Nat.succ_le_succ hle, ?_, fun j hj hfit => ?_⟩
      · rw [length_encode_take_succ]
        omega
      · cases j with
        | zero => exact Nat.zero_le _
        | succ j =>
          rw [length_encode_take_succ] at hfit
          exact Nat.succ_le_succ (hmost j (Nat.le_of_succ_le_succ hj) (by omega))
    · rw [if_neg hc]
      refine ⟨0, rfl, Nat.zero_le _, Nat.zero_le _, fun j _ hfit => ?_⟩
      cases j with
      | zero => exact Nat.le_refl _
      | succ j =>
        rw [length_encode_take_succ] at hfit
        omega

/-! ## Code units -/

namespace Encoding

/-- The code units of a character: its bytes, one or two units of 16 bits, or its number. -/
def codeUnits (e : Encoding) (c : Char) : List Nat :=
  match e with
  | utf8 => (String.utf8EncodeChar c).map UInt8.toNat
  | utf16 =>
    if c.toNat < 0x10000 then [c.toNat]
    else [0xD800 + (c.toNat - 0x10000) / 0x400, 0xDC00 + (c.toNat - 0x10000) % 0x400]
  | utf32 => [c.toNat]

def code (e : Encoding) (cs : List Char) : List Nat := cs.flatMap e.codeUnits

theorem code_append (e : Encoding) (cs ds : List Char) : e.code (cs ++ ds) = e.code cs ++ e.code ds :=
  List.flatMap_append

theorem length_codeUnits (e : Encoding) (c : Char) : (e.codeUnits c).length = e.width c := by
  cases e with
  | utf8 => rw [codeUnits, List.length_map, String.length_utf8EncodeChar, width]
  | utf16 =>
    simp only [codeUnits, width]
    split <;> rfl
  | utf32 => rfl

/-- The units that are counted are the code units. -/
theorem units_eq (e : Encoding) (cs : List Char) : e.units cs = (e.code cs).length := by
  induction cs with
  | nil => rfl
  | cons c cs ih =>
    have hcode : e.code (c :: cs) = e.codeUnits c ++ e.code cs := List.flatMap_cons
    rw [hcode, List.length_append, length_codeUnits, ← ih]
    rfl

theorem units_append (e : Encoding) (cs ds : List Char) :
    e.units (cs ++ ds) = e.units cs + e.units ds := by
  rw [units_eq, units_eq, units_eq, code_append, List.length_append]

theorem units_take_mono (e : Encoding) (cs : List Char) {i j : Nat} (h : i ≤ j) :
    e.units (cs.take i) ≤ e.units (cs.take j) := by
  obtain ⟨k, rfl⟩ := Nat.exists_eq_add_of_le h
  rw [List.take_add, units_append]
  exact Nat.le_add_right _ _

/-- Behind a number of characters the code of a text is cut between characters. -/
theorem take_code (e : Encoding) (cs : List Char) (k : Nat) :
    (e.code cs).take (e.units (cs.take k)) = e.code (cs.take k) := by
  have hsplit : e.code cs = e.code (cs.take k) ++ e.code (cs.drop k) := by
    rw [← code_append, List.take_append_drop]
  rw [hsplit, units_eq, List.take_left]

end Encoding

/-! ## Ranges -/

/-- The range `r` is the exact conversion of `length` characters in the row `row` with the characters
`cs`, from behind `n` bytes, before which there are `k` whole characters. -/
structure Converts (cs : List Char) (row n length : Nat) (e : Encoding) (k : Nat) (r : Range) :
    Prop where
  rounds : RoundsTo n cs k
  read : decodeIgnoring ((encode cs).take n) = cs.take k
  start : r.start = ⟨row, e.units (cs.take k)⟩
  stop : r.stop = ⟨row, e.units (cs.take (min (k + length) cs.length))⟩

theorem toNat_max_zero (i : Int) : (max i 0).toNat = i.toNat := by
  omega

theorem converts_convert (lines : List (List Char)) (line column : Int) (length : Nat) (e : Encoding) :
    ∃ k, Converts (lines[(line - 1).toNat]?.getD []) (line - 1).toNat (column - 1).toNat length e k
      (Range.convert lines line column length e) := by
  generalize hcs : lines[(line - 1).toNat]?.getD [] = cs
  obtain ⟨k, hk, hrounds⟩ := fitting_roundsTo (column - 1).toNat cs
  have hlen : (cs.take k).length = k := List.length_take_of_le hrounds.le
  have hindex : indexOf cs.length ((k : Int) + length) = k + length := by
    unfold indexOf
    rw [if_neg (by omega)]
    omega
  have hcovered : (cs.take (k + length)).drop k = (cs.drop k).take length := by
    rw [List.drop_take, Nat.add_sub_cancel_left]
  have hclip : cs.take (min (k + length) cs.length) = cs.take k ++ (cs.drop k).take length := by
    rw [← List.take_add, List.take_eq_take_iff, Nat.min_assoc, Nat.min_self]
  refine ⟨k, hrounds, (decodeIgnoring_take _ _).trans hk, ?_, ?_⟩
  · simp only [Range.convert, hcs, hk]
  · simp only [Range.convert, hcs, hk, hlen, hindex, hcovered, hclip, Encoding.units_append]

variable {cs : List Char} {row n n' length length' k k' : Nat} {e : Encoding} {r r' : Range}

theorem Converts.start_le_stop (h : Converts cs row n length e k r) :
    r.start.character ≤ r.stop.character := by
  rw [h.start, h.stop]
  exact e.units_take_mono cs (Nat.le_min.2 ⟨Nat.le_add_right _ _, h.rounds.le⟩)

theorem Converts.stop_le (h : Converts cs row n length e k r) : r.stop.character ≤ e.units cs := by
  have hmono := e.units_take_mono cs (Nat.min_le_right (k + length) cs.length)
  rw [List.take_length] at hmono
  rw [h.stop]
  exact hmono

/-- The ends stand between whole characters. -/
theorem Converts.take_code (h : Converts cs row n length e k r) :
    (e.code cs).take r.start.character = e.code (cs.take k) ∧
      (e.code cs).take r.stop.character = e.code (cs.take (min (k + length) cs.length)) := by
  rw [h.start, h.stop]
  exact ⟨e.take_code cs k, e.take_code cs _⟩

theorem Converts.mono (h : Converts cs row n length e k r) (h' : Converts cs row n' length' e k' r')
    (hn : n ≤ n') (hl : length ≤ length') :
    r.start.character ≤ r'.start.character ∧ r.stop.character ≤ r'.stop.character := by
  have hk := h.rounds.mono h'.rounds hn
  rw [h.start, h'.start, h.stop, h'.stop]
  exact ⟨e.units_take_mono cs hk, e.units_take_mono cs (by omega)⟩

/-- A range in one row fits if its row and its last character do. -/
theorem Converts.fits_iff {limit : Nat} (h : Converts cs row n length e k r) :
    r.Fits limit ↔ row ≤ limit ∧ r.stop.character ≤ limit := by
  have hle := h.start_le_stop
  have hline : r.start.line = row := congrArg Spot.line h.start
  have hline' : r.stop.line = row := congrArg Spot.line h.stop
  rw [Range.Fits, Spot.Fits, Spot.Fits, hline, hline']
  omega

/-- A place counted in bytes is converted exactly: the ends of the range stand in the row of the line, the
first behind the longest front of whole characters that fits into the bytes before the column, which is
what can be read of these bytes, the second `length` characters further or at the end of the line. Neither
end cuts a character, and they move on with the column and the length. In a protocol that counts to `limit`
the range is the answer if the row and the last character are not beyond the limit, and the answer is the
refusal of the protocol if they are. -/
theorem rangeAt_exact {protocol : Protocol} {limit : Nat} (hp : protocol.CountsTo limit)
    (lines : List (List Char)) (line column : Int) (length : Nat) (e : Encoding) :
    let row := (max (line - 1) 0).toNat
    let cs := lines[row]?.getD []
    let r := Range.convert lines line column length e
    (∃ k, Converts cs row (max (column - 1) 0).toNat length e k r ∧
        (e.code cs).take r.start.character = e.code (cs.take k) ∧
        (e.code cs).take r.stop.character = e.code (cs.take (min (k + length) cs.length))) ∧
      r.start.character ≤ r.stop.character ∧ r.stop.character ≤ e.units cs ∧
      (∀ (column' : Int) (length' : Nat), column ≤ column' → length ≤ length' →
        r.start.character ≤ (Range.convert lines line column' length' e).start.character ∧
          r.stop.character ≤ (Range.convert lines line column' length' e).stop.character) ∧
      (row ≤ limit ∧ r.stop.character ≤ limit → rangeAt protocol lines line column length e = .ok r) ∧
      (¬ (row ≤ limit ∧ r.stop.character ≤ limit) →
        ∃ refusal, rangeAt protocol lines line column length e = .error refusal ∧
          (protocol.take r.start = .error refusal ∨
            protocol.take r.start = .ok () ∧ protocol.take r.stop = .error refusal)) := by
  intro row cs r
  have hrow : row = (line - 1).toNat := toNat_max_zero _
  obtain ⟨k, hk⟩ := converts_convert lines line column length e
  rw [← hrow, ← toNat_max_zero (column - 1)] at hk
  refine ⟨⟨k, hk, hk.take_code⟩, hk.start_le_stop, hk.stop_le,
    fun column' length' hcolumn hl => ?_, fun hfits => ?_, fun hbeyond => ?_⟩
  · obtain ⟨k', hk'⟩ := converts_convert lines line column' length' e
    rw [← hrow] at hk'
    exact hk.mono hk' (by omega) hl
  · exact rangeAt_eq_ok hp rfl (hk.fits_iff.2 hfits)
  · exact rangeAt_eq_error hp rfl (mt hk.fits_iff.1 hbeyond)

/-- A column inside a character, and a row beyond the limit. -/
theorem rangeAt_exact_samples :
    let protocol := Protocol.upTo 2147483647
    protocol.CountsTo 2147483647 ∧
      rangeAt protocol ["aé😀".toList] 1 5 1 .utf16 = .ok ⟨⟨0, 2⟩, ⟨0, 4⟩⟩ ∧
      ∃ refusal, rangeAt protocol [] 2147483649 1 1 .utf16 = .error refusal := by
  intro protocol
  have hp : protocol.CountsTo 2147483647 := Protocol.countsTo_upTo _
  obtain ⟨_, _, _, _, hsent, _⟩ := rangeAt_exact hp ["aé😀".toList] 1 5 1 .utf16
  obtain ⟨_, _, _, _, _, hrefused⟩ := rangeAt_exact hp [] 2147483649 1 1 .utf16
  obtain ⟨refusal, hrefusal, _⟩ := hrefused (by decide)
  have hr : Range.convert ["aé😀".toList] 1 5 1 .utf16 = ⟨⟨0, 2⟩, ⟨0, 4⟩⟩ := by decide
  exact ⟨hp, by rw [← hr]; exact hsent (by decide), refusal, hrefusal⟩

/-- Not every line has a row that a protocol has a number for. -/
theorem rangeAt_row_too_large :
    ¬ ∀ (lines : List (List Char)) (line column : Int) (length : Nat) (e : Encoding),
      ∃ r, rangeAt (.upTo 2147483647) lines line column length e = .ok r ∧
        (r.start.line : Int) = max (line - 1) 0 ∧ (r.stop.line : Int) = max (line - 1) 0 := by
  intro h
  obtain ⟨r, hr, _⟩ := h [] 2147483649 1 1 .utf16
  have hbeyond : ¬ (Range.convert [] 2147483649 1 (1 : Nat) .utf16).Fits 2147483647 := by
    simp [Range.Fits, Spot.Fits, Range.convert]
  obtain ⟨refusal, hrefusal, _⟩ := rangeAt_eq_error (Protocol.countsTo_upTo _) rfl hbeyond
  cases hrefusal.symm.trans hr

end ProtoSchema
