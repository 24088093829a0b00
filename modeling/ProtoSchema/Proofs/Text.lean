import ProtoSchema.Byte
import ProtoSchema.Proofs.Utf8

/-!
# ProtoSchema.Proofs.Text

Texts as byte lists. `Text.bytes` is the encoding of a text; it is injective, and on bytes below
0x80 it undoes `Byte.text`. Decimal numerals are runs of digits without a zero in front
(`IsNumeral`); they and the natural numbers correspond one to one, by `Byte.number` in one direction
and by writing the number in the other.
-/

namespace ProtoSchema
namespace Text

/-- The bytes of a text. -/
def bytes (s : String) : List UInt8 := Utf8.encode s.toList

theorem bytes_injective {s t : String} (h : bytes s = bytes t) : s = t := by
  have h₁ : Utf8.decode (bytes t) = .ok s.toList := Utf8.decode_eq_ok_iff.2 h
  have h₂ : Utf8.decode (bytes t) = .ok t.toList := Utf8.decode_eq_ok_iff.2 rfl
  rw [h₁] at h₂
  exact String.toList_inj.1 (Except.ok.inj h₂)

@[simp] theorem bytes_append (s t : String) : bytes (s ++ t) = bytes s ++ bytes t := by
  simp [bytes, Utf8.encode_append]

@[simp] theorem bytes_ofList (cs : List Char) : bytes (String.ofList cs) = Utf8.encode cs := by
  simp [bytes]

theorem bytes_intercalate (t : String) (ss : List String) :
    bytes (t.intercalate ss) = (bytes t).intercalate (ss.map bytes) := by
  match ss with
  | [] => simp [bytes]
  | [s] => simp
  | s :: u :: ss =>
    rw [String.intercalate_cons_cons, bytes_append, bytes_append, bytes_intercalate t (u :: ss)]
    simp [List.intercalate_cons_cons]

/-! ## ASCII -/

theorem encodeChar_ascii {c : Char} (h : c.toNat < 0x80) :
    String.utf8EncodeChar c = [UInt8.ofNat c.toNat] := by
  have h' : c.val.toNat < 0x80 := h
  rw [String.utf8EncodeChar, if_pos (by omega)]
  rfl

theorem encodeChar_of_not_ascii {c : Char} (h : ¬ c.toNat < 0x80) :
    ∀ b ∈ String.utf8EncodeChar c, 0x80 ≤ b.toNat := by
  have inside {low high b : UInt8} (hl : 0x80 ≤ low.toNat) (hb : Utf8.within low high b = true) :
      0x80 ≤ b.toNat := Nat.le_trans hl (Utf8.within_iff.1 hb).1
  have hs := Utf8.sequence_encodeChar c
  generalize String.utf8EncodeChar c = x at hs
  cases hs with
  | @one a ha =>
    have : (Char.ofNat a.toNat).toNat = a.toNat := Utf8.toNat_char_ofNat (by omega)
    exact absurd (this.symm ▸ ha) h
  | two h₁ _ hb =>
    simp only [List.forall_mem_cons]
    exact ⟨by omega, inside (by decide) hb, by simp⟩
  | three h₁ _ hb hc =>
    simp only [List.forall_mem_cons]
    exact ⟨by omega, inside (by split <;> decide) hb, inside (by decide) hc, by simp⟩
  | four h₁ _ hb hc hd =>
    simp only [List.forall_mem_cons]
    exact ⟨by omega, inside (by split <;> decide) hb, inside (by decide) hc, inside (by decide) hd,
      by simp⟩

theorem encodeChar_toChar {b : UInt8} (h : b.toNat < 0x80) :
    String.utf8EncodeChar (Byte.toChar b) = [b] :=
  (Utf8.Sequence.one h).encodeChar

theorem bytes_text {x : List UInt8} (h : ∀ b ∈ x, b.toNat < 0x80) : bytes (Byte.text x) = x := by
  rw [Byte.text, bytes_ofList]
  induction x with
  | nil => rfl
  | cons b x ih =>
    rw [List.map_cons, Utf8.encode_cons, encodeChar_toChar (h b (by simp)),
      ih (fun c hc => h c (by simp [hc]))]
    rfl

theorem text_bytes {s : String} (h : ∀ b ∈ bytes s, b.toNat < 0x80) : Byte.text (bytes s) = s :=
  bytes_injective (bytes_text h)

theorem ascii_of_digit {b : UInt8} (h : Byte.isDigit b = true) : b.toNat < 0x80 := by
  simp only [Byte.isDigit, Bool.and_eq_true, decide_eq_true_eq, UInt8.le_iff_toNat_le,
    UInt8.reduceToNat] at h
  omega

theorem ascii_of_wordPart {b : UInt8} (h : Byte.isWordPart b = true) : b.toNat < 0x80 := by
  simp only [Byte.isWordPart, Byte.isLetter, Byte.isDigit, Byte.underscore, Bool.or_eq_true,
    Bool.and_eq_true, decide_eq_true_eq, beq_iff_eq, UInt8.le_iff_toNat_le, UInt8.reduceToNat,
    Utf8.eq_iff_toNat_eq] at h
  omega

/-! ## Numerals -/

/-- A run of digits. -/
def IsDigits (x : List UInt8) : Prop := x ≠ [] ∧ ∀ b ∈ x, Byte.isDigit b = true

/-- The digit zero, or a run of digits that does not begin with it. -/
def IsNumeral (x : List UInt8) : Prop :=
  IsDigits x ∧ (x = [Byte.zero] ∨ x.head? ≠ some Byte.zero)

/-- The number that goes on with further digits. -/
def numberFrom (n : Nat) (x : List UInt8) : Nat :=
  x.foldl (fun n b => 10 * n + (b.toNat - Byte.zero.toNat)) n

theorem number_cons (b : UInt8) (x : List UInt8) :
    Byte.number (b :: x) = numberFrom (b.toNat - 48) x := by
  simp [Byte.number, numberFrom, Byte.zero]

theorem number_append (x : List UInt8) (b : UInt8) :
    Byte.number (x ++ [b]) = 10 * Byte.number x + (b.toNat - 48) := by
  simp [Byte.number, Byte.zero]

theorem digit_bounds {b : UInt8} (h : Byte.isDigit b = true) : 48 ≤ b.toNat ∧ b.toNat ≤ 57 := by
  simp only [Byte.isDigit, Bool.and_eq_true, decide_eq_true_eq, UInt8.le_iff_toNat_le,
    UInt8.reduceToNat] at h
  exact h

theorem digitChar_of_digit {b : UInt8} (h : Byte.isDigit b = true) :
    Nat.digitChar (b.toNat - 48) = Byte.toChar b := by
  obtain ⟨h₁, h₂⟩ := digit_bounds h
  have hd := Nat.toNat_digitChar_of_lt_ten (n := b.toNat - 48) (by omega)
  rw [Byte.toChar, ← Char.ofNat_toNat (Nat.digitChar _), hd]
  congr 1
  omega

theorem toDigits_numberFrom {n : Nat} {x : List UInt8} (hn : 0 < n)
    (hx : ∀ b ∈ x, Byte.isDigit b = true) :
    Nat.toDigits 10 (numberFrom n x) = Nat.toDigits 10 n ++ x.map Byte.toChar := by
  induction x generalizing n with
  | nil => simp [numberFrom]
  | cons b x ih =>
    have hb := hx b (by simp)
    obtain ⟨h₁, h₂⟩ := digit_bounds hb
    have hstep : Nat.toDigits 10 (10 * n + (b.toNat - 48)) =
        Nat.toDigits 10 n ++ [Byte.toChar b] := by
      rw [← Nat.toDigits_append_toDigits (by decide) hn (by omega),
        Nat.toDigits_of_lt_base (n := b.toNat - 48) (by omega), digitChar_of_digit hb]
    have := ih (n := 10 * n + (b.toNat - 48)) (by omega) (fun c hc => hx c (by simp [hc]))
    rw [show numberFrom n (b :: x) = numberFrom (10 * n + (b.toNat - 48)) x from rfl, this, hstep]
    simp

/-- Writing the number of a numeral gives the numeral back. -/
theorem bytes_toString_number {x : List UInt8} (h : IsNumeral x) :
    bytes (toString (Byte.number x)) = x := by
  obtain ⟨⟨hne, hx⟩, h₀⟩ := h
  have key : Nat.toDigits 10 (Byte.number x) = x.map Byte.toChar := by
    rcases h₀ with rfl | h₀
    · decide
    · cases x with
      | nil => exact absurd rfl hne
      | cons b x =>
        have hb := hx b (by simp)
        obtain ⟨h₁, h₂⟩ := digit_bounds hb
        have hz : b.toNat ≠ 48 := by
          intro e
          exact h₀ (by simp [Byte.zero, Utf8.eq_iff_toNat_eq, e])
        rw [number_cons, toDigits_numberFrom (by omega) (fun c hc => hx c (by simp [hc])),
          Nat.toDigits_of_lt_base (by omega), digitChar_of_digit hb]
        rfl
  rw [Nat.toString_eq_ofList_toDigits, key]
  exact bytes_text fun b hb => ascii_of_digit (hx b hb)

theorem bytes_digitChar {d : Nat} (h : d < 10) :
    Utf8.encode [Nat.digitChar d] = [UInt8.ofNat (48 + d)] := by
  have hd := Nat.toNat_digitChar_of_lt_ten h
  rw [Utf8.encode_cons, encodeChar_ascii (by omega), hd]
  rfl

theorem isDigit_ofNat {d : Nat} (h : d < 10) : Byte.isDigit (UInt8.ofNat (48 + d)) = true := by
  simp only [Byte.isDigit, Bool.and_eq_true, decide_eq_true_eq, UInt8.le_iff_toNat_le,
    UInt8.reduceToNat, Utf8.toNat_ofNat_of_lt (show 48 + d < 256 by omega)]
  omega

theorem bytes_toString_of_lt {n : Nat} (h : n < 10) : bytes (toString n) = [UInt8.ofNat (48 + n)] := by
  rw [Nat.toString_eq_ofList_toDigits, Nat.toDigits_of_lt_base h, bytes_ofList, bytes_digitChar h]

theorem bytes_toString_of_le {n : Nat} (h : 10 ≤ n) :
    bytes (toString n) = bytes (toString (n / 10)) ++ [UInt8.ofNat (48 + n % 10)] := by
  rw [Nat.toString_eq_ofList_toDigits, Nat.toString_eq_ofList_toDigits,
    Nat.toDigits_of_base_le (by decide) h, bytes_ofList, Utf8.encode_append,
    bytes_digitChar (by omega), bytes_ofList]

/-- What is written for a number denotes it. -/
theorem number_bytes_toString (n : Nat) : Byte.number (bytes (toString n)) = n := by
  induction n using Nat.strongRecOn with
  | ind n ih =>
    by_cases h : n < 10
    · rw [bytes_toString_of_lt h, number_cons, Utf8.toNat_ofNat_of_lt (by omega)]
      simp [numberFrom]
    · rw [bytes_toString_of_le (by omega), number_append, ih (n / 10) (by omega),
        Utf8.toNat_ofNat_of_lt (by omega)]
      omega

/-- A positive number is written without a zero in front. -/
theorem isDigits_bytes_toString (n : Nat) :
    IsDigits (bytes (toString n)) ∧ (0 < n → (bytes (toString n)).head? ≠ some Byte.zero) := by
  induction n using Nat.strongRecOn with
  | ind n ih =>
    by_cases h : n < 10
    · rw [bytes_toString_of_lt h]
      refine ⟨⟨by simp, by simpa using isDigit_ofNat h⟩, ?_⟩
      intro hn
      simp only [List.head?_cons, ne_eq, Option.some.injEq, Byte.zero, Utf8.eq_iff_toNat_eq,
        Utf8.toNat_ofNat_of_lt (show 48 + n < 256 by omega), UInt8.reduceToNat]
      omega
    · obtain ⟨⟨hne, hd⟩, hz⟩ := ih (n / 10) (by omega)
      rw [bytes_toString_of_le (by omega)]
      refine ⟨⟨by simp, ?_⟩, ?_⟩
      · intro b hb
        rcases List.mem_append.1 hb with hb | hb
        · exact hd b hb
        · rw [List.mem_singleton.1 hb]
          exact isDigit_ofNat (by omega)
      · intro _
        rw [List.head?_append]
        cases hh : (bytes (toString (n / 10))).head? with
        | none => exact absurd (List.head?_eq_none_iff.1 hh) hne
        | some b =>
          have := hz (by omega)
          rw [hh] at this
          simpa using this

theorem isNumeral_bytes_toString (n : Nat) : IsNumeral (bytes (toString n)) := by
  obtain ⟨hd, hz⟩ := isDigits_bytes_toString n
  refine ⟨hd, ?_⟩
  by_cases h : n = 0
  · subst h
    exact .inl (by decide)
  · exact .inr (hz (by omega))

end Text
end ProtoSchema
