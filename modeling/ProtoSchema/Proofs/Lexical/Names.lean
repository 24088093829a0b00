import ProtoSchema.Proofs.Document.WellFormed
import ProtoSchema.Proofs.Faithful
import ProtoSchema.Proofs.Lexical.Splitting
import ProtoSchema.Token.Source

/-!
# ProtoSchema.Proofs.Lexical.Names

What lexemes carry. The words of the lexical grammar are the bytes of identifiers; a lexeme that can
be read carries a plain name, the segments of a dotted name, or a number that is not too long
(`Readable`), and all tokens that a faithful input hands out can be read.
-/

namespace ProtoSchema
namespace Lexical

open Scan Text

/-! ## Classes of bytes and of characters -/

theorem isAlpha_iff (c : Char) : c.isAlpha = true ↔
    (65 ≤ c.toNat ∧ c.toNat ≤ 90) ∨ (97 ≤ c.toNat ∧ c.toNat ≤ 122) := by
  unfold Char.isAlpha Char.isUpper Char.isLower
  simp only [Bool.or_eq_true, Bool.and_eq_true, decide_eq_true_eq, ge_iff_le,
    UInt32.le_iff_toNat_le]
  rfl

theorem isLetter_iff (b : UInt8) : Byte.isLetter b = true ↔
    (65 ≤ b.toNat ∧ b.toNat ≤ 90) ∨ (97 ≤ b.toNat ∧ b.toNat ≤ 122) := by
  simp only [Byte.isLetter, Bool.or_eq_true, Bool.and_eq_true, decide_eq_true_eq,
    UInt8.le_iff_toNat_le]
  rfl

theorem isAlphanum_iff (c : Char) : c.isAlphanum = true ∨ c = '_' ↔
    ((65 ≤ c.toNat ∧ c.toNat ≤ 90) ∨ (97 ≤ c.toNat ∧ c.toNat ≤ 122)) ∨
      (48 ≤ c.toNat ∧ c.toNat ≤ 57) ∨ c.toNat = 95 := by
  have h : c = '_' ↔ c.toNat = 95 := by
    constructor
    · rintro rfl
      rfl
    · intro h
      exact Char.ext (UInt32.toNat_inj.1 h)
  rw [Char.isAlphanum, Bool.or_eq_true, isAlpha_iff, h, or_assoc]
  simp only [Char.isDigit, Bool.and_eq_true, decide_eq_true_eq, ge_iff_le, UInt32.le_iff_toNat_le]
  rfl

theorem isWordPart_iff (b : UInt8) : Byte.isWordPart b = true ↔
    ((65 ≤ b.toNat ∧ b.toNat ≤ 90) ∨ (97 ≤ b.toNat ∧ b.toNat ≤ 122)) ∨
      (48 ≤ b.toNat ∧ b.toNat ≤ 57) ∨ b.toNat = 95 := by
  have h : (b == Byte.underscore) = true ↔ b.toNat = 95 := by
    rw [beq_iff_eq, Utf8.eq_iff_toNat_eq]
    rfl
  rw [Byte.isWordPart, Bool.or_eq_true, Bool.or_eq_true, isLetter_iff, h, or_assoc]
  simp only [Byte.isDigit, Bool.and_eq_true, decide_eq_true_eq, UInt8.le_iff_toNat_le]
  rfl

theorem toNat_toChar (b : UInt8) : (Byte.toChar b).toNat = b.toNat := by
  have := UInt8.toNat_lt b
  exact Utf8.toNat_char_ofNat (by omega)

theorem encode_ascii {cs : List Char} (h : ∀ c ∈ cs, c.toNat < 0x80) :
    Utf8.encode cs = cs.map fun c => UInt8.ofNat c.toNat := by
  induction cs with
  | nil => rfl
  | cons c cs ih =>
    rw [Utf8.encode_cons, encodeChar_ascii (h c (by simp)), ih fun d hd => h d (by simp [hd])]
    rfl

theorem isWord_bytes_iff {s : String} : IsWord (bytes s) ↔ IsIdentifier s := by
  constructor
  · intro h
    have htext := text_bytes_of_word h
    obtain ⟨b, bs, hbytes, hb, hbs⟩ := h
    rw [hbytes] at htext
    refine ⟨Byte.toChar b, bs.map Byte.toChar, ?_, ?_, ?_⟩
    · rw [← htext, Byte.text, String.toList_ofList, List.map_cons]
    · rw [isAlpha_iff, toNat_toChar, ← isLetter_iff]
      exact hb
    · intro d hd
      obtain ⟨c, hc, rfl⟩ := List.mem_map.1 hd
      rw [isAlphanum_iff, toNat_toChar, ← isWordPart_iff]
      exact hbs c hc
  · rintro ⟨c, cs, hs, hc, hcs⟩
    have hc' := (isAlpha_iff c).1 hc
    have hcs' : ∀ d ∈ cs, d.toNat < 0x80 := by
      intro d hd
      have := (isAlphanum_iff d).1 (hcs d hd)
      omega
    have hbytes : bytes s = UInt8.ofNat c.toNat :: cs.map fun d => UInt8.ofNat d.toNat := by
      rw [bytes, hs, Utf8.encode_cons, encodeChar_ascii (by omega), encode_ascii hcs']
      rfl
    refine ⟨_, _, hbytes, ?_, ?_⟩
    · rw [isLetter_iff, Utf8.toNat_ofNat_of_lt (by omega)]
      exact hc'
    · intro b hb
      obtain ⟨d, hd, rfl⟩ := List.mem_map.1 hb
      have := hcs' d hd
      rw [isWordPart_iff, Utf8.toNat_ofNat_of_lt (by omega)]
      exact (isAlphanum_iff d).1 (hcs d hd)

theorem length_bytes_of_ascii {s : String} (h : ∀ b ∈ bytes s, b.toNat < 0x80) :
    (bytes s).length = s.length := by
  have := congrArg String.length (text_bytes h)
  rwa [Byte.text, String.length_ofList, List.length_map] at this

theorem length_bytes_numeral (n : Nat) : (bytes (toString n)).length = (toString n).length :=
  length_bytes_of_ascii fun b hb => ascii_of_digit ((isNumeral_bytes_toString n).1.2 b hb)

/-! ## Lexemes -/

/-- A lexeme that some bytes are read as. -/
def Readable (l : Lexeme) : Prop := ∃ x rest, Reading x rest l ∧ Fits x l

theorem readable_punct (p : Punct) : Readable (.punct p) := ⟨_, [], .punct p [], nofun⟩

theorem Readable.ident {n : String} (h : Readable (.ident n)) : IsPlainName n := by
  obtain ⟨x, rest, hr, _⟩ := h
  cases hr with
  | ident _ hw hx hk => exact ⟨isWord_bytes_iff.1 (hx ▸ hw), hk⟩

theorem Readable.dotted {ss : List String} (h : Readable (.dotted ss)) : IsDotted ss := by
  obtain ⟨x, rest, hr, _⟩ := h
  cases hr with
  | dotted _ hlen hw => exact ⟨hlen, fun s hs => isWord_bytes_iff.1 (hw s hs)⟩

theorem Readable.number {n : Nat} (h : Readable (.number n)) : IsNumberText (toString n) := by
  obtain ⟨x, rest, hr, hf⟩ := h
  generalize hl : Lexeme.number n = l at hr
  cases hr with
  | number _ hn =>
    cases hl
    have hlen := hf _ rfl
    rw [← bytes_toString_number hn, length_bytes_numeral] at hlen
    exact ⟨_, rfl, hlen⟩
  | _ => cases hl

section Tokens

variable {σ : Type} [ByteInput σ] [Faithful σ] {s s' : σ}

theorem readable_next {t : Token} (h : Lexer.next s = .ok (some t) s') : Readable t.lexeme := by
  rcases next_cases (Faithful.next_view h) with ⟨e, _⟩ | ⟨w, x, rest, l, _, _, hr, hf, e, _⟩
  · cases e
  · cases e
    exact ⟨x, rest, hr, hf⟩

/-- All tokens that are read from a faithful input can be read from some bytes. -/
theorem readable_of_yields {ts : List Token} (y : Yields (TokenSource.next : Scan σ _) s ts s') :
    ∀ t ∈ ts, Readable t.lexeme := by
  induction y with
  | stop _ => simp
  | more h _ ih =>
    intro t ht
    rcases List.mem_cons.1 ht with rfl | ht
    · obtain ⟨s₁, h₁⟩ := step_of_first Lexer.progresses_next h
      exact readable_next h₁
    · exact ih t ht

end Tokens

theorem isIdentifier_of_all {s : String} (h : s.toList ≠ [] ∧ s.toList.all Char.isAlpha = true) :
    IsIdentifier s := by
  obtain ⟨hne, h⟩ := h
  cases hs : s.toList with
  | nil => exact absurd hs hne
  | cons c cs =>
    rw [hs, List.all_cons, Bool.and_eq_true] at h
    refine ⟨c, cs, hs, h.1, ?_⟩
    intro d hd
    have := List.all_eq_true.1 h.2 d hd
    exact .inl (by simp [Char.isAlphanum, this])

theorem isIdentifier_word (k : Keyword) : IsIdentifier k.word := by
  cases k with
  | scalar s => cases s <;> exact isIdentifier_of_all (by decide)
  | _ => exact isIdentifier_of_all (by decide)

theorem isPlainName_rpc : IsPlainName "rpc" :=
  ⟨isIdentifier_of_all (by decide), ofWord?_eq_none_iff.1 (by decide)⟩

theorem isPlainName_returns : IsPlainName "returns" :=
  ⟨isIdentifier_of_all (by decide), ofWord?_eq_none_iff.1 (by decide)⟩

end Lexical
end ProtoSchema
