import ProtoSchema.Proofs.Lexical.Encoding
import ProtoSchema.Proofs.Syntactic.FirstError
import ProtoSchema.Proofs.Syntactic.Nodes

/-!
# ProtoSchema.Proofs.Syntactic.Encoding

Sources and UTF-8. A well-formed source is never refused for its encoding
(`wellFormed_never_invalidUtf8`). An accepted source is well-formed unless a backslash in one of its
strings escapes a byte from the inside of a character (`accepted_wellFormed_iff`): the contents of a
string are checked behind its escapes, so that such a backslash goes unnoticed
(`accepted_not_wellFormed`).
-/

namespace ProtoSchema
namespace Syntactic

open Scan Lexical Utf8

section Inputs

variable {σ : Type} [ByteInput σ] [Faithful σ] {s : σ} {source : Option String} {d : Document}
  {e : Failure}

theorem Failure.IsInvalidUtf8.fromBelow (h : e.IsInvalidUtf8) : e.FromBelow := by
  obtain ⟨inside, fault, p, rfl⟩ := h
  exact .inl (.invalidUtf8 inside fault p)

/-- A source of well-formed bytes is not refused for an ill-formed text, neither by the lexer, however
often it is asked for a token, nor by the parser; and no text is. -/
theorem wellFormed_never_invalidUtf8 (hs : IsEncoding (Faithful.bytes s)) (text : String) :
    (∀ e, (Lexer.tokens s).failure = some e → ¬ e.IsInvalidUtf8) ∧
    (∀ s₁ s₂ e, Asked s s₁ → Lexer.next s₁ = .error e s₂ → ¬ e.IsInvalidUtf8) ∧
    (∀ source e, Document.ofInput s source = .error e → ¬ e.IsInvalidUtf8) ∧
    (∀ source e, Document.ofText text source = .error e → ¬ e.IsInvalidUtf8) := by
  have parser {τ : Type} [ByteInput τ] [Faithful τ] {t : τ} (ht : IsEncoding (Faithful.bytes t))
      {source : Option String} {e : Failure} (h : Document.ofInput t source = .error e) :
      ¬ e.IsInvalidUtf8 := by
    intro he
    have hlexer := ((refused_at_first_error h).2 (Failure.IsInvalidUtf8.fromBelow he)).1
    exact not_isInvalidUtf8_of_tokens ht hlexer he
  refine ⟨?_, ?_, ?_, ?_⟩
  · intro e h
    exact not_isInvalidUtf8_of_tokens hs h
  · intro s₁ s₂ e hasked h
    exact (next_error_of_isEncoding (hasked.isEncoding hs) h).1
  · intro source e h
    exact parser hs h
  · intro source e h
    exact parser (t := Bytes.ofList (encode text.toList)) (isEncoding_bytes text) h

/-- An escaped character of two bytes in a string, and a comment that ends with a carriage return. -/
theorem wellFormed_never_invalidUtf8_sample :
    let s := Bytes.ofList (Text.bytes "'\\é' // ü\r\n")
    IsEncoding s.rest ∧
    (∀ e, (Lexer.tokens s).failure = some e → ¬ e.IsInvalidUtf8) ∧
    (∀ s₁ s₂ e, Asked s s₁ → Lexer.next s₁ = .error e s₂ → ¬ e.IsInvalidUtf8) ∧
    (∀ source e, Document.ofInput s source = .error e → ¬ e.IsInvalidUtf8) ∧
    (∀ source e, Document.ofText "é" source = .error e → ¬ e.IsInvalidUtf8) := by
  intro s
  have hs : IsEncoding (Faithful.bytes s) := isEncoding_bytes _
  exact ⟨hs, wellFormed_never_invalidUtf8 hs "é"⟩

/-- In an accepted source, bytes from 0x80 on stand in strings and comments only, and the whole is
well-formed unless a backslash in a string escapes a byte from the inside of a character. Strings and
comments with ill-formed contents are refused where they begin. -/
theorem accepted_wellFormed_iff (h : Document.ofInput s source = .ok d)
    (hs : ByteInput.position s = .first) :
    (∃ ps tail, Splits (Faithful.bytes s) ps tail ∧ (∀ b ∈ tail, b.toNat < 0x80) ∧
      (∀ q ∈ ps, (∀ b ∈ q.blanks, b.toNat < 0x80) ∧ ((∀ s, q.lexeme ≠ .text s) →
        (∀ s, q.lexeme ≠ .comment s) → ∀ b ∈ q.source, b.toNat < 0x80)) ∧
      (IsEncoding (Faithful.bytes s) ↔ ∀ q ∈ ps, ¬ q.EscapesInside)) ∧
    ∀ w x rest k p, (∀ b ∈ w, Byte.isBlank b = true) → IllFormed x rest k →
      RefusedAt k (p.after w) (Lexer.next (⟨w ++ (x ++ rest), p⟩ : Bytes)) := by
  obtain ⟨ps, tail, hsplits, _⟩ := splits_of_ofInput h hs
  refine ⟨⟨ps, tail, hsplits, hsplits.ascii.1, hsplits.ascii.2, hsplits.isEncoding_iff⟩, ?_⟩
  intro w x rest k p hw hx
  exact next_illFormed hw hx p

end Inputs

/-- An option whose value is a string of two bytes with a backslash between them: together the two
are a character, with the backslash they are not. -/
def splitCharacter : List UInt8 :=
  Text.bytes "syntax = 'proto3'; option a = '" ++ [0xC3, Byte.backslash, 0xA9] ++ Text.bytes "';"

theorem ofBytes_splitCharacter : Document.ofBytes splitCharacter none =
    .ok ⟨.proto3, [], [], [⟨"a", .quoted "é", ⟨1, 20⟩⟩], [], [], none⟩ :=
  eq_ok_of_toOption (by decide +kernel)

theorem accepted_wellFormed_iff_sample :
    (∃ ps tail, Splits splitCharacter ps tail ∧ (∀ b ∈ tail, b.toNat < 0x80) ∧
      (∀ q ∈ ps, (∀ b ∈ q.blanks, b.toNat < 0x80) ∧ ((∀ s, q.lexeme ≠ .text s) →
        (∀ s, q.lexeme ≠ .comment s) → ∀ b ∈ q.source, b.toNat < 0x80)) ∧
      (IsEncoding splitCharacter ↔ ∀ q ∈ ps, ¬ q.EscapesInside)) ∧
    ∀ w x rest k p, (∀ b ∈ w, Byte.isBlank b = true) → IllFormed x rest k →
      RefusedAt k (p.after w) (Lexer.next (⟨w ++ (x ++ rest), p⟩ : Bytes)) :=
  accepted_wellFormed_iff (s := Bytes.ofList splitCharacter) ofBytes_splitCharacter rfl

/-- A source can be accepted that is not well-formed. -/
theorem accepted_not_wellFormed :
    ¬ ∀ (bs : List UInt8) (d : Document), Document.ofBytes bs none = .ok d → IsEncoding bs := by
  intro h
  have hall := h _ _ ofBytes_splitCharacter
  rw [splitCharacter, List.append_assoc,
    (isEncoding_bytes _).append_iff] at hall
  -- the byte 0xC3 announces a continuation
  obtain ⟨cs, hcs⟩ := isEncoding_iff_decode.1 hall
  cases hcs

end Syntactic
end ProtoSchema
