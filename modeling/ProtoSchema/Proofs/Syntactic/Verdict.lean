import ProtoSchema.Proofs.Editor.Diagnostic
import ProtoSchema.Proofs.Lexical.LongNumbers
import ProtoSchema.Proofs.Syntactic.FirstError

/-!
# ProtoSchema.Proofs.Syntactic.Verdict

Every source has a verdict: a document, or one error with its place. The one exception are numbers of
more digits than are converted; where such a number is met, reading stops without a verdict
(`verdict_or_longNumber`). An editor is also told nothing of an error that is farther from the start of the
text than its protocol counts (`check_cases_of_refused`).
-/

namespace ProtoSchema
namespace Syntactic

open Scan Lexical

variable {σ : Type} [ByteInput σ] [Faithful σ] {s : σ} {source : Option String} {e : Failure}

/-- What stops reading without a verdict is a failure of the lexer. -/
theorem failure_tokens_of_ofInput (h : Document.ofInput s source = .error e)
    (he : ¬ ∃ err, e = .refused err) : (Lexer.tokens s).failure = some e := by
  obtain ⟨s', hs⟩ := ofInput_eq_error.1 h
  have ho := (locates_document source).outcome s (Nat.lt_succ_self _)
  rw [hs] at ho
  cases ho with
  | rule _ => exact absurd ⟨_, rfl⟩ he
  | token _ _ _ _ _ => exact absurd ⟨_, rfl⟩ he
  | ending _ _ _ _ => exact absurd ⟨_, rfl⟩ he
  | source hr ht _ => exact (tokens_of_error hr ht).2

theorem failure_tokens_view (h : (Lexer.tokens s).failure = some e)
    (he : ¬ ∃ err, e = .refused err) : (Lexer.tokens (Faithful.view s)).failure = some e := by
  have hends := Faithful.tokens_view s
  generalize Lexer.tokens s = r at hends h
  generalize Lexer.tokens (Faithful.view s) = r' at hends
  cases hends with
  | done => cases h
  | failed => exact h
  | lost hl =>
    cases h
    obtain ⟨reason, p, rfl⟩ := hl
    exact absurd ⟨_, rfl⟩ he

/-- Reading ends with a document, with an error, or at a long number. -/
theorem ofInput_cases (s : σ) (source : Option String) :
    (∃ d, Document.ofInput s source = .ok d) ∨
      (∃ err, Document.ofInput s source = .error (.refused err)) ∨
      Document.ofInput s source = .error (.numberTooLong Lexer.maxDigits) ∧
        MeetsLongNumber (Faithful.bytes s) := by
  cases h : Document.ofInput s source with
  | ok d => exact .inl ⟨d, rfl⟩
  | error e =>
    by_cases he : ∃ err, e = .refused err
    · obtain ⟨err, rfl⟩ := he
      exact .inr (.inl ⟨err, rfl⟩)
    · have hfail := failure_tokens_view (failure_tokens_of_ofInput h he) he
      obtain ⟨rfl, hmeets⟩ := meetsLongNumber_of_failure hfail he
      exact .inr (.inr ⟨rfl, hmeets⟩)

/-- A text that is refused has one diagnostic, unless it is longer than the protocol counts. -/
theorem check_cases_of_refused {protocol : Protocol} {limit : Nat} (hp : protocol.CountsTo limit)
    {text uri : String} {err : SourceError}
    (h : Document.ofText text (some uri) = .error (.refused err)) (name : String) (enc : Encoding) :
    (∃ d, check protocol text uri name enc = .ok (.refused d)) ∨
      limit < enc.units text.toList ∧
        ∃ refusal, check protocol text uri name enc = .error (.spot refusal) := by
  obtain ⟨k, _, hplace⟩ := between_of_refused h
  obtain ⟨hsent, hrefused⟩ := check_of_refused hp h hplace name enc
  by_cases hfits : (diagnosticAt err text.toList k name enc).range.Fits limit
  · exact .inl ⟨_, hsent hfits⟩
  · exact .inr ⟨Nat.lt_of_not_le fun hlength => hfits (fits_rangeFrom hlength k 1), hrefused hfits⟩

/-- A source holds a document or is refused with one error, unless a long number is met. Checking a text
finds a document without a diagnostic or one diagnostic without a document, unless a long number is met or
the text is refused and longer than the protocol counts. -/
theorem verdict_or_longNumber {protocol : Protocol} {limit : Nat} (hp : protocol.CountsTo limit)
    (s : σ) (source : Option String) (text uri name : String) (enc : Encoding) :
    ((∃ d, Document.ofInput s source = .ok d) ∨
      (∃ err, Document.ofInput s source = .error (.refused err)) ∨
      Document.ofInput s source = .error (.numberTooLong Lexer.maxDigits) ∧
        MeetsLongNumber (Faithful.bytes s)) ∧
    ((∃ v, check protocol text uri name enc = .ok v ∧
        ((∃ d, v.document? = some d ∧ v.diagnostics = []) ∨
          v.document? = none ∧ ∃ d, v.diagnostics = [d])) ∨
      check protocol text uri name enc = .error (.reading (.numberTooLong Lexer.maxDigits)) ∧
        MeetsLongNumber (Utf8.encode text.toList) ∨
      (∃ err, Document.ofText text (some uri) = .error (.refused err)) ∧
        limit < enc.units text.toList ∧
        ∃ refusal, check protocol text uri name enc = .error (.spot refusal)) := by
  refine ⟨ofInput_cases s source, ?_⟩
  rcases ofInput_cases (Bytes.ofList (Utf8.encode text.toList)) (some uri) with
    ⟨d, h⟩ | ⟨err, h⟩ | ⟨h, hmeets⟩ <;> rw [← Document.ofBytes, ← Document.ofText] at h
  · exact .inl ⟨.accepted d, by simp only [check, h], .inl ⟨d, rfl, rfl⟩⟩
  · rcases check_cases_of_refused hp h name enc with ⟨d, hd⟩ | hbeyond
    · exact .inl ⟨.refused d, hd, .inr ⟨rfl, d, rfl⟩⟩
    · exact .inr (.inr ⟨⟨err, h⟩, hbeyond⟩)
  · exact .inr (.inl ⟨by simp only [check, h], hmeets⟩)

theorem ofBytes_longNumber {x rest : List UInt8} (h : IsLongNumber x rest) :
    Document.ofBytes (x ++ rest) source = .error (.numberTooLong Lexer.maxDigits) :=
  ofInput_eq_error.2 ⟨_, document_of_next_error (next_longNumber (w := []) nofun h .first)⟩

/-- One digit more than are converted. -/
theorem isLongNumber_ones :
    IsLongNumber (List.replicate (Lexer.maxDigits + 1) (0x31 : UInt8)) [] := by
  have hdigits (n : Nat) : Text.IsDigits (List.replicate (n + 1) (0x31 : UInt8)) := by
    refine ⟨by simp, fun b hb => ?_⟩
    rw [List.eq_of_mem_replicate hb]
    rfl
  exact ⟨isLongest_digits (hdigits _) nofun, ⟨hdigits _, .inr (by simp; decide)⟩, by simp⟩

theorem encode_ones (n : Nat) : Utf8.encode (List.replicate n '1') = List.replicate n 0x31 := by
  rw [encode_ascii, List.map_replicate]
  · rfl
  · intro c hc
    rw [List.eq_of_mem_replicate hc]
    decide

/-- A text of one digit more than are converted. -/
def ones : String := String.ofList (List.replicate (Lexer.maxDigits + 1) '1')

theorem ofText_ones : Document.ofText ones source = .error (.numberTooLong Lexer.maxDigits) := by
  rw [Document.ofText, ones, String.toList_ofList, encode_ones,
    ← List.append_nil (List.replicate (Lexer.maxDigits + 1) _)]
  exact ofBytes_longNumber isLongNumber_ones

/-- Two texts, one that is refused with one diagnostic and one that begins with a long number. -/
theorem verdict_or_longNumber_sample :
    let protocol := Protocol.upTo 2147483647
    protocol.CountsTo 2147483647 ∧
      (∃ v, check protocol "\n é" "a.proto" "proto" .utf16 = .ok v ∧ v.document? = none ∧
        ∃ d, v.diagnostics = [d]) ∧
      check protocol ones "ones.proto" "proto" .utf16 =
        .error (.reading (.numberTooLong Lexer.maxDigits)) ∧
      MeetsLongNumber (Utf8.encode ones.toList) := by
  intro protocol
  have hp : protocol.CountsTo 2147483647 := Protocol.countsTo_upTo _
  have hstray : Document.ofText "\n é" (some "a.proto") =
      .error (.refused ⟨.unexpectedByte 0xC3, ⟨2, 2⟩⟩) := ofText_strayByte
  obtain ⟨_, hrefused⟩ :=
    verdict_or_longNumber hp (Bytes.ofList []) none "\n é" "a.proto" "proto" .utf16
  obtain ⟨_, hlong⟩ :=
    verdict_or_longNumber hp (Bytes.ofList []) none ones "ones.proto" "proto" .utf16
  refine ⟨hp, ?_, ?_⟩
  · rcases hrefused with ⟨v, hv, ⟨d, hd, _⟩ | hnone⟩ | ⟨hlost, _⟩ | ⟨_, hlength, _⟩
    · simp only [check, hstray] at hv
      split at hv <;> cases hv
      cases hd
    · exact ⟨v, hv, hnone⟩
    · simp only [check, hstray] at hlost
      split at hlost <;> cases hlost
    · exact absurd hlength (by decide)
  · rcases hlong with ⟨v, hv, _⟩ | hlong | ⟨⟨err, herr⟩, _⟩
    · rw [check, ofText_ones] at hv
      cases hv
    · exact hlong
    · rw [ofText_ones] at herr
      cases herr

/-- Such a text has no verdict, whatever the protocol. -/
theorem no_verdict_ones :
    (¬ ((∃ d, Document.ofText ones none = .ok d) ∨
        ∃ err, Document.ofText ones none = .error (.refused err))) ∧
      ∀ protocol : Protocol, ¬ ∃ v, check protocol ones "ones.proto" "proto" .utf16 = .ok v := by
  constructor
  · rw [ofText_ones]
    rintro (⟨_, h⟩ | ⟨_, h⟩) <;> cases h
  · rintro protocol ⟨v, h⟩
    rw [check, ofText_ones] at h
    cases h

end Syntactic
end ProtoSchema
