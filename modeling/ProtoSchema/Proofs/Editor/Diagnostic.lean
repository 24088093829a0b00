import ProtoSchema.Editor.Diagnostic
import ProtoSchema.Proofs.Editor.Spot
import ProtoSchema.Proofs.Lexical.Offsets
import ProtoSchema.Proofs.Syntactic.Alike

/-!
# ProtoSchema.Proofs.Editor.Diagnostic

Where diagnostics point. Every place that reading a text hands on is the place behind some of its
characters (`Between`): tokens begin there, and so do the errors of the lexer and of the parser. The
diagnostic of a text that is refused covers the character at the place of the error, in the units of any
encoding (`diagnostic_at_error`). Checking answers with it if the protocol counts that far, which it does
in every text that is not longer than its limit (`check_of_refused`).
-/

namespace ProtoSchema

open Scan Lexical Text Syntactic

/-- The place `p` is behind the first `k` characters of a text, for some `k`. -/
def Between (cs : List Char) (p : Position) : Prop :=
  ∃ k ≤ cs.length, p = placeBehind (Utf8.encode (cs.take k))

theorem Lexical.Cut.between {cs : List Char} {y : List UInt8} (h : Cut (Utf8.encode cs) y) :
    Between cs (Position.first.after y) := by
  obtain ⟨k, hk, rfl⟩ := h.chars
  exact ⟨k, hk, after_placeBehind [] _⟩

/-- A text beside itself: what is read of it stands between its characters. -/
theorem abreast_self (cs : List Char) :
    Abreast (fun p q => p = q ∧ Between cs p) (Bytes.ofList (Utf8.encode cs))
      (Bytes.ofList (Utf8.encode cs)) := by
  obtain ⟨ls, f, hls, hf, htokens⟩ := tokens_offsets (Utf8.encode cs)
  obtain ⟨hitems, hfailure⟩ := htokens .first
  refine ⟨List.forall₂_same.2 fun t ht => ⟨rfl, rfl, ?_⟩, ?_, fun hnone => ⟨rfl, ?_⟩⟩
  · have hmem : t ∈ (Lexer.tokens (Bytes.ofList (Utf8.encode cs))).items := (List.mem_filter.1 ht).1
    rw [Bytes.ofList, hitems] at hmem
    obtain ⟨a, ha, rfl⟩ := List.mem_map.1 hmem
    exact (hls a ha).between
  · rw [Bytes.ofList, hfailure]
    cases f with
    | none => exact .none
    | some a =>
      have hplace := (hf a rfl).between
      obtain ⟨e, y⟩ := a
      cases e with
      | refused e => exact .some (.same ⟨rfl, hplace⟩)
      | numberTooLong n => exact .some (.numberTooLong n)
      | windowTooSmall n => exact .some (.windowTooSmall n)
  · rw [position_final hnone]
    exact Lexical.Cut.between ⟨List.prefix_refl _, .inl rfl⟩

/-- Where a text is refused, some of its characters end. -/
theorem between_of_refused {text : String} {source : Option String} {e : SourceError}
    (h : Document.ofText text source = .error (.refused e)) : Between text.toList e.position := by
  obtain ⟨s, hs⟩ := ofInput_eq_error.1 h
  have hends := agrees_document source source _ _ (abreast_self text.toList)
  rw [hs] at hends
  cases hends with
  | error he =>
    cases he with
    | refused _ _ hp => exact hp.2

/-- The diagnostic of an error behind the first `k` characters of a text. -/
def diagnosticAt (e : SourceError) (cs : List Char) (k : Nat) (name : String) (enc : Encoding) :
    Diagnostic :=
  ⟨rangeFrom cs enc k 1, name, e.cause.message⟩

section Check

variable {protocol : Protocol} {limit : Nat} {text uri : String} {e : SourceError} {k : Nat}

theorem diagnostic_eq (lines : List (List Char)) (name : String) (enc : Encoding) :
    e.diagnostic protocol lines name enc =
      (rangeAt protocol lines e.position.line e.position.column (1 : Nat) enc).map
        fun r => ⟨r, name, e.cause.message⟩ := by
  rw [SourceError.diagnostic]
  cases rangeAt protocol lines e.position.line e.position.column (1 : Nat) enc <;> rfl

/-- An error behind some of the characters of a text has its diagnostic, unless its range is beyond the
limit of the protocol. -/
theorem diagnostic_of_place (hp : protocol.CountsTo limit) {cs : List Char}
    (hplace : e.position = placeBehind (Utf8.encode (cs.take k))) (name : String) (enc : Encoding) :
    let d := diagnosticAt e cs k name enc
    (d.range.Fits limit → e.diagnostic protocol (lines cs) name enc = .ok d) ∧
      (¬ d.range.Fits limit →
        ∃ refusal, e.diagnostic protocol (lines cs) name enc = .error refusal) := by
  intro d
  have hconvert := range_of_place hplace 1 enc
  rw [diagnostic_eq]
  refine ⟨fun hfits => ?_, fun hbeyond => ?_⟩
  · rw [rangeAt_eq_ok hp hconvert hfits]
    rfl
  · obtain ⟨refusal, hrefused, _⟩ := rangeAt_eq_error hp hconvert hbeyond
    exact ⟨refusal, by rw [hrefused]; rfl⟩

/-- Checking a text that is refused answers with the diagnostic of the error if its range is not beyond the
limit of the protocol, and with a refusal of the protocol if it is. -/
theorem check_of_refused (hp : protocol.CountsTo limit)
    (h : Document.ofText text (some uri) = .error (.refused e))
    (hplace : e.position = placeBehind (Utf8.encode (text.toList.take k))) (name : String)
    (enc : Encoding) :
    let d := diagnosticAt e text.toList k name enc
    (d.range.Fits limit → check protocol text uri name enc = .ok (.refused d)) ∧
      (¬ d.range.Fits limit → ∃ refusal, check protocol text uri name enc = .error (.spot refusal)) := by
  intro d
  obtain ⟨hsent, hrefused⟩ := diagnostic_of_place hp hplace name enc
  refine ⟨fun hfits => ?_, fun hbeyond => ?_⟩
  · simp only [check, h, hsent hfits]
    rfl
  · obtain ⟨refusal, hrefusal⟩ := hrefused hbeyond
    exact ⟨refusal, by simp only [check, h, hrefusal]⟩

end Check

/-- The diagnostic of a text that is refused points at the error. There is one offset `k` into the
characters of the text such that the error has the place of the bytes of the first `k` characters, and
for every encoding the diagnostic stands in the row that as many line feeds come before, which is a row
of the text, begins behind the characters since the last line feed, and covers the character at `k`
unless the line or the text ends there. Checking the text answers with this diagnostic in a protocol whose
numbers go that far, as they do if the text is not longer than the limit; in another the protocol refuses
it. -/
theorem diagnostic_at_error {protocol : Protocol} {limit : Nat} (hp : protocol.CountsTo limit)
    {text uri : String} {e : SourceError}
    (h : Document.ofText text (some uri) = .error (.refused e)) :
    ∃ k ≤ text.toList.length,
      e.position = placeBehind (Utf8.encode (text.toList.take k)) ∧
      ∀ (name : String) (enc : Encoding), ∃ d : Diagnostic,
        (d.range.start.line = (text.toList.take k).count '\n' ∧
          d.range.stop.line = d.range.start.line ∧
          d.range.start.line < (lines text.toList).length ∧
          d.range.start.character = enc.units (sinceBreak (text.toList.take k)) ∧
          (∀ c, text.toList[k]? = some c → c ≠ '\n' →
            d.range.stop.character = d.range.start.character + enc.units [c]) ∧
          (text.toList[k]? = some '\n' ∨ k = text.toList.length →
            d.range.stop.character = d.range.start.character) ∧
          d.source = name ∧ d.message = e.cause.message) ∧
        (d.range.Fits limit → check protocol text uri name enc = .ok (.refused d)) ∧
        (¬ d.range.Fits limit →
          ∃ refusal, check protocol text uri name enc = .error (.spot refusal)) ∧
        (enc.units text.toList ≤ limit → d.range.Fits limit) := by
  obtain ⟨k, hk, hplace⟩ := between_of_refused h
  refine ⟨k, hk, hplace, fun name enc => ?_⟩
  generalize hd : diagnosticAt e text.toList k name enc = d
  refine ⟨d, ?_, ?_⟩
  · have hstop : d.range.stop.character =
        d.range.start.character + enc.units (text.toList[k]?.filter (· != '\n')).toList := by
      rw [← hd, diagnosticAt, rangeFrom, take_one_untilBreak, List.head?_drop]
    -- the row of the place is a row of the text
    have hrow := (List.getElem?_eq_some_iff.1 (row_spotAt text.toList enc k)).1
    subst hd
    refine ⟨rfl, rfl, hrow, rfl, fun c hc hne => ?_, fun hend => ?_, rfl, rfl⟩
    · simpa [hc, hne, Option.filter] using hstop
    · rcases hend with hc | rfl
      · simpa [hc, Option.filter, Encoding.units] using hstop
      · simpa [Option.filter, Encoding.units] using hstop
  · obtain ⟨hsent, hrefused⟩ := check_of_refused hp h hplace name enc
    rw [hd] at hsent hrefused
    exact ⟨hsent, hrefused, fun hlength => hd ▸ fits_rangeFrom hlength k 1⟩

/-- A character that begins no lexeme, in the second row behind a blank. -/
theorem ofText_strayByte {source : Option String} :
    Document.ofText "\n é" source = .error (.refused ⟨.unexpectedByte 0xC3, ⟨2, 2⟩⟩) := by
  have hstop : ∀ c ∈ ([0xC3, 0xA9] : List UInt8).head?, Byte.isBlank c = false := by
    intro c hc
    obtain rfl : 0xC3 = c := by simpa using hc
    decide
  have hblanks : takeWhile Byte.isBlank (Bytes.ofList ([0x0A, 0x20] ++ [0xC3, 0xA9])) =
      .ok [0x0A, 0x20] ⟨[0xC3, 0xA9], ⟨2, 2⟩⟩ :=
    Bytes.takeWhile_append (List.all_eq_true.1 (by decide)) hstop .first
  have hnext : Lexer.next (Bytes.ofList ([0x0A, 0x20] ++ [0xC3, 0xA9])) =
      .error (.refused ⟨.unexpectedByte 0xC3, ⟨2, 2⟩⟩) ⟨[0xC3, 0xA9], ⟨2, 2⟩⟩ := by
    unfold Lexer.next
    rw [bind_ok hblanks]
    rfl
  have hbytes : Utf8.encode "\n é".toList = [0x0A, 0x20] ++ [0xC3, 0xA9] := by decide
  rw [Document.ofText, hbytes]
  exact ofInput_eq_error.2 ⟨_, document_of_next_error hnext⟩

/-- In the protocol with numbers up to 2147483647 the text is answered with its diagnostic. -/
theorem diagnostic_at_error_sample :
    let text := "\n é"
    let protocol := Protocol.upTo 2147483647
    protocol.CountsTo 2147483647 ∧
      Document.ofText text (some "a.proto") = .error (.refused ⟨.unexpectedByte 0xC3, ⟨2, 2⟩⟩) ∧
      ∃ k ≤ text.toList.length,
        (⟨2, 2⟩ : Position) = placeBehind (Utf8.encode (text.toList.take k)) ∧
        ∀ name : String, ∃ d : Diagnostic,
          check protocol text "a.proto" name .utf16 = .ok (.refused d) ∧
            d.range.start.line = (text.toList.take k).count '\n' ∧
            d.range.start.character = Encoding.utf16.units (sinceBreak (text.toList.take k)) := by
  intro text protocol
  have hp : protocol.CountsTo 2147483647 := Protocol.countsTo_upTo _
  have hread : Document.ofText text (some "a.proto") =
      .error (.refused ⟨.unexpectedByte 0xC3, ⟨2, 2⟩⟩) := ofText_strayByte
  obtain ⟨k, hk, hplace, hd⟩ := diagnostic_at_error hp hread
  refine ⟨hp, hread, k, hk, hplace, fun name => ?_⟩
  obtain ⟨d, ⟨hline, _, _, hcharacter, _⟩, hsent, _, hfits⟩ := hd name .utf16
  exact ⟨d, hsent (hfits (by decide)), hline, hcharacter⟩

end ProtoSchema
