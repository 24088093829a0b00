import ProtoSchema.Proofs.Printing.Spelling
import ProtoSchema.Proofs.Streams

/-!
# ProtoSchema.Proofs.Printing.Literal

Quoting is undone by the lexer, whatever stands behind the closing quote and however the bytes come in
(`next_literal`).

A string is read with a look at one byte at a time, and no byte behind its closing quote is looked
at. A cursor can always show a byte that it has been offered, so the chunks of its stream do not
matter, nor does what the stream does behind the literal: it may go on, end or fail.
-/

namespace ProtoSchema
namespace Cursor

open Scan Lexer Lexical

variable {c : Cursor} {b q : UInt8} {bs rest : List UInt8} {p start : Position}

/-- A cursor can fetch a byte that it has been offered. -/
theorem fill_one_of_offered (h : c.offered ≠ []) : ∃ c', fill 1 c = .ok () c' := by
  by_cases he : c.ended = true
  · exact ⟨c, fill_of_ended he⟩
  · have hfilled := filled 1 (Bool.not_eq_true _ ▸ he)
    have hpos := List.length_pos_iff.2 h
    generalize fill 1 c = r at hfilled ⊢
    cases hfilled with
    | enough => exact ⟨_, rfl⟩
    | ended => exact ⟨_, rfl⟩
    | starved hlt => omega

/-- What a cursor shows is at the front of its window afterwards, ready to be taken. -/
theorem peek_offered (h : Faithful.view c = ⟨b :: bs, p⟩) :
    ∃ c', peek c = .ok (some b) c' ∧ Faithful.view c' = ⟨b :: bs, p⟩ ∧
      Faithful.view (skip c') = ⟨bs, p.next b⟩ := by
  simp only [Faithful.view, Bytes.mk.injEq] at h
  obtain ⟨hbytes, rfl⟩ := h
  have ho : c.offered = b :: bs := hbytes
  obtain ⟨c', hfill⟩ := fill_one_of_offered (c := c) (by simp [ho])
  obtain ⟨ho', hp', hlen⟩ := fill_ok hfill
  rw [ho] at ho'
  have hwindow : ∃ w, c'.window = b :: w := by
    cases hw : c'.window with
    | nil =>
      -- an empty window offers nothing once the stream has ended
      rcases hlen with hlen | he
      · simp [hw] at hlen
      · simp [offered, hw, he] at ho'
    | cons d w =>
      simp only [offered, hw, List.cons_append, List.cons.injEq] at ho'
      exact ⟨w, by rw [ho'.1]⟩
  obtain ⟨w, hw⟩ := hwindow
  have hskip := offered_skip hw
  rw [ho'] at hskip
  refine ⟨c', ?_, ?_, ?_⟩
  · rw [peek_of_fill hfill, hw]
    rfl
  · show (⟨c'.offered, c'.position⟩ : Bytes) = _
    rw [ho', hp']
    rfl
  · show (⟨(skip c').offered, (skip c').position⟩ : Bytes) = _
    rw [← (List.cons.inj hskip).2, skip_eq hw, hp']
    rfl

theorem take_offered (h : Faithful.view c = ⟨b :: bs, p⟩) :
    ∃ c', take c = .ok (some b) c' ∧ Faithful.view c' = ⟨bs, p.next b⟩ := by
  obtain ⟨c', hpeek, _, hskip⟩ := peek_offered h
  refine ⟨skip c', ?_, hskip⟩
  unfold take takeIf
  rw [bind_ok hpeek]
  rfl

/-! ## One byte of a string -/

theorem stringByte_close (h : Faithful.view c = ⟨q :: rest, p⟩) :
    ∃ c', stringByte q start c = .ok none c' ∧ Faithful.view c' = ⟨rest, p.next q⟩ := by
  obtain ⟨c', htake, hview⟩ := take_offered h
  refine ⟨c', ?_, hview⟩
  unfold stringByte
  rw [bind_ok htake]
  simp

theorem stringByte_plain (hb : b ≠ q) (hs : b ≠ Byte.backslash)
    (h : Faithful.view c = ⟨b :: rest, p⟩) :
    ∃ c', stringByte q start c = .ok (some b) c' ∧ Faithful.view c' = ⟨rest, p.next b⟩ := by
  obtain ⟨c', htake, hview⟩ := take_offered h
  refine ⟨c', ?_, hview⟩
  unfold stringByte
  rw [bind_ok htake]
  simp [hb, hs]

theorem stringByte_escape (hq : q ≠ Byte.backslash)
    (h : Faithful.view c = ⟨Byte.backslash :: b :: rest, p⟩) :
    ∃ c', stringByte q start c = .ok (some b) c' ∧
      Faithful.view c' = ⟨rest, p.after [Byte.backslash, b]⟩ := by
  obtain ⟨c₁, htake₁, hview₁⟩ := take_offered h
  obtain ⟨c', htake, hview⟩ := take_offered hview₁
  refine ⟨c', ?_, hview⟩
  unfold stringByte
  rw [bind_ok htake₁]
  simp only [hq.symm, if_false, if_true]
  rw [bind_ok htake]
  rfl

/-- The loop over a string stops right behind its closing quote. -/
theorem yields_stringByte {body value : List UInt8} (hq : q ≠ Byte.backslash)
    (h : StringBody q body value) (hc : Faithful.view c = ⟨body ++ q :: rest, p⟩) :
    ∃ c', Yields (stringByte q start) c value c' ∧
      Faithful.view c' = ⟨rest, p.after (body ++ [q])⟩ := by
  induction h generalizing c p with
  | nil =>
    obtain ⟨c', hstep, hview⟩ := stringByte_close hc
    exact ⟨c', .stop hstep, hview⟩
  | plain hb hs _ ih =>
    obtain ⟨c₁, hstep, hview₁⟩ := stringByte_plain hb hs hc
    obtain ⟨c', hrest, hview⟩ := ih hview₁
    exact ⟨c', .more hstep hrest, hview⟩
  | escape _ ih =>
    obtain ⟨c₁, hstep, hview₁⟩ := stringByte_escape hq hc
    obtain ⟨c', hrest, hview⟩ := ih hview₁
    exact ⟨c', .more hstep hrest, hview⟩

/-! ## A string -/

/-- A text is decoded from its bytes, and no byte is read for that. -/
theorem decode_bytes {inside : Kind} (v : String) :
    decode inside start (Text.bytes v) c = .ok v c := by
  unfold decode
  rw [Utf8.decode_eq_ok_iff.2 (show Utf8.encode v.toList = Text.bytes v from rfl)]
  simp

/-- A string that begins at the next byte is read by the lexer, and nothing behind it is looked at. -/
theorem next_string {body : List UInt8} {v : String} (hq : Byte.isQuote q = true)
    (h : StringBody q body (Text.bytes v)) (hc : Faithful.view c = ⟨q :: (body ++ q :: rest), p⟩) :
    ∃ c', next c = .ok (some ⟨.text v, p⟩) c' ∧
      Faithful.view c' = ⟨rest, p.after (q :: (body ++ [q]))⟩ := by
  have hblank : Byte.isBlank q = false := by rcases quote_cases hq with rfl | rfl <;> rfl
  have hletter : Byte.isLetter q = false := by rcases quote_cases hq with rfl | rfl <;> rfl
  -- no blank is passed over
  obtain ⟨c₁, hpeek₁, hview₁, _⟩ := peek_offered hc
  have hblanks : takeWhile Byte.isBlank c = .ok [] c₁ := by
    refine takeWhile_stop ?_
    unfold takeIf
    rw [bind_ok hpeek₁]
    simp [hblank]
  -- the opening quote tells that a string follows
  obtain ⟨c₂, hpeek₂, _, hskip⟩ := peek_offered hview₁
  obtain ⟨c', hbody, hview⟩ : ∃ c', Yields (stringByte q p) (skip c₂) (Text.bytes v) c' ∧
      Faithful.view c' = ⟨rest, (p.next q).after (body ++ [q])⟩ :=
    yields_stringByte (quote_ne_backslash hq) h hskip
  have hstring : string q p (skip c₂) = .ok (.text v) c' := by
    unfold string
    rw [bind_ok ((many_eq_ok_iff _).2 hbody), bind_ok (decode_bytes v)]
    rfl
  have hlexeme : lexeme q p c₂ = .ok (.text v) c' := by
    unfold lexeme
    rw [if_neg (by simp [hletter]), if_pos hq]
    exact hstring
  refine ⟨c', ?_, hview⟩
  have hplace : place c₁ = .ok p c₁ := by
    show EStateM.Result.ok c₁.position c₁ = _
    rw [show c₁.position = p from congrArg Bytes.position hview₁]
  unfold next
  rw [bind_ok hblanks, bind_ok hplace, bind_ok hpeek₂]
  simp only
  rw [bind_ok hlexeme]
  rfl

end Cursor

namespace Printing

open Text Lexical

/-- Quoting is undone by the lexer, whatever bytes stand behind the closing quote: a text in quotes is
read as a string with that text for its value, and exactly what stands behind it is left, at the place
behind the quoted text. A cursor has this from any chunks of its stream, also where the stream fails
behind the closing quote. -/
theorem next_literal (v : String) (rest : List UInt8) (c : Cursor)
    (h : c.offered = bytes (literal v) ++ rest) :
    ∃ c', Lexer.next c = .ok (some ⟨.text v, c.position⟩) c' ∧ c'.offered = rest ∧
      c'.position = c.position.after (bytes (literal v)) := by
  have hview : Faithful.view c = ⟨Byte.doubleQuote ::
      (Utf8.encode (v.toList.flatMap literalChar) ++ Byte.doubleQuote :: rest), c.position⟩ := by
    show (⟨c.offered, c.position⟩ : Bytes) = _
    rw [h, bytes_literal]
    simp
  obtain ⟨c', hnext, hview'⟩ :=
    Cursor.next_string (by decide) (stringBody_literal v.toList) hview
  refine ⟨c', hnext, congrArg Bytes.rest hview', ?_⟩
  rw [bytes_literal]
  exact congrArg Bytes.position hview'

/-- The chunks may cut between a backslash and the byte it stands before, or inside a character, and the
stream may fail. -/
theorem next_literal_in_pieces :
    let c : Cursor := ⟨.ofChunks [[0x61, 0x5C], [0x22, 0x5C], [0x5C, 0x0A, 0xC3], [0xA9, 0x22],
      [0x22, 0x2E]] (.failing "gone"), [0x22], false, ⟨3, 7⟩⟩
    c.offered = bytes (literal "a\"\\\né") ++ [0x22, 0x2E] ∧
      ∃ c', Lexer.next c = .ok (some ⟨.text "a\"\\\né", ⟨3, 7⟩⟩) c' ∧
        c'.offered = [0x22, 0x2E] ∧ c'.position = ⟨4, 4⟩ := by
  intro c
  have h : c.offered = bytes (literal "a\"\\\né") ++ [0x22, 0x2E] := by decide
  exact ⟨h, next_literal "a\"\\\né" [0x22, 0x2E] c h⟩

end Printing
end ProtoSchema
