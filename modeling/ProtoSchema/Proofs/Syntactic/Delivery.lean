import ProtoSchema.Proofs.Streams
import ProtoSchema.Proofs.Syntactic.Schema

/-!
# ProtoSchema.Proofs.Syntactic.Delivery

How the bytes of a schema are handed out makes no difference to what is read. The cuts between chunks
do not show (`chunks_irrelevant`). A stream that fails never passes for one that ends, and what is
decided before the failure is decided by the bytes before it alone (`failing_stream`).
-/

namespace ProtoSchema
namespace Syntactic

open Scan ProtoSchema.Parser

theorem offered_ofStream {chunks : List (List UInt8)} (h : [] ∉ chunks) (ending : Ending) :
    (Cursor.ofStream (.ofChunks chunks ending)).offered = chunks.flatten :=
  Stream.offered_eq_bytes (s := .ofChunks chunks ending) h

/-! ## Streams that end -/

theorem ending_rel {chunks : List (List UInt8)} (h : [] ∉ chunks) :
    Cursor.ending.Rel [] (Cursor.ofStream (.ofChunks chunks .exhausted))
      (Bytes.ofList chunks.flatten) := by
  refine ⟨⟨?_, List.nil_prefix, Nat.zero_le _⟩, rfl⟩
  show _ = (⟨(Cursor.ofStream (.ofChunks chunks .exhausted)).offered, .first⟩ : Bytes)
  rw [offered_ofStream h]
  rfl

/-- Two lexings that yield the same tokens, fail alike if they fail, and end at the same place. -/
structure SameTokens {σ τ : Type} [ByteInput σ] [ByteInput τ] (r : Run σ Token) (r' : Run τ Token) :
    Prop where
  items : r.items = r'.items
  failure : r.failure = r'.failure
  position : ByteInput.position r.final = ByteInput.position r'.final

/-- The cuts between chunks do not show: neither in the tokens and the failure behind them, nor in the
document or the failure to read one. -/
theorem chunks_irrelevant {chunks : List (List UInt8)} (h : [] ∉ chunks) (source : Option String) :
    SameTokens (Lexer.tokens (Cursor.ofStream (.ofChunks chunks .exhausted)))
        (Lexer.tokens (Bytes.ofList chunks.flatten)) ∧
      Document.ofStream (.ofChunks chunks .exhausted) source =
        Document.ofBytes chunks.flatten source := by
  have hrel := ending_rel h
  constructor
  · have hrun := Coupling.runEnds_run Lexer.progresses_next Lexer.progresses_next
      Cursor.ending.couples_next _ _ hrel
    unfold Lexer.tokens
    generalize run Lexer.next Lexer.progresses_next (Cursor.ofStream _) = r at hrun ⊢
    generalize run Lexer.next Lexer.progresses_next (Bytes.ofList _) = r' at hrun ⊢
    cases hrun with
    | done hr => exact ⟨rfl, rfl, Cursor.ending.place hr⟩
    | failed _ hr => exact ⟨rfl, rfl, Cursor.ending.place hr⟩
    | lost hl => exact hl.elim
  · have hdoc := Cursor.ending.ends_document source hrel
    unfold Document.ofStream Document.ofBytes Document.ofInput
    generalize Parser.document source (Cursor.ofStream _) = r at hdoc ⊢
    generalize Parser.document source (Bytes.ofList _) = r' at hdoc ⊢
    cases hdoc with
    | ok _ => rfl
    | error _ _ => rfl
    | lost hl => exact hl.elim

/-- A schema that is cut inside its string, inside the marks of its comment and inside a character. -/
theorem chunks_irrelevant_schema :
    let chunks := [Utf8.encode "syntax = 'pro".toList, Utf8.encode "to3'; /".toList,
      Utf8.encode "* ".toList ++ [0xC3], 0xA9 :: Utf8.encode " */ message M \x7b\x7d".toList]
    let d : Document := ⟨.proto3, [], [], [], [⟨"M", [], [], [], ⟨1, 29⟩⟩], [], none⟩
    [] ∉ chunks ∧
      SameTokens (Lexer.tokens (Cursor.ofStream (.ofChunks chunks .exhausted)))
        (Lexer.tokens (Bytes.ofList chunks.flatten)) ∧
      Document.ofStream (.ofChunks chunks .exhausted) none = .ok d ∧
      Document.ofBytes chunks.flatten none = .ok d := by
  intro chunks d
  have hchunks : [] ∉ chunks := by decide
  have hread : Document.ofBytes chunks.flatten none = .ok d := eq_ok_of_toOption (by decide +kernel)
  obtain ⟨htokens, hdocument⟩ := chunks_irrelevant hchunks none
  exact ⟨hchunks, htokens, hdocument.trans hread, hread⟩

/-! ## Streams that fail -/

theorem failing_ofStream {chunks : List (List UInt8)} (h : [] ∉ chunks) (reason : String) :
    (Cursor.ofStream (.ofChunks chunks (.failing reason))).Failing reason [] :=
  ⟨rfl, rfl, h, List.nil_prefix⟩

theorem failing_rel {chunks : List (List UInt8)} (h : [] ∉ chunks) (reason : String)
    (x : List UInt8) :
    (Cursor.failing reason x).Rel [] (Cursor.ofStream (.ofChunks chunks (.failing reason)))
      (Bytes.ofList (chunks.flatten ++ x)) := by
  refine ⟨failing_ofStream h reason, ?_⟩
  rw [offered_ofStream h]
  rfl

theorem parting_rel {chunks : List (List UInt8)} (h : [] ∉ chunks) (reason : String) :
    (Cursor.parting reason chunks.flatten).Rel []
      (Cursor.ofStream (.ofChunks chunks (.failing reason)))
      (Cursor.ofStream (.ofList chunks.flatten)) := by
  refine ⟨failing_ofStream h reason, ⟨[], rfl, rfl⟩, rfl, rfl, rfl, ?_, rfl⟩
  rw [offered_ofStream h]
  cases hb : chunks.flatten with
  | nil => rfl
  | cons b bs =>
    rw [Stream.ofList, offered_ofStream (by simp)]
    simp

/-- Where bytes in memory hand out no more tokens, no bytes are left. -/
theorem rest_of_yields {s s' : Bytes} {ts : List Token} (y : Yields token? s ts s') :
    s'.rest = [] := by
  induction y with
  | more _ _ ih => exact ih
  | stop h =>
    obtain ⟨s₁, h₁⟩ := none_of_first Lexer.progresses_next h
    rcases Lexical.next_cases h₁ with ⟨_, _, rfl⟩ | ⟨_, _, _, _, _, _, _, _, e, _⟩
    · rfl
    · cases e

section Failing

variable {chunks : List (List UInt8)} (h : [] ∉ chunks) (reason : String) (source : Option String)

include h

/-- A stream that fails does not hold a document. -/
theorem document_failing_ne_ok (d : Document) (c : Cursor) :
    document source (Cursor.ofStream (.ofChunks chunks (.failing reason))) ≠ .ok d c := by
  intro hd
  -- the same document would be read with one more byte behind, and that byte be left over
  have hends := (Cursor.failing reason [Byte.slash]).ends_document source (failing_rel h reason _)
  generalize hd' : document source (Bytes.ofList (chunks.flatten ++ [Byte.slash])) = r at hends
  rw [hd] at hends
  cases hends with
  | @ok _ _ t hr =>
    obtain ⟨ts, y, _⟩ := (finishes_document source _ (Nat.lt_succ_self _) d t).1 hd'
    have hrest := rest_of_yields y
    rw [hr.1.2] at hrest
    simp at hrest

/-- What is decided before a stream ends is decided as well if it fails there. -/
theorem document_failing_of_open {e : Failure} {c : Cursor} (hc : c.ended = false)
    (he : document source (Cursor.ofStream (.ofList chunks.flatten)) = .error e c) :
    ¬ e.Unreadable ∧
      ∃ c', document source (Cursor.ofStream (.ofChunks chunks (.failing reason))) = .error e c' := by
  have hends := (Cursor.parting reason chunks.flatten).ends_document source (parting_rel h reason)
  generalize document source (Cursor.ofStream (.ofChunks chunks (.failing reason))) = r at hends ⊢
  rw [he] at hends
  cases hends with
  | error hfair _ => exact ⟨hfair, _, rfl⟩
  | lost _ hgone => cases hc.symm.trans hgone

/-- What is decided before a stream fails is decided whatever comes then. -/
theorem document_append_of_failing {e : Failure} {c : Cursor} (hu : ¬ e.Unreadable)
    (he : document source (Cursor.ofStream (.ofChunks chunks (.failing reason))) = .error e c)
    (x : List UInt8) : ∃ s, document source (Bytes.ofList (chunks.flatten ++ x)) = .error e s := by
  have hends := (Cursor.failing reason x).ends_document source (failing_rel h reason x)
  generalize document source (Bytes.ofList (chunks.flatten ++ x)) = r at hends ⊢
  rw [he] at hends
  cases hends with
  | error _ _ => exact ⟨_, rfl⟩
  | lost hl _ => exact absurd hl hu

/-- What is not decided before a stream fails is not decided at all. -/
theorem document_failing_of_ended
    (hended : ∀ e c, document source (Cursor.ofStream (.ofList chunks.flatten)) = .error e c →
      c.ended = true) :
    ∃ e c, document source (Cursor.ofStream (.ofChunks chunks (.failing reason))) = .error e c ∧
      c.Starved reason chunks.flatten e := by
  have hends := (Cursor.parting reason chunks.flatten).ends_document source (parting_rel h reason)
  have hok := document_failing_ne_ok h reason source
  generalize document source (Cursor.ofStream (.ofChunks chunks (.failing reason))) = r at hends hok ⊢
  generalize document source (Cursor.ofStream (.ofList chunks.flatten)) = r' at hends hended
  cases hends with
  | @ok d c _ _ => exact absurd rfl (hok d c)
  | @error e i c c' _ hr => cases (hended e c' rfl).symm.trans hr.1.2.2.ended
  | lost hl _ => exact ⟨_, _, rfl, hl⟩

end Failing

/-- The cursor that has been shown the only byte of its stream. -/
def single (b : UInt8) : Cursor := ⟨⟨[], .exhausted, [1]⟩, [b], false, .first⟩

theorem next_single {b : UInt8} (hb : Byte.isBlank b = false) :
    Lexer.next (Cursor.ofStream (.ofList [b])) =
      (Lexer.lexeme b .first >>= fun l => pure (some ⟨l, .first⟩)) (single b) := by
  have hfill : Cursor.fill 1 (Cursor.ofStream (.ofList [b])) = .ok () (single b) := by
    rw [Cursor.fill]
    exact Cursor.fill_of_le (c := single b) (Nat.le_refl 1)
  have hpeek : peek (single b) = .ok (some b) (single b) :=
    Cursor.peek_of_fill (Cursor.fill_of_le (c := single b) (Nat.le_refl 1))
  have hplace : place (single b) = .ok .first (single b) := rfl
  have hblank : takeIf Byte.isBlank (Cursor.ofStream (.ofList [b])) = .ok none (single b) := by
    have hfirst : peek (Cursor.ofStream (.ofList [b])) = .ok (some b) (single b) :=
      Cursor.peek_of_fill hfill
    unfold takeIf
    rw [bind_ok hfirst]
    simp only [hb, Bool.false_eq_true, if_false]
    rfl
  unfold Lexer.next
  rw [bind_ok (takeWhile_stop hblank), bind_ok hplace, bind_ok hpeek]

/-- A stream that fails holds no document. An error that is found without asking for a byte behind its
bytes is found, and also with any bytes `x` behind them. Otherwise the failure is the error, at the
first byte that has not been taken: there is none, or it is a slash or a star whose next byte is
missing. -/
theorem failing_stream {chunks : List (List UInt8)} (h : [] ∉ chunks) (reason : String)
    (source : Option String) :
    (∀ d, Document.ofStream (.ofChunks chunks (.failing reason)) source ≠ .ok d) ∧
      (∀ e c, document source (Cursor.ofStream (.ofList chunks.flatten)) = .error e c →
        c.ended = false →
        Document.ofStream (.ofChunks chunks (.failing reason)) source = .error e ∧
          ∀ x, Document.ofBytes (chunks.flatten ++ x) source = .error e) ∧
      ((∀ e c, document source (Cursor.ofStream (.ofList chunks.flatten)) = .error e c →
          c.ended = true) →
        ∃ c front, document source (Cursor.ofStream (.ofChunks chunks (.failing reason))) =
            .error (.refused ⟨.unreadable reason, c.position⟩) c ∧
          chunks.flatten = front ++ c.bytes ∧ c.position = Lexical.placeBehind front ∧
          (c.bytes = [] ∨ c.bytes = [Byte.slash] ∨ c.bytes = [Byte.star])) := by
  refine ⟨?_, ?_, ?_⟩
  · intro d hd
    obtain ⟨c, hc⟩ := ofInput_eq_ok.1 hd
    exact document_failing_ne_ok h reason source d c hc
  · intro e c he hc
    obtain ⟨hu, c', he'⟩ := document_failing_of_open h reason source hc he
    refine ⟨ofInput_eq_error.2 ⟨c', he'⟩, fun x => ?_⟩
    exact ofInput_eq_error.2 (document_append_of_failing h reason source hu he' x)
  · intro hended
    obtain ⟨e, c, he, rfl, ⟨front, hbs, hp⟩, hb⟩ := document_failing_of_ended h reason source hended
    exact ⟨c, front, he, hbs, hp, hb⟩

/-- A brace that nothing has opened is refused before the stream is asked for more; a slash is not. -/
theorem failing_stream_samples :
    (let e := Failure.refused
      ⟨.expected (.kinds [.keyword .syntaxWord]) (.token ⟨.punct .rbrace, .first⟩), .first⟩
    Document.ofStream (.ofChunks [[0x7D]] (.failing "lost")) none = .error e ∧
      ∀ x, Document.ofBytes ([0x7D] ++ x) none = .error e) ∧
    ∃ c front, document none (Cursor.ofStream (.ofChunks [[0x2F]] (.failing "lost"))) =
        .error (.refused ⟨.unreadable "lost", c.position⟩) c ∧
      [Byte.slash] = front ++ c.bytes ∧ c.position = Lexical.placeBehind front ∧
      (c.bytes = [] ∨ c.bytes = [Byte.slash] ∨ c.bytes = [Byte.star]) := by
  constructor
  · have hnext : Lexer.next (Cursor.ofStream (.ofList [0x7D])) =
        .ok (some ⟨.punct .rbrace, .first⟩) ⟨⟨[], .exhausted, [1]⟩, [], false, ⟨1, 2⟩⟩ :=
      next_single rfl
    exact (@failing_stream [[0x7D]] (by decide) "lost" none).2.1 _ _
      (document_of_next hnext rfl (by simp)) rfl
  · refine (@failing_stream [[0x2F]] (by decide) "lost" none).2.2 ?_
    intro e c he
    -- the second byte of a comment mark is asked for, and the end of the stream is seen
    have hfill : Cursor.fill 2 (single 0x2F) =
        .ok () ⟨⟨[], .exhausted, [1, 1]⟩, [0x2F], true, .first⟩ := by
      rw [Cursor.fill]
      rfl
    have hcomment : Lexer.comment .first (single 0x2F) =
        .error (.refused ⟨.unexpectedByte 0x2F, .first⟩)
          ⟨⟨[], .exhausted, [1, 1]⟩, [0x2F], true, .first⟩ := by
      unfold Lexer.comment
      rw [bind_ok (Cursor.ahead_of_fill .slash hfill)]
      rfl
    have hnext := (next_single (b := 0x2F) rfl).trans (bind_error hcomment)
    cases (document_of_next_error hnext).symm.trans he
    rfl

end Syntactic
end ProtoSchema
