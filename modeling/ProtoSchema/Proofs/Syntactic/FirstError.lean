import Mathlib.Control.Monad.Basic
import ProtoSchema.Proofs.Syntactic.Coupled
import ProtoSchema.Proofs.Syntactic.Location

/-!
# ProtoSchema.Proofs.Syntactic.FirstError

An error of the parser stands at the first token that no schema goes on with, or at the end of an
input that some schema goes on behind; an error of the input or of the lexer is met behind tokens that
some schema goes on with (`refused_at_first_error`).
-/

namespace ProtoSchema

theorem Failure.FromBelow.layer_ne {c : Cause} {p : Position}
    (h : (Failure.refused ⟨c, p⟩).FromBelow) : c.layer ≠ .syntactic := by
  rcases h with h | ⟨reason, y, e⟩
  · cases h with
    | refused h => simp [h]
    | invalidUtf8 => exact nofun
  · cases e
    exact nofun

theorem Cause.IsRule.not_fromBelow {c : Cause} {p : Position} (hc : c.IsRule) :
    ¬ (Failure.refused ⟨c, p⟩).FromBelow := by
  rintro (h | ⟨reason, y, e⟩)
  · cases h with
    | refused h => cases hc.layer.symm.trans h
    | invalidUtf8 => cases hc
  · cases e
    cases hc

namespace Syntactic

open Scan ProtoSchema.Parser

variable {σ : Type} [ByteInput σ] {s s₁ s₂ : σ} {us : List Token} {t : Token} {e : Failure}

/-! ## The tokens that the parser sees -/

/-- The tokens that are no comments, up to the end of the input or to the first lexeme that is
refused. -/
def plainTokens (s : σ) : List Token := (Lexer.tokens s).items.filter (!·.isComment)

theorem run_token (s : σ) : run token? progresses_token s =
    ⟨plainTokens s, (Lexer.tokens s).failure, (Lexer.tokens s).final⟩ :=
  run_first _ Lexer.progresses_next s

theorem run_token_of_reads {s s' : σ} (h : Reads s us s') : run token? progresses_token s =
    ⟨us ++ plainTokens s', (Lexer.tokens s').failure, (Lexer.tokens s').final⟩ := by
  induction h with
  | nil => exact run_token _
  | cons ht _ ih => rw [run_some _ ht, ih, List.cons_append]

theorem plainTokens_of_some (h : Reads s us s₁) (ht : token? s₁ = .ok (some t) s₂) :
    plainTokens s = us ++ t :: plainTokens s₂ := by
  have hr := (run_token s).symm.trans (run_token_of_reads (h.append (.cons ht .nil)))
  rw [List.append_assoc] at hr
  exact congrArg Run.items hr

theorem tokens_of_none (h : Reads s us s₁) (ht : token? s₁ = .ok none s₂) :
    plainTokens s = us ∧ (Lexer.tokens s).failure = none ∧ (Lexer.tokens s).final = s₂ := by
  have hend := (run_token s₁).symm.trans (run_none progresses_token ht)
  have hr := (run_token s).symm.trans (run_token_of_reads h)
  simp only [Run.mk.injEq] at hend hr
  rw [hr.1, hr.2.1, hr.2.2, hend.1, List.append_nil]
  exact ⟨rfl, hend.2⟩

theorem tokens_of_error (h : Reads s us s₁) (ht : token? s₁ = .error e s₂) :
    plainTokens s = us ∧ (Lexer.tokens s).failure = some e := by
  have hend := (run_token s₁).symm.trans (run_error progresses_token ht)
  have hr := (run_token s).symm.trans (run_token_of_reads h)
  simp only [Run.mk.injEq] at hend hr
  rw [hr.1, hr.2.1, hend.1, List.append_nil]
  exact ⟨rfl, hend.2.1⟩

/-! ## Where errors stand -/

variable [Faithful σ]

instance : PlainTokenSource σ where
  fromBelow {s s' e} h := by
    generalize h' : token? (Faithful.view s) = r
    cases Faithful.coupling.couples_token.ends_of_eq (Faithful.coupling_rel s) h h' with
    | error he _ => exact .inl he
    | lost he _ => exact .inr he

/-- Lexing that does not fail ends behind the last byte. -/
theorem position_final (h : (Lexer.tokens s).failure = none) :
    ByteInput.position (Lexer.tokens s).final =
      (ByteInput.position s).after (Faithful.bytes s) := by
  have hends := Faithful.tokens_view s
  generalize Lexer.tokens s = r at hends h
  generalize hr' : Lexer.tokens (Faithful.view s) = r' at hends
  cases hends with
  | done hr =>
    rw [Faithful.coupling.place hr, Lexical.yields_next_end ((run_eq_iff _).1 hr')]
    rfl
  | failed => cases h
  | lost => cases h

/-- The first error is reported. An error of the parser stands at a token that cannot follow those
before it, which some schema begins with, or at the end of the input, where all tokens are the front
of a schema and none themselves. Where the input or the lexer fails, the tokens so far are such a
front. -/
theorem refused_at_first_error {s : σ} {source : Option String} {e : Failure}
    (h : Document.ofInput s source = .error e) :
    (∀ c p, e = .refused ⟨c, p⟩ → c.layer = .syntactic →
      (∃ us t rest, plainTokens s = us ++ t :: rest ∧ p = t.position ∧
        Completable (Derives source) us ∧ ¬ Viable (Derives source) (us ++ [t])) ∨
      ((Lexer.tokens s).failure = none ∧
        p = (ByteInput.position s).after (Faithful.bytes s) ∧
        Unfinished (Derives source) (plainTokens s))) ∧
    (e.FromBelow →
      (Lexer.tokens s).failure = some e ∧ Completable (Derives source) (plainTokens s)) := by
  obtain ⟨s', hs⟩ := ofInput_eq_error.1 h
  have ho := (locates_document source).outcome s (Nat.lt_succ_self _)
  rw [hs] at ho
  cases ho with
  | rule hc =>
    -- what breaks a rule about declarations is neither an error of the parser nor from below
    refine ⟨?_, fun hb => absurd hb hc.not_fromBelow⟩
    rintro c p ⟨rfl⟩ hl
    cases hc.layer.symm.trans hl
  | @token us t c s₁ s₂ _ hc hr ht hv hn =>
    refine ⟨?_, fun hb => absurd hc hb.layer_ne⟩
    rintro _ _ ⟨rfl⟩ _
    exact .inl ⟨us, t, _, plainTokens_of_some hr ht, rfl, hv, hn⟩
  | @ending us c s₁ s₂ _ hc hr ht hu =>
    refine ⟨?_, fun hb => absurd hc hb.layer_ne⟩
    rintro _ _ ⟨rfl⟩ _
    obtain ⟨hts, hnone, hfinal⟩ := tokens_of_none hr ht
    refine .inr ⟨hnone, ?_, hts ▸ hu⟩
    rw [← position_final hnone, hfinal]
    rfl
  | @source us _ s₁ s₂ _ hr ht hv =>
    obtain ⟨hts, hfail⟩ := tokens_of_error hr ht
    refine ⟨?_, fun _ => ⟨hfail, hts ▸ hv⟩⟩
    rintro c p ⟨rfl⟩ hl
    exact absurd hl (PlainTokenSource.fromBelow ht).layer_ne

/-- A brace that nothing has opened, behind the first statement; a message that is not closed; and a byte
that begins no lexeme where a name has to stand. -/
theorem refused_at_first_error_samples :
    let unopened := Bytes.ofList (Utf8.encode "syntax = 'proto3'; \x7d".toList)
    let unclosed := Bytes.ofList (Utf8.encode "syntax = 'proto3'; message M \x7b".toList)
    let stray := Bytes.ofList (Utf8.encode "syntax = 'proto3'; message #".toList)
    (Document.ofInput unopened none =
        .error (.refused ⟨.unexpectedToken ⟨.punct .rbrace, ⟨1, 20⟩⟩ "", ⟨1, 20⟩⟩) ∧
      ∃ us t rest, plainTokens unopened = us ++ t :: rest ∧ ⟨1, 20⟩ = t.position ∧
        Completable (Derives none) us ∧ ¬ Viable (Derives none) (us ++ [t])) ∧
    (Document.ofInput unclosed none =
        .error (.refused ⟨.expected (.phrase "'\x7d'") .endOfInput, ⟨1, 31⟩⟩) ∧
      (Lexer.tokens unclosed).failure = none ∧
        Unfinished (Derives none) (plainTokens unclosed)) ∧
    Document.ofInput stray none = .error (.refused ⟨.unexpectedByte 0x23, ⟨1, 28⟩⟩) ∧
      (Lexer.tokens stray).failure = some (.refused ⟨.unexpectedByte 0x23, ⟨1, 28⟩⟩) ∧
        Completable (Derives none) (plainTokens stray) := by
  intro unopened unclosed stray
  have hunopened : Document.ofInput unopened none =
      .error (.refused ⟨.unexpectedToken ⟨.punct .rbrace, ⟨1, 20⟩⟩ "", ⟨1, 20⟩⟩) := by
    decide +kernel
  have hunclosed : Document.ofInput unclosed none =
      .error (.refused ⟨.expected (.phrase "'\x7d'") .endOfInput, ⟨1, 31⟩⟩) := by decide +kernel
  have hstray : Document.ofInput stray none = .error (.refused ⟨.unexpectedByte 0x23, ⟨1, 28⟩⟩) := by
    decide +kernel
  refine ⟨⟨hunopened, ?_⟩, ⟨hunclosed, ?_⟩, hstray,
    (refused_at_first_error hstray).2 (.inl (.refused rfl))⟩
  · rcases (refused_at_first_error hunopened).1 _ _ rfl rfl with htoken | ⟨_, hend, _⟩
    · exact htoken
    · -- the end of the input is behind the brace
      exact absurd hend (by decide +kernel)
  · rcases (refused_at_first_error hunclosed).1 _ _ rfl rfl with
      ⟨us, t, rest, hts, hp, _⟩ | ⟨hnone, _, hu⟩
    · -- no token stands there
      have hall : ∀ u ∈ plainTokens unclosed, u.position ≠ ⟨1, 31⟩ := by decide +kernel
      exact absurd hp.symm (hall t (by simp [hts]))
    · exact ⟨hnone, hu⟩

end Syntactic
end ProtoSchema
