import ProtoSchema.Proofs.Lexical.Trivia
import ProtoSchema.Proofs.Syntactic.Alike
import ProtoSchema.Proofs.Syntactic.Delivery

/-!
# ProtoSchema.Proofs.Syntactic.Layout

Comments and blanks do not show in what is read. Two inputs with the same lexemes, comments apart, hold
documents that are the same but for places, or are refused alike; and blanks and comments may be put in
wherever the lexer starts a token (`layout_irrelevant`).
-/

namespace ProtoSchema

/-- The kind and the value of a token. -/
def Token.content (t : Token) : Kind × Form.Value := (t.form.kind, t.form.value)

/-- Kind and value tell lexemes apart. -/
theorem Token.lexeme_of_content {t u : Token} (h : t.content = u.content) : t.lexeme = u.lexeme := by
  obtain ⟨l, x⟩ := t
  obtain ⟨l', y⟩ := u
  simp only [Token.content, Token.form, Prod.mk.injEq] at h
  obtain ⟨hkind, hvalue⟩ := h
  cases l <;> cases l' <;> cases hkind <;> cases hvalue <;> rfl

namespace Syntactic

open Scan ProtoSchema.Parser Lexical Text

theorem sameResult_of_abreast {σ τ : Type} [ByteInput σ] [ByteInput τ] {s : σ} {t : τ}
    (h : Abreast (fun _ _ => True) s t) (source source' : Option String) :
    Document.SameResult (Document.ofInput s source) (Document.ofInput t source') := by
  have hends := agrees_document source source' s t h
  unfold Document.ofInput
  generalize document source s = r at hends ⊢
  generalize document source' t = r' at hends ⊢
  cases hends with
  | ok hd _ => exact .ok hd
  | error he => exact .error he

/-- Inputs whose tokens, comments apart, agree in kind and value, and whose lexing ends alike. -/
theorem abreast_of_content {σ τ : Type} [ByteInput σ] [ByteInput τ] {s : σ} {t : τ}
    (h : (plainTokens s).map Token.content = (plainTokens t).map Token.content)
    (hf : Option.Rel (Failure.Alike fun _ _ => True) (Lexer.tokens s).failure
      (Lexer.tokens t).failure) : Abreast (fun _ _ => True) s t := by
  refine ⟨?_, hf, fun _ => trivial⟩
  generalize plainTokens s = us at h
  generalize plainTokens t = vs at h
  induction us generalizing vs with
  | nil =>
    obtain rfl : vs = [] := by simpa using h.symm
    exact .nil
  | cons u us ih =>
    cases vs with
    | nil => cases h
    | cons v vs =>
      simp only [List.map_cons, List.cons.injEq] at h
      exact .cons ⟨Token.lexeme_of_content h.1, trivial⟩ (ih vs h.2)

/-! ## Inputs that can be read -/

/-- The input hands out the bytes `bs` from the first place on, and reading it does not fail. -/
structure Holds {σ : Type} [ByteInput σ] [Faithful σ] (s : σ) (bs : List UInt8) : Prop where
  bytes : Faithful.bytes s = bs
  position : ByteInput.position s = .first
  readable : ∀ e, (Lexer.tokens s).failure = some e → ¬ e.Unreadable

/-- A stream that does not fail can be read. -/
theorem holds_ofChunks {chunks : List (List UInt8)} (h : [] ∉ chunks) :
    Holds (Cursor.ofStream (.ofChunks chunks .exhausted)) chunks.flatten := by
  refine ⟨offered_ofStream h _, rfl, fun e he => ?_⟩
  have hrun := Coupling.runEnds_run Lexer.progresses_next Lexer.progresses_next
    Cursor.ending.couples_next _ _ (ending_rel h)
  unfold Lexer.tokens at he
  generalize run Lexer.next Lexer.progresses_next (Cursor.ofStream _) = r at hrun he
  generalize run Lexer.next Lexer.progresses_next (Bytes.ofList _) = r' at hrun
  cases hrun with
  | done => cases he
  | failed hfair _ =>
    cases he
    exact hfair.not_unreadable
  | lost hl => exact hl.elim

/-- Bytes in memory can be read. -/
theorem holds_ofList (bs : List UInt8) : Holds (Bytes.ofList bs) bs := by
  refine ⟨rfl, rfl, fun e he => ?_⟩
  obtain ⟨chunks, h, rfl⟩ : ∃ chunks : List (List UInt8), [] ∉ chunks ∧ chunks.flatten = bs := by
    cases bs with
    | nil => exact ⟨[], by simp, rfl⟩
    | cons b bs => exact ⟨[b :: bs], by simp, by simp⟩
  rw [← (chunks_irrelevant h none).1.failure] at he
  exact (holds_ofChunks h).readable e he

/-- Such an input is lexed as its bytes in memory. -/
theorem Holds.tokens {σ : Type} [ByteInput σ] [Faithful σ] {s : σ} {bs : List UInt8} (h : Holds s bs) :
    plainTokens s = plainTokens (Bytes.ofList bs) ∧
      (Lexer.tokens s).failure = (Lexer.tokens (Bytes.ofList bs)).failure := by
  obtain ⟨rfl, hp, hreadable⟩ := h
  have hends := Faithful.tokens_view s
  have hview : Faithful.view s = Bytes.ofList (Faithful.bytes s) := by
    rw [Faithful.view, hp, Bytes.ofList]
  rw [hview] at hends
  unfold plainTokens
  generalize Lexer.tokens s = r at hends hreadable ⊢
  generalize Lexer.tokens (Bytes.ofList (Faithful.bytes s)) = r' at hends ⊢
  cases hends with
  | done _ => exact ⟨rfl, rfl⟩
  | failed _ _ => exact ⟨rfl, rfl⟩
  | lost hl _ => exact absurd hl (hreadable _ rfl)

/-! ## Blanks and comments put in -/

theorem Failure.moved_alike (e : Failure) (p q : Position) :
    (e.moved p).Alike (fun _ _ => True) (e.moved q) := by
  cases e with
  | refused e => exact .same trivial
  | numberTooLong n => exact .numberTooLong n
  | windowTooSmall n => exact .windowTooSmall n

/-- The lexemes of bytes do not depend on the place, and lexing ends alike everywhere. -/
theorem content_of_place (bs : List UInt8) (p q : Position) :
    (plainTokens (⟨bs, p⟩ : Bytes)).map Token.content =
        (plainTokens (⟨bs, q⟩ : Bytes)).map Token.content ∧
      Option.Rel (Failure.Alike fun _ _ => True) (Lexer.tokens (⟨bs, p⟩ : Bytes)).failure
        (Lexer.tokens (⟨bs, q⟩ : Bytes)).failure := by
  obtain ⟨ls, f, _, _, htokens⟩ := tokens_offsets bs
  obtain ⟨hitems, hfailure⟩ := htokens p
  obtain ⟨hitems', hfailure'⟩ := htokens q
  constructor
  · rw [plainTokens, plainTokens, hitems, hitems', List.filter_map, List.filter_map, List.map_map,
      List.map_map]
    rfl
  · rw [hfailure, hfailure']
    cases f with
    | none => exact .none
    | some a => exact .some (Failure.moved_alike a.1 _ _)

/-- Blanks and comments in front of a token add no lexemes but comments. -/
theorem content_of_insert {front u rest : List UInt8} (h : StartsToken front rest) (hu : Trivia u) :
    (plainTokens (Bytes.ofList (front ++ rest))).map Token.content =
        (plainTokens (Bytes.ofList (front ++ (u ++ rest)))).map Token.content ∧
      Option.Rel (Failure.Alike fun _ _ => True)
        (Lexer.tokens (Bytes.ofList (front ++ rest))).failure
        (Lexer.tokens (Bytes.ofList (front ++ (u ++ rest)))).failure := by
  obtain ⟨ts, w, p, hp, hw, b, hb, _⟩ := h
  have hne : rest ≠ [] := by
    rintro rfl
    cases hb
  obtain ⟨hitems, hfailure⟩ := hp.tokens_eq
  have hinsert : Passes (Bytes.ofList (front ++ (u ++ rest))) ts ⟨w ++ (u ++ rest), p⟩ :=
    hp.insert hu hw hne
  obtain ⟨hitems', hfailure'⟩ := hinsert.tokens_eq
  have hblanks (bs : List UInt8) : Lexer.tokens (⟨w ++ bs, p⟩ : Bytes) = Lexer.tokens ⟨bs, p.after w⟩ :=
    run_congr _ (next_behind_blanks hw bs p)
  have htrivia := (run_token (⟨u ++ rest, p.after w⟩ : Bytes)).symm.trans
    ((run_congr progresses_token (first_trivia hu rest (p.after w))).trans (run_token _))
  simp only [Run.mk.injEq] at htrivia
  obtain ⟨hplain, hfail, _⟩ := htrivia
  obtain ⟨hcontent, hends⟩ := content_of_place rest (p.after w) ((p.after w).after u)
  rw [hblanks] at hitems hfailure hitems' hfailure'
  constructor
  · rw [plainTokens, plainTokens, hitems, hitems', List.filter_append, List.filter_append,
      List.map_append, List.map_append]
    rw [← plainTokens, ← plainTokens, hplain, hcontent]
  · rw [hfailure, hfailure', hfail]
    exact hends

/-- Comments and blanks do not show. Two inputs whose tokens, comments apart, agree in kind and value and
whose lexing ends alike hold documents that differ in places only, or are refused with one kind and one
message. In particular this is so if blanks, closed block comments and line comments with their line feeds
are put in where the lexer starts a token. -/
theorem layout_irrelevant :
    (∀ {σ τ : Type} [ByteInput σ] [ByteInput τ] (s : σ) (t : τ) (source source' : Option String),
      (plainTokens s).map Token.content = (plainTokens t).map Token.content →
      Option.Rel (Failure.Alike fun _ _ => True) (Lexer.tokens s).failure (Lexer.tokens t).failure →
      Document.SameResult (Document.ofInput s source) (Document.ofInput t source')) ∧
    ∀ {σ τ : Type} [ByteInput σ] [Faithful σ] [ByteInput τ] [Faithful τ] (s : σ) (t : τ)
      (source source' : Option String) (front u rest : List UInt8),
      StartsToken front rest → Trivia u → Holds s (front ++ rest) → Holds t (front ++ (u ++ rest)) →
      Document.SameResult (Document.ofInput s source) (Document.ofInput t source') := by
  refine ⟨fun s t source source' hcontent hends =>
    sameResult_of_abreast (abreast_of_content hcontent hends) source source', ?_⟩
  intro σ τ _ _ _ _ s t source source' front u rest hstarts hu hs ht
  obtain ⟨hcontent, hends⟩ := content_of_insert hstarts hu
  rw [← hs.tokens.1, ← ht.tokens.1] at hcontent
  rw [← hs.tokens.2, ← ht.tokens.2] at hends
  exact sameResult_of_abreast (abreast_of_content hcontent hends) source source'

/-- A schema in one row and in several, with comments; a comment behind the first word of another; and one
before a brace that nothing has opened, with a blank. -/
theorem layout_irrelevant_samples :
    let d (p q : Position) : Document :=
      ⟨.proto3, [], [], [], [⟨"M", [⟨.scalar .string, "a", 1, false, q⟩], [], [], p⟩], [], none⟩
    let dense := Utf8.encode "syntax='proto3';message M\x7bstring a=1;\x7d".toList
    let loose := Utf8.encode "// é\nsyntax = 'proto3' ;\nmessage /* b */ M \x7b string\n a = 1; \x7d".toList
    let rest := 0x3D :: bytes "'proto3';message M\x7b\x7d"
    (Document.ofBytes dense none = .ok (d ⟨1, 17⟩ ⟨1, 27⟩) ∧
      Document.ofBytes loose none = .ok (d ⟨3, 1⟩ ⟨3, 21⟩) ∧
      Document.SameResult (Document.ofBytes dense none) (Document.ofBytes loose none)) ∧
    (Document.ofBytes (bytes "syntax" ++ rest) none =
        .ok ⟨.proto3, [], [], [], [⟨"M", [], [], [], ⟨1, 17⟩⟩], [], none⟩ ∧
      Document.SameResult (Document.ofBytes (bytes "syntax" ++ rest) none)
        (Document.ofBytes (bytes "syntax" ++ ([0x2F, 0x2A, 0x2A, 0x2F] ++ rest)) none)) ∧
    Document.SameResult (Document.ofBytes [0x7D] none)
      (Document.ofBytes [0x20, 0x2F, 0x2A, 0x2A, 0x2F, 0x7D] (some "a.proto")) := by
  have hcomment : Trivia [0x2F, 0x2A, 0x2A, 0x2F] :=
    @Trivia.block [] [] "" (by decide) rfl .nil
  intro d dense loose rest
  refine ⟨⟨eq_ok_of_toOption (by decide +kernel), eq_ok_of_toOption (by decide +kernel), ?_⟩,
    ⟨eq_ok_of_toOption (by decide +kernel), ?_⟩, ?_⟩
  · have hcontent : (plainTokens (Bytes.ofList dense)).map Token.content =
        (plainTokens (Bytes.ofList loose)).map Token.content := by decide +kernel
    have hdense : (Lexer.tokens (Bytes.ofList dense)).failure = none := by decide +kernel
    have hloose : (Lexer.tokens (Bytes.ofList loose)).failure = none := by decide +kernel
    exact layout_irrelevant.1 _ _ none none hcontent (by rw [hdense, hloose]; exact .none)
  · have hword : IsWord (bytes "syntax") := isWord_bytes_iff.2 (isIdentifier_word .syntaxWord)
    have hend : ∀ c ∈ rest.head?, Byte.isWordPart c = false ∧ c ≠ Byte.dot := by
      intro c hc
      obtain rfl : 0x3D = c := Option.some.inj hc
      decide
    have hread : Reading (bytes "syntax") rest (.keyword .syntaxWord) :=
      .keyword (isLongest_name (.of_word hword) hend) hword rfl
    have hnext := next_reading (w := []) (by simp) hread nofun nofun .first
    have hstarts : StartsToken (bytes "syntax") rest :=
      ⟨_, [], _, .cons hnext .nil, nofun, 0x3D, rfl, rfl⟩
    exact layout_irrelevant.2 _ _ none none _ _ _ hstarts hcomment (holds_ofList _) (holds_ofList _)
  · have hstarts : StartsToken [] [0x7D] := ⟨[], [], .first, .nil, nofun, 0x7D, rfl, rfl⟩
    obtain ⟨hcontent, hends⟩ := content_of_insert hstarts (.blank (b := 0x20) rfl hcomment)
    exact layout_irrelevant.1 _ _ none (some "a.proto") hcontent hends

end Syntactic
end ProtoSchema
