import ProtoSchema.Document.Read
import ProtoSchema.Proofs.Lexical.Names
import ProtoSchema.Proofs.Syntactic.Blocks

/-!
# ProtoSchema.Proofs.Syntactic.Schema

The parser accepts its grammar. The statements of a schema and the whole schema are read up to the
end of the input; on a source that can be split into tokens to its end, the documents that are read
are those that the syntactic grammar derives from the tokens and that keep the rules about
declarations (`ofInput_eq_ok_iff`).
-/

namespace ProtoSchema
namespace Syntactic

open Scan ProtoSchema.Parser

section Words

variable {M : Message → Prop} {packaged : Bool} {t : Token} {ts : List Token} {b : Body}

/-- Statements whose messages satisfy `M`, without a package if one has come before. -/
structure Follows (M : Message → Prop) (packaged : Bool) (ts : List Token) (b : Body) : Prop where
  statements : Statements ts b
  messages : ∀ m ∈ b.messages, M m
  package : packaged = true → b.package = none

/-- Everything that statements can be behind their first token. -/
def FollowsToken (M : Message → Prop) (packaged : Bool) (t : Token) : Lang Body :=
  match t.lexeme with
  | .punct .semi => Follows M packaged
  | .keyword .packageWord => .cases (packaged = true) .empty
    (.seq (fun us ss => PackageStmt (t :: us) ss) fun ss => .map (Body.setPackage ss) (Follows M true))
  | .keyword .importWord =>
    .seq (fun us i => ImportStmt (t :: us) i) fun i => .map (Body.addImport i) (Follows M packaged)
  | .keyword .optionWord =>
    .seq (fun us o => OptionStmt (t :: us) o) fun o => .map (Body.addOption o) (Follows M packaged)
  | .keyword .messageWord =>
    .seq (fun us m => MessageDecl (t :: us) m ∧ M m) fun m =>
      .map (Body.addMessage m) (Follows M packaged)
  | .keyword .serviceWord =>
    .seq (fun us s => ServiceDecl (t :: us) s) fun s => .map (Body.addService s) (Follows M packaged)
  | _ => .empty

theorem follows_of_token (h : FollowsToken M packaged t ts b) : Follows M packaged (t :: ts) b := by
  obtain ⟨l, x⟩ := t
  cases l with
  | punct q =>
    cases q with
    | semi => exact ⟨.semi h.statements, h.messages, h.package⟩
    | _ => cases h
  | keyword k =>
    cases k with
    | packageWord =>
      rcases h with ⟨_, h⟩ | ⟨hp, ss, us, vs, rfl, hs, rest, ⟨h, hM, hnone⟩, rfl⟩
      · cases h
      · exact ⟨.package hs h (hnone rfl), hM, fun hp' => absurd hp' hp⟩
    | importWord =>
      obtain ⟨i, us, vs, rfl, hi, rest, ⟨h, hM, hp⟩, rfl⟩ := h
      exact ⟨.importDecl hi h, hM, hp⟩
    | optionWord =>
      obtain ⟨o, us, vs, rfl, ho, rest, ⟨h, hM, hp⟩, rfl⟩ := h
      exact ⟨.option ho h, hM, hp⟩
    | messageWord =>
      obtain ⟨m, us, vs, rfl, ⟨hm, hm'⟩, rest, ⟨h, hM, hp⟩, rfl⟩ := h
      exact ⟨.message hm h, List.forall_mem_cons.2 ⟨hm', hM⟩, hp⟩
    | serviceWord =>
      obtain ⟨s, us, vs, rfl, hs, rest, ⟨h, hM, hp⟩, rfl⟩ := h
      exact ⟨.service hs h, hM, hp⟩
    | _ => cases h
  | _ => cases h

theorem follows_iff :
    (ts = [] ∧ b = .empty) ∨ Lang.token (FollowsToken M packaged) ts b ↔ Follows M packaged ts b := by
  constructor
  · rintro (⟨rfl, rfl⟩ | ⟨t, us, rfl, h⟩)
    · exact ⟨.nil, by simp [Body.empty], fun _ => rfl⟩
    · exact follows_of_token h
  · rintro ⟨h, hM, hp⟩
    cases h with
    | nil => exact .inl ⟨rfl, rfl⟩
    | semi h => exact .inr ⟨_, _, rfl, h, hM, hp⟩
    | package hs h hnone =>
      obtain ⟨⟨_, x⟩, us, rfl, rfl⟩ := hs.head
      exact .inr ⟨_, _, rfl, .inr ⟨(nomatch hp ·), _, us, _, rfl, hs, _,
        ⟨h, hM, fun _ => hnone⟩, rfl⟩⟩
    | importDecl hi h =>
      obtain ⟨⟨_, x⟩, us, rfl, rfl⟩ := hi.head
      exact .inr ⟨_, _, rfl, _, us, _, rfl, hi, _, ⟨h, hM, hp⟩, rfl⟩
    | option ho h =>
      obtain ⟨⟨_, x⟩, us, rfl, rfl⟩ := ho.head
      exact .inr ⟨_, _, rfl, _, us, _, rfl, ho, _, ⟨h, hM, hp⟩, rfl⟩
    | message hm h =>
      obtain ⟨⟨_, x⟩, us, rfl, rfl⟩ := hm.head
      obtain ⟨hm', hM⟩ := List.forall_mem_cons.1 hM
      exact .inr ⟨_, _, rfl, _, us, _, rfl, ⟨hm, hm'⟩, _, ⟨h, hM, hp⟩, rfl⟩
    | service hs h =>
      obtain ⟨⟨_, x⟩, us, rfl, rfl⟩ := hs.head
      exact .inr ⟨_, _, rfl, _, us, _, rfl, hs, _, ⟨h, hM, hp⟩, rfl⟩

/-- A schema is its first statement and those that follow. -/
theorem derives_iff {source : Option String} {d : Document} :
    Lang.seq DialectStmt (fun dialect => .map (fun b : Body => (⟨dialect, b.package.getD [], b.imports,
      b.options, b.messages, b.services, source⟩ : Document)) (Follows M false)) ts d ↔
      Derives source ts d ∧ ∀ m ∈ d.messages, M m := by
  constructor
  · rintro ⟨d, _, us, rfl, ⟨p, p₁, p₂, p₃, rfl⟩, b, ⟨h, hM, _⟩, rfl⟩
    exact ⟨.intro h, hM⟩
  · rintro ⟨⟨h⟩, hM⟩
    exact ⟨_, [_, _, _, _], _, rfl, ⟨_, _, _, _, rfl⟩, _, ⟨h, hM, nofun⟩, rfl⟩

end Words

section Productions

variable {σ : Type} [TokenSource σ] [LawfulTokenSource σ] {n : Nat}

/-- Statements that keep the rules about declarations. -/
abbrev ValidFollows : Bool → Lang Body := Follows (Message.Everywhere Message.Valid)

theorem finishes_statements (packaged : Bool) (n : Nat) :
    Finishes n (statements packaged n : Scan σ Body) (ValidFollows packaged) := by
  induction n generalizing packaged with
  | zero => exact fun _ hs => absurd hs (Nat.not_lt_zero _)
  | succ n ih =>
    unfold statements
    refine (finishes_token (K := FollowsToken _ packaged) Body.empty ?_).congr fun _ _ => follows_iff
    rintro ⟨l, x⟩
    -- a token that begins no statement
    have none {c : Cause} {y : Position} : Finishes n (refuse c y : Scan σ Body) .empty :=
      finishes_none nofun
    cases l with
    | punct q =>
      cases q with
      | semi => exact ih packaged
      | _ => exact none
    | keyword k =>
      cases k with
      | packageWord =>
        exact finishes_ite (fun _ => none) fun _ => finishes_bind (recognizes_package rfl) fun ss =>
          finishes_map (Body.setPackage ss) (ih true)
      | importWord =>
        exact finishes_bind (recognizes_importDecl rfl) fun i =>
          finishes_map (Body.addImport i) (ih packaged)
      | optionWord =>
        exact finishes_bind (recognizes_optionDecl rfl) fun o =>
          finishes_map (Body.addOption o) (ih packaged)
      | messageWord =>
        exact finishes_bind (recognizes_message rfl) fun m =>
          finishes_map (Body.addMessage m) (ih packaged)
      | serviceWord =>
        exact finishes_bind (recognizes_service rfl) fun s =>
          finishes_map (Body.addService s) (ih packaged)
      | _ => exact none
    | _ => exact none

theorem finishes_document (source : Option String) :
    Finishes n (document source : Scan σ Document) fun ts d => Derives source ts d ∧ d.Valid := by
  unfold document
  exact (finishes_bind recognizes_dialect fun d => finishes_map
    (fun b : Body => (⟨d, b.package.getD [], b.imports, b.options, b.messages, b.services, source⟩ :
      Document)) (finishes_budgeted (finishes_statements false))).congr fun _ _ => derives_iff

end Productions

section Documents

variable {σ : Type} [ByteInput σ] {s s' : σ} {ts : List Token}

theorem ofInput_eq_ok {source : Option String} {d : Document} :
    Document.ofInput s source = .ok d ↔ ∃ s', document source s = .ok d s' := by
  unfold Document.ofInput
  cases document source s <;> simp

theorem ofInput_eq_error {source : Option String} {e : Failure} :
    Document.ofInput s source = .error e ↔ ∃ s', document source s = .error e s' := by
  unfold Document.ofInput
  cases document source s <;> simp

/-- What a result computes to. -/
theorem eq_ok_of_toOption {ε α : Type} {r : Except ε α} {a : α} (h : r.toOption = some a) :
    r = .ok a := by
  cases r with
  | error e => cases h
  | ok b => exact congrArg _ (Option.some.inj h)

theorem ofText_of_toOption {text : String} {source : Option String} {d : Document}
    (h : (Document.ofText text source).toOption = some d) : Document.ofText text source = .ok d :=
  eq_ok_of_toOption h

/-- The documents that an input holds, in terms of the tokens that it hands out to its end. -/
theorem ofInput_iff_derives {source : Option String} {d : Document} :
    Document.ofInput s source = .ok d ↔
      ∃ ts s', Yields token? s ts s' ∧ Derives source ts d ∧ d.Valid := by
  rw [ofInput_eq_ok]
  constructor
  · rintro ⟨s', h⟩
    obtain ⟨ts, y, hd⟩ := (finishes_document source s (Nat.lt_succ_self _) d s').1 h
    exact ⟨ts, s', y, hd⟩
  · rintro ⟨ts, s', y, hd⟩
    exact ⟨s', (finishes_document source s (Nat.lt_succ_self _) d s').2 ⟨ts, y, hd⟩⟩

/-- Nothing is read where the first token cannot be. -/
theorem document_of_next_error {source : Option String} {e : Failure}
    (h : Lexer.next s = .error e s') : document source s = .error e s' := by
  unfold document dialect keyword accept require
  simp only [bind_assoc]
  exact bind_error (first_error Lexer.progresses_next h)

/-- A first token that begins no schema is refused. -/
theorem document_of_next {source : Option String} {t : Token} (h : Lexer.next s = .ok (some t) s')
    (hc : (!t.isComment) = true) (ht : t.lexeme ≠ .keyword .syntaxWord) :
    document source s =
      .error (.refused ⟨.expected (.kinds [.keyword .syntaxWord]) (.token t), t.position⟩) s' := by
  have htoken : (token? : Scan σ (Option Token)) s = .ok (some t) s' :=
    (first_some Lexer.progresses_next h).trans (if_pos hc)
  unfold document dialect keyword accept require
  simp only [bind_assoc]
  rw [bind_ok htoken]
  simp only [pure_bind, if_neg ht]
  rfl

/-- An input without a failure is split into tokens to its end. -/
theorem tokenize_of_failure (h : (Lexer.tokens s).failure = none) :
    Lexer.tokenize s = .ok (Lexer.tokens s).items (Lexer.tokens s).final := by
  have hrun : run Lexer.next Lexer.progresses_next s =
      ⟨(Lexer.tokens s).items, none, (Lexer.tokens s).final⟩ := by
    rw [← h]
    rfl
  exact (many_eq_ok_iff Lexer.progresses_next).2 ((run_eq_iff _).1 hrun)

theorem yields_token_of_tokenize (h : Lexer.tokenize s = .ok ts s') :
    Yields token? s (ts.filter (!·.isComment)) s' :=
  ((many_eq_ok_iff Lexer.progresses_next).1 h).first Lexer.progresses_next

/-- The parser accepts its grammar: on an input that is split into tokens to its end, it returns a
document if the tokens that are no comments derive it and it keeps the rules about declarations, and
else no document. -/
theorem ofInput_eq_ok_iff (h : Lexer.tokenize s = .ok ts s') (source : Option String)
    (d : Document) :
    Document.ofInput s source = .ok d ↔ Derives source (ts.filter (!·.isComment)) d ∧ d.Valid := by
  have y := yields_token_of_tokenize h
  rw [ofInput_iff_derives]
  constructor
  · rintro ⟨us, s₁, y', hd⟩
    obtain ⟨rfl, rfl⟩ := y.unique y'
    exact hd
  · intro hd
    exact ⟨_, s', y, hd⟩

end Documents

/-- A message with a field and a service, with a comment between. -/
theorem ofInput_eq_ok_iff_user :
    let text := "syntax = 'proto3'; message User \x7b repeated string tags = 1; \x7d // é\n" ++
      "service Users \x7b rpc Get(User) returns (User); \x7d"
    let s := Bytes.ofList (Utf8.encode text.toList)
    let d : Document := ⟨.proto3, [], [], [],
      [⟨"User", [⟨.scalar .string, "tags", 1, true, ⟨1, 35⟩⟩], [], [], ⟨1, 20⟩⟩],
      [⟨"Users", [⟨"Get", ["User"], "User", ⟨2, 17⟩⟩], [], ⟨2, 1⟩⟩], none⟩
    ∃ ts s', Lexer.tokenize s = .ok ts s' ∧ Document.ofInput s none = .ok d ∧
      Derives none (ts.filter (!·.isComment)) d ∧ d.Valid := by
  intro text s d
  have hread : Document.ofInput s none = .ok d := ofText_of_toOption (by decide +kernel)
  have hfailure : (Lexer.tokens s).failure = none := by decide +kernel
  have htokens := tokenize_of_failure hfailure
  exact ⟨_, _, htokens, hread, (ofInput_eq_ok_iff htokens none d).1 hread⟩

end Syntactic
end ProtoSchema
