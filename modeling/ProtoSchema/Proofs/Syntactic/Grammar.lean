import ProtoSchema.Document.Parser

/-!
# ProtoSchema.Proofs.Syntactic.Grammar

The syntactic grammar, stated on token lists without reference to how they are read. There is one
relation for each nonterminal, between the tokens that it derives and what they declare:

* `IsReference`, `IsName`, `IsOptionValue` — what single lexemes stand for;
* `OptionStmt`, `ImportStmt`, `PackageStmt`, `TypeOf`, `FieldStmt` — statements without a body;
* `Items`, `MessageDecl` — messages, which nest;
* `RpcDecl`, `ServiceItems`, `ServiceDecl` — services;
* `Statements`, `Derives` — whole schemas.

The rules about field numbers, clashing fields and map keys are no part of it.
-/

namespace ProtoSchema
namespace Syntactic

open ProtoSchema.Parser

/-- A plain or dotted identifier and its segments. -/
inductive IsReference : Lexeme → List String → Prop where
  | ident (n : String) : IsReference (.ident n) [n]
  | dotted (ss : List String) : IsReference (.dotted ss) ss

/-- A name, for which keywords serve too. -/
inductive IsName : Lexeme → String → Prop where
  | ident (n : String) : IsName (.ident n) n
  | keyword (k : Keyword) : IsName (.keyword k) k.word

/-- A lexeme as the value of an option. -/
inductive IsOptionValue : Lexeme → OptionValue → Prop where
  | text (s : String) : IsOptionValue (.text s) (.quoted s)
  | number (n : Nat) : IsOptionValue (.number n) (.bare (toString n))
  | reference {l : Lexeme} {ss : List String} :
      IsReference l ss → IsOptionValue l (.bare (".".intercalate ss))

inductive OptionStmt : List Token → OptionDecl → Prop where
  | intro {l v : Lexeme} {ss : List String} {value : OptionValue} {p p₁ p₂ p₃ p₄ : Position} :
      IsReference l ss → IsOptionValue v value →
      OptionStmt
        [⟨.keyword .optionWord, p⟩, ⟨l, p₁⟩, ⟨.punct .equals, p₂⟩, ⟨v, p₃⟩, ⟨.punct .semi, p₄⟩]
        ⟨".".intercalate ss, value, p⟩

inductive ImportStmt : List Token → ImportDecl → Prop where
  | plain {path : String} {p p₁ p₂ : Position} :
      ImportStmt [⟨.keyword .importWord, p⟩, ⟨.text path, p₁⟩, ⟨.punct .semi, p₂⟩] ⟨path, .plain, p⟩
  | weak {path : String} {p p₁ p₂ p₃ : Position} :
      ImportStmt
        [⟨.keyword .importWord, p⟩, ⟨.keyword .weakWord, p₁⟩, ⟨.text path, p₂⟩, ⟨.punct .semi, p₃⟩]
        ⟨path, .weak, p⟩
  | shared {path : String} {p p₁ p₂ p₃ : Position} :
      ImportStmt
        [⟨.keyword .importWord, p⟩, ⟨.keyword .publicWord, p₁⟩, ⟨.text path, p₂⟩,
          ⟨.punct .semi, p₃⟩]
        ⟨path, .shared, p⟩

inductive PackageStmt : List Token → List String → Prop where
  | intro {l : Lexeme} {ss : List String} {p p₁ p₂ : Position} :
      IsReference l ss →
      PackageStmt [⟨.keyword .packageWord, p⟩, ⟨l, p₁⟩, ⟨.punct .semi, p₂⟩] ss

inductive TypeOf : List Token → FieldType → Prop where
  | scalar {s : Scalar} {p : Position} : TypeOf [⟨.keyword (.scalar s), p⟩] (.scalar s)
  | named {n : String} {p : Position} : TypeOf [⟨.ident n, p⟩] (.named n)
  | dotted {ss : List String} {p : Position} : TypeOf [⟨.dotted ss, p⟩] (.dotted ss)
  | map {us vs : List Token} {key value : FieldType} {p p₁ p₂ p₃ : Position} :
      TypeOf us key → TypeOf vs value →
      TypeOf
        (⟨.keyword .mapWord, p⟩ :: ⟨.punct .langle, p₁⟩ ::
          (us ++ ⟨.punct .comma, p₂⟩ :: (vs ++ [⟨.punct .rangle, p₃⟩])))
        (.map key value)

/-- What follows the type of a field: its name and its number, with the place of the number. -/
inductive FieldRest : List Token → String → Nat → Position → Prop where
  | intro {l : Lexeme} {name : String} {n : Nat} {p₁ p₂ p₃ p₄ : Position} :
      IsName l name →
      FieldRest [⟨l, p₁⟩, ⟨.punct .equals, p₂⟩, ⟨.number n, p₃⟩, ⟨.punct .semi, p₄⟩] name n p₃

inductive FieldStmt : List Token → Field → Prop where
  | single {t : Token} {us vs : List Token} {type : FieldType} {name : String} {n : Nat}
      {p : Position} :
      TypeOf (t :: us) type → FieldRest vs name n p →
      FieldStmt (t :: (us ++ vs)) ⟨type, name, n, false, t.position⟩
  | repeated {us vs : List Token} {type : FieldType} {name : String} {n : Nat}
      {p p₁ : Position} :
      TypeOf us type → FieldRest vs name n p₁ →
      FieldStmt (⟨.keyword .repeatedWord, p⟩ :: (us ++ vs)) ⟨type, name, n, true, p⟩

/-- A statement that is read and forgotten. -/
inductive SkippedStmt : List Token → Prop where
  | intro {t : Token} {us : List Token} {p : Position} :
      t.lexeme = .keyword .reservedWord ∨ t.lexeme = .keyword .extensionsWord →
      (∀ u ∈ us, u.lexeme ≠ .punct .semi) → SkippedStmt (t :: (us ++ [⟨.punct .semi, p⟩]))

/-- The items of a message, between its braces. -/
inductive Items : List Token → MessageBody → Prop where
  | nil : Items [] .empty
  | semi {us : List Token} {b : MessageBody} {p : Position} :
      Items us b → Items (⟨.punct .semi, p⟩ :: us) b
  | message {us vs : List Token} {name : String} {inner b : MessageBody} {p p₁ p₂ p₃ : Position} :
      Items us inner → Items vs b →
      Items
        (⟨.keyword .messageWord, p⟩ :: ⟨.ident name, p₁⟩ :: ⟨.punct .lbrace, p₂⟩ ::
          (us ++ ⟨.punct .rbrace, p₃⟩ :: vs))
        (b.addNested ⟨name, inner.fields, inner.nested, inner.options, p⟩)
  | option {us vs : List Token} {o : OptionDecl} {b : MessageBody} :
      OptionStmt us o → Items vs b → Items (us ++ vs) (b.addOption o)
  | skipped {us vs : List Token} {b : MessageBody} :
      SkippedStmt us → Items vs b → Items (us ++ vs) b
  | field {us vs : List Token} {f : Field} {b : MessageBody} :
      FieldStmt us f → Items vs b → Items (us ++ vs) (b.addField f)

inductive MessageDecl : List Token → Message → Prop where
  | intro {us : List Token} {name : String} {b : MessageBody} {p p₁ p₂ p₃ : Position} :
      Items us b →
      MessageDecl
        (⟨.keyword .messageWord, p⟩ :: ⟨.ident name, p₁⟩ :: ⟨.punct .lbrace, p₂⟩ ::
          (us ++ [⟨.punct .rbrace, p₃⟩]))
        ⟨name, b.fields, b.nested, b.options, p⟩

/-- Further parameters of a method, each behind a comma. -/
inductive MoreParams : List Token → List String → Prop where
  | nil : MoreParams [] []
  | cons {us : List Token} {l : Lexeme} {ss ps : List String} {p p₁ : Position} :
      IsReference l ss → MoreParams us ps →
      MoreParams (⟨.punct .comma, p⟩ :: ⟨l, p₁⟩ :: us) (".".intercalate ss :: ps)

/-- The items of a method, between its braces. -/
inductive RpcItems : List Token → Prop where
  | nil : RpcItems []
  | semi {us : List Token} {p : Position} : RpcItems us → RpcItems (⟨.punct .semi, p⟩ :: us)
  | option {us vs : List Token} {o : OptionDecl} :
      OptionStmt us o → RpcItems vs → RpcItems (us ++ vs)

/-- What ends a method: a semicolon or a block. -/
inductive RpcEnd : List Token → Prop where
  | semi {p : Position} : RpcEnd [⟨.punct .semi, p⟩]
  | block {us : List Token} {p p₁ : Position} :
      RpcItems us → RpcEnd (⟨.punct .lbrace, p⟩ :: (us ++ [⟨.punct .rbrace, p₁⟩]))

inductive RpcDecl : List Token → Rpc → Prop where
  | intro {us vs : List Token} {name : String} {l r : Lexeme} {ss rs more : List String}
      {p p₁ p₂ p₃ p₄ p₅ p₆ p₇ p₈ : Position} :
      IsReference l ss → MoreParams us more → IsReference r rs → RpcEnd vs →
      RpcDecl
        (⟨.ident "rpc", p⟩ :: ⟨.ident name, p₁⟩ :: ⟨.punct .lparen, p₂⟩ :: ⟨l, p₃⟩ ::
          (us ++ ⟨.punct .rparen, p₄⟩ :: ⟨.ident "returns", p₅⟩ :: ⟨.punct .lparen, p₆⟩ ::
            ⟨r, p₇⟩ :: ⟨.punct .rparen, p₈⟩ :: vs))
        ⟨name, ".".intercalate ss :: more, ".".intercalate rs, p⟩

/-- The items of a service, between its braces. -/
inductive ServiceItems : List Token → ServiceBody → Prop where
  | nil : ServiceItems [] .empty
  | semi {us : List Token} {b : ServiceBody} {p : Position} :
      ServiceItems us b → ServiceItems (⟨.punct .semi, p⟩ :: us) b
  | option {us vs : List Token} {o : OptionDecl} {b : ServiceBody} :
      OptionStmt us o → ServiceItems vs b → ServiceItems (us ++ vs) (b.addOption o)
  | rpc {us vs : List Token} {r : Rpc} {b : ServiceBody} :
      RpcDecl us r → ServiceItems vs b → ServiceItems (us ++ vs) (b.addRpc r)

inductive ServiceDecl : List Token → Service → Prop where
  | intro {us : List Token} {name : String} {b : ServiceBody} {p p₁ p₂ p₃ : Position} :
      ServiceItems us b →
      ServiceDecl
        (⟨.keyword .serviceWord, p⟩ :: ⟨.ident name, p₁⟩ :: ⟨.punct .lbrace, p₂⟩ ::
          (us ++ [⟨.punct .rbrace, p₃⟩]))
        ⟨name, b.rpcs, b.options, p⟩

/-- The statements of a schema behind the first, with at most one package among them. -/
inductive Statements : List Token → Body → Prop where
  | nil : Statements [] .empty
  | semi {us : List Token} {b : Body} {p : Position} :
      Statements us b → Statements (⟨.punct .semi, p⟩ :: us) b
  | package {us vs : List Token} {ss : List String} {b : Body} :
      PackageStmt us ss → Statements vs b → b.package = none → Statements (us ++ vs) (b.setPackage ss)
  | importDecl {us vs : List Token} {i : ImportDecl} {b : Body} :
      ImportStmt us i → Statements vs b → Statements (us ++ vs) (b.addImport i)
  | option {us vs : List Token} {o : OptionDecl} {b : Body} :
      OptionStmt us o → Statements vs b → Statements (us ++ vs) (b.addOption o)
  | message {us vs : List Token} {m : Message} {b : Body} :
      MessageDecl us m → Statements vs b → Statements (us ++ vs) (b.addMessage m)
  | service {us vs : List Token} {s : Service} {b : Body} :
      ServiceDecl us s → Statements vs b → Statements (us ++ vs) (b.addService s)

/-- The tokens of a schema, comments left out, and the document that they declare; `source` is the
name of where they come from. -/
inductive Derives (source : Option String) : List Token → Document → Prop where
  | intro {us : List Token} {d : Dialect} {b : Body} {p p₁ p₂ p₃ : Position} :
      Statements us b →
      Derives source
        (⟨.keyword .syntaxWord, p⟩ :: ⟨.punct .equals, p₁⟩ :: ⟨.text d.word, p₂⟩ ::
          ⟨.punct .semi, p₃⟩ :: us)
        ⟨d, b.package.getD [], b.imports, b.options, b.messages, b.services, source⟩

theorem Items.nest {us vs : List Token} {m : Message} {b : MessageBody} (hm : MessageDecl us m)
    (h : Items vs b) : Items (us ++ vs) (b.addNested m) := by
  cases hm with
  | @intro us name inner p p₁ p₂ p₃ hinner =>
    have := @Items.message us vs name inner b p p₁ p₂ p₃ hinner h
    simpa using this

/-! ## How statements begin -/

theorem TypeOf.head {us : List Token} {type : FieldType} (h : TypeOf us type) :
    ∃ t vs, us = t :: vs ∧
      ((∃ s, t.lexeme = .keyword (.scalar s)) ∨ (∃ n, t.lexeme = .ident n) ∨
        (∃ ss, t.lexeme = .dotted ss) ∨ t.lexeme = .keyword .mapWord) := by
  cases h with
  | scalar => exact ⟨_, _, rfl, .inl ⟨_, rfl⟩⟩
  | named => exact ⟨_, _, rfl, .inr (.inl ⟨_, rfl⟩)⟩
  | dotted => exact ⟨_, _, rfl, .inr (.inr (.inl ⟨_, rfl⟩))⟩
  | map => exact ⟨_, _, rfl, .inr (.inr (.inr rfl))⟩

theorem OptionStmt.head {us : List Token} {o : OptionDecl} (h : OptionStmt us o) :
    ∃ t vs, us = t :: vs ∧ t.lexeme = .keyword .optionWord := by
  cases h with
  | intro => exact ⟨_, _, rfl, rfl⟩

theorem ImportStmt.head {us : List Token} {i : ImportDecl} (h : ImportStmt us i) :
    ∃ t vs, us = t :: vs ∧ t.lexeme = .keyword .importWord := by
  cases h <;> exact ⟨_, _, rfl, rfl⟩

theorem PackageStmt.head {us : List Token} {ss : List String} (h : PackageStmt us ss) :
    ∃ t vs, us = t :: vs ∧ t.lexeme = .keyword .packageWord := by
  cases h with
  | intro => exact ⟨_, _, rfl, rfl⟩

theorem MessageDecl.head {us : List Token} {m : Message} (h : MessageDecl us m) :
    ∃ t vs, us = t :: vs ∧ t.lexeme = .keyword .messageWord := by
  cases h with
  | intro => exact ⟨_, _, rfl, rfl⟩

theorem ServiceDecl.head {us : List Token} {s : Service} (h : ServiceDecl us s) :
    ∃ t vs, us = t :: vs ∧ t.lexeme = .keyword .serviceWord := by
  cases h with
  | intro => exact ⟨_, _, rfl, rfl⟩

/-- A field begins with no token that begins another item. -/
theorem FieldStmt.head {us : List Token} {f : Field} (h : FieldStmt us f) :
    ∃ t vs, us = t :: vs ∧ t.lexeme ≠ .punct .rbrace ∧ t.lexeme ≠ .punct .semi ∧
      t.lexeme ≠ .keyword .messageWord ∧ t.lexeme ≠ .keyword .optionWord ∧ ¬ isSkipped t = true ∧
      unsupportedOf? t = none := by
  cases h with
  | repeated => exact ⟨_, _, rfl, by simp, by simp, by simp, by simp, by simp [isSkipped], rfl⟩
  | @single t _ _ _ _ _ _ ht _ =>
    refine ⟨t, _, rfl, ?_⟩
    obtain ⟨t', _, e, hh⟩ := ht.head
    cases e
    obtain ⟨l, p⟩ := t
    rcases hh with ⟨s, rfl⟩ | ⟨n, rfl⟩ | ⟨ss, rfl⟩ | rfl <;> simp [isSkipped, unsupportedOf?]

theorem RpcDecl.head {us : List Token} {r : Rpc} (h : RpcDecl us r) :
    ∃ t vs, us = t :: vs ∧ t.lexeme = .ident "rpc" := by
  cases h with
  | intro => exact ⟨_, _, rfl, rfl⟩

end Syntactic
end ProtoSchema
