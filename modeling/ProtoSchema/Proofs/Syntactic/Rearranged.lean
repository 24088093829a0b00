import ProtoSchema.Proofs.Syntactic.Braces
import ProtoSchema.Proofs.Syntactic.Layout
import ProtoSchema.Proofs.Syntactic.Places
import ProtoSchema.Proofs.Syntactic.Sequence

/-!
# ProtoSchema.Proofs.Syntactic.Rearranged

The order of statements of different kinds does not show in what is read. The statements of a schema
behind the first, those of a message and those of a service may change places as long as those of one
kind that is recorded keep their order (`Reordered`), and so at every depth (`Rearranged`). What a block
declares stays the same (`Rearranged.restates`), and the document too, but for places
(`rearranged_alike`).
-/

namespace ProtoSchema
namespace Syntactic

open Scan ProtoSchema.Parser

variable {b c : Block} {ts us vs : List Token}

/-- Whether statements of a kind leave something in the document. -/
def StatementKind.isRecorded : StatementKind → Bool
  | empty => false
  | skipped => false
  | _ => true

/-- The same statements in another order, in which those of each recorded kind follow one another as
before. -/
structure Reordered (ps qs : List (Statement b)) : Prop where
  perm : ps.Perm qs
  kept : ∀ k : StatementKind, k.isRecorded = true →
    ps.filter (·.entry.kind = k) = qs.filter (·.entry.kind = k)

/-- The tokens in front of what stands between the braces of a message or of a service. -/
inductive Block.Header : Block → List Token → Prop where
  | message {name : String} {p p₁ p₂ : Position} :
      Header .message [⟨.keyword .messageWord, p⟩, ⟨.ident name, p₁⟩, ⟨.punct .lbrace, p₂⟩]
  | service {name : String} {p p₁ p₂ : Position} :
      Header .service [⟨.keyword .serviceWord, p⟩, ⟨.ident name, p₁⟩, ⟨.punct .lbrace, p₂⟩]

/-- The tokens of a block with its statements reordered, or those inside one of its statements
rearranged; and so again and again. -/
inductive Rearranged : Block → List Token → List Token → Prop where
  | reorder {b : Block} {ps qs : List (Statement b)} :
      Reordered ps qs → Rearranged b (tokensOf ps) (tokensOf qs)
  | inside {b c : Block} {ps qs : List (Statement b)} {p : Statement b} {front us vs : List Token}
      {x : Position} :
      c.Header front → p.tokens = front ++ (us ++ [⟨.punct .rbrace, x⟩]) → Rearranged c us vs →
      Rearranged b (tokensOf ps ++ (p.tokens ++ tokensOf qs))
        (tokensOf ps ++ (front ++ (vs ++ [⟨.punct .rbrace, x⟩]) ++ tokensOf qs))
  | trans {b : Block} {us vs ws : List Token} :
      Rearranged b us vs → Rearranged b vs ws → Rearranged b us ws

/-- Statements of two kinds that stand next to each other may change places. -/
theorem Rearranged.swap (ps qs : List (Statement b)) {p q : Statement b}
    (h : p.entry.kind ≠ q.entry.kind) :
    Rearranged b (tokensOf (ps ++ p :: q :: qs)) (tokensOf (ps ++ q :: p :: qs)) := by
  refine .reorder ⟨(List.Perm.swap q p qs).append_left ps, fun k _ => ?_⟩
  by_cases hp : p.entry.kind = k
  · have hq : ¬ q.entry.kind = k := fun hq => h (hp.trans hq.symm)
    simp [hp, hq]
  · simp [List.filter_cons, hp]

/-! ## What is declared stays the same -/

/-- Statements that declare the same, those of each recorded kind in the same order. -/
def SameEntries (ps qs : List (Statement b)) : Prop :=
  ∀ k : StatementKind, k.isRecorded = true → entriesOf k ps = entriesOf k qs

theorem Reordered.sameEntries {ps qs : List (Statement b)} (h : Reordered ps qs) :
    SameEntries ps qs := by
  intro k hk
  have hkept := congrArg (List.map Statement.entry) (h.kept k hk)
  simpa [entriesOf, List.filter_map, Function.comp_def] using hkept

theorem SameEntries.messageBodyOf_eq {ps qs : List (Statement .message)} (h : SameEntries ps qs) :
    messageBodyOf ps = messageBodyOf qs := by
  simp only [messageBodyOf, h .field rfl, h .message rfl, h .option rfl]

theorem SameEntries.serviceBodyOf_eq {ps qs : List (Statement .service)} (h : SameEntries ps qs) :
    serviceBodyOf ps = serviceBodyOf qs := by
  simp only [serviceBodyOf, h .rpc rfl, h .option rfl]

theorem SameEntries.packagesOf_eq {ps qs : List (Statement .schema)} (h : SameEntries ps qs) :
    packagesOf ps = packagesOf qs := by
  simp only [packagesOf, h .package rfl]

theorem SameEntries.bodyOf_eq {ps qs : List (Statement .schema)} (h : SameEntries ps qs) :
    bodyOf ps = bodyOf qs := by
  simp only [bodyOf, h.packagesOf_eq, h .importDecl rfl, h .option rfl, h .message rfl,
    h .service rfl]

/-- Where the tokens `us` are statements of a block, the tokens `vs` are statements that declare the
same. -/
def Restates (b : Block) (us vs : List Token) : Prop :=
  ∀ ps : List (Statement b), tokensOf ps = us → ∃ qs, tokensOf qs = vs ∧ SameEntries ps qs

theorem Items.restate {body : MessageBody} (h : Items us body) (hr : Restates .message us vs) :
    Items vs body := by
  obtain ⟨ps, rfl, rfl⟩ := items_iff.1 h
  obtain ⟨qs, rfl, hsame⟩ := hr ps rfl
  exact items_iff.2 ⟨qs, rfl, hsame.messageBodyOf_eq.symm⟩

theorem ServiceItems.restate {body : ServiceBody} (h : ServiceItems us body)
    (hr : Restates .service us vs) : ServiceItems vs body := by
  obtain ⟨ps, rfl, rfl⟩ := serviceItems_iff.1 h
  obtain ⟨qs, rfl, hsame⟩ := hr ps rfl
  exact serviceItems_iff.2 ⟨qs, rfl, hsame.serviceBodyOf_eq.symm⟩

theorem Statements.restate {body : Body} (h : Statements us body) (hr : Restates .schema us vs) :
    Statements vs body := by
  obtain ⟨ps, rfl, hone, rfl⟩ := statements_iff.1 h
  obtain ⟨qs, rfl, hsame⟩ := hr ps rfl
  rw [hsame.packagesOf_eq] at hone
  exact statements_iff.2 ⟨qs, rfl, hone, hsame.bodyOf_eq.symm⟩

/-- A message or a service declares the same if what stands between its braces does. -/
theorem Entry.DeclaredBy.inside {entry : Entry} {front : List Token} {x : Position}
    (h : entry.DeclaredBy ts) (hmem : entry.kind ∈ b.kinds) (hfront : c.Header front)
    (hts : ts = front ++ (us ++ [⟨.punct .rbrace, x⟩])) (hr : Restates c us vs) :
    entry.DeclaredBy (front ++ (vs ++ [⟨.punct .rbrace, x⟩])) := by
  obtain ⟨t, ts', rfl, hkind⟩ := h.start hmem
  -- the first token of the header makes the entry a message or a service
  cases hfront with
  | message =>
    obtain ⟨rfl, hrest⟩ := List.cons.inj hts
    cases entry with
    | message m =>
      cases h with
      | intro hitems =>
        simp only [List.append_eq, List.cons_append, List.nil_append, List.cons.injEq, Token.mk.injEq,
          Lexeme.ident.injEq, true_and, List.append_singleton_inj] at hrest
        obtain ⟨⟨rfl, rfl⟩, rfl, rfl, rfl⟩ := hrest
        exact .intro (hitems.restate hr)
    | _ => cases hkind
  | service =>
    obtain ⟨rfl, hrest⟩ := List.cons.inj hts
    cases entry with
    | service s =>
      cases h with
      | intro hitems =>
        simp only [List.append_eq, List.cons_append, List.nil_append, List.cons.injEq, Token.mk.injEq,
          Lexeme.ident.injEq, true_and, List.append_singleton_inj] at hrest
        obtain ⟨⟨rfl, rfl⟩, rfl, rfl, rfl⟩ := hrest
        exact .intro (hitems.restate hr)
    | _ => cases hkind

/-- Rearranged statements declare the same. -/
theorem Rearranged.restates (h : Rearranged b us vs) : Restates b us vs := by
  induction h with
  | @reorder b ps qs h =>
    intro ps' hps
    obtain rfl := tokensOf_injective hps
    exact ⟨qs, rfl, h.sameEntries⟩
  | @inside b c ps qs p front us vs x hfront hp _ ih =>
    intro ps' hps
    obtain rfl : ps' = ps ++ p :: qs := tokensOf_injective (by simpa using hps)
    have hdeclared := p.declared.inside p.kind_mem hfront hp ih
    refine ⟨ps ++ ⟨_, p.entry, p.kind_mem, hdeclared⟩ :: qs, by simp, ?_⟩
    intro k _
    simp [entriesOf]
  | trans _ _ ih₁ ih₂ =>
    intro ps hps
    obtain ⟨qs, hqs, hsame⟩ := ih₁ ps hps
    obtain ⟨rs, hrs, hsame'⟩ := ih₂ qs hqs
    exact ⟨rs, hrs, fun k hk => (hsame k hk).trans (hsame' k hk)⟩

/-! ## Documents -/

section Documents

variable {σ τ : Type} [ByteInput σ] [ByteInput τ] {s : σ} {t : τ} {source : Option String}
  {d : Document} {first : List Token}

theorem map_lexeme_of_content (h : us.map Token.content = vs.map Token.content) :
    us.map Token.lexeme = vs.map Token.lexeme := by
  induction us generalizing vs with
  | nil =>
    obtain rfl : vs = [] := by simpa using h.symm
    rfl
  | cons u us ih =>
    cases vs with
    | nil => cases h
    | cons v vs =>
      simp only [List.map_cons, List.cons.injEq] at h
      rw [List.map_cons, List.map_cons, Token.lexeme_of_content h.1, ih h.2]

/-- A schema whose statements behind the first are rearranged. -/
theorem Derives.restate (h : Derives source (first ++ us) d) (hfirst : DialectStmt first d.dialect)
    (hr : Restates .schema us vs) : Derives source (first ++ vs) d := by
  generalize hts : first ++ us = ts at h
  cases h with
  | intro hbody =>
    obtain ⟨p, p₁, p₂, p₃, rfl⟩ := hfirst
    simp only [List.cons_append, List.nil_append, List.cons.injEq] at hts
    obtain ⟨_, _, _, _, rfl⟩ := hts
    exact .intro (hbody.restate hr)

/-- A document is read from tokens that derive it and end without a failure. -/
theorem ofInput_of_derives (h : Derives source (plainTokens s) d) (hd : d.Valid)
    (hend : (Lexer.tokens s).failure = none) : Document.ofInput s source = .ok d := by
  refine ofInput_iff_derives.2 ⟨plainTokens s, (Lexer.tokens s).final, ?_, h, hd⟩
  refine (run_eq_iff progresses_token).1 ?_
  rw [run_token, hend]

/-- Statements of different kinds may be reordered. Let `first` be the first statement of a schema that
is read, and `us` the tokens behind it, comments left out. Any input that is split into `first` and the
tokens `us` rearranged, places and comments apart, is read too, and the document is the same but for
places and for the name of the source. -/
theorem rearranged_alike (h : Document.ofInput s source = .ok d) (hs : plainTokens s = first ++ us)
    (hfirst : DialectStmt first d.dialect) (hr : Rearranged .schema us vs)
    (ht : (plainTokens t).map Token.content = (first ++ vs).map Token.content)
    (hend : (Lexer.tokens t).failure = none) (source' : Option String) :
    ∃ d', Document.ofInput t source' = .ok d' ∧ d.Alike d' := by
  have hd := derives_plainTokens h
  rw [hs] at hd
  obtain ⟨_, _, _, _, hvalid⟩ := ofInput_iff_derives.1 h
  have hmoved := hd.restate hfirst hr.restates
  obtain ⟨d', hd', halike⟩ := hmoved.elsewhere (map_lexeme_of_content ht) source'
  exact ⟨d', ofInput_of_derives hd' (halike.valid hvalid) hend, halike⟩

end Documents

/-! ## A package and a message -/

namespace Sample

def package : Statement .schema where
  tokens := [⟨.keyword .packageWord, ⟨1, 17⟩⟩, ⟨.ident "a", ⟨1, 25⟩⟩, ⟨.punct .semi, ⟨1, 26⟩⟩]
  entry := .package ["a"]
  kind_mem := by simp [Entry.kind]
  declared := .intro (.ident "a")

def empty : Statement .message where
  tokens := [⟨.punct .semi, ⟨1, 37⟩⟩]
  entry := .empty
  kind_mem := by simp [Entry.kind]
  declared := ⟨⟨1, 37⟩, rfl⟩

def option : Statement .message where
  tokens := [⟨.keyword .optionWord, ⟨1, 38⟩⟩, ⟨.ident "b", ⟨1, 45⟩⟩, ⟨.punct .equals, ⟨1, 46⟩⟩,
    ⟨.ident "c", ⟨1, 47⟩⟩, ⟨.punct .semi, ⟨1, 48⟩⟩]
  entry := .option ⟨"b", .bare "c", ⟨1, 38⟩⟩
  kind_mem := by simp [Entry.kind]
  declared := .intro (.ident "b") (.reference (.ident "c"))

/-- A message with the statements `ps`. -/
def message (ps : List (Statement .message)) : Statement .schema where
  tokens := ⟨.keyword .messageWord, ⟨1, 27⟩⟩ :: ⟨.ident "M", ⟨1, 35⟩⟩ ::
    ⟨.punct .lbrace, ⟨1, 36⟩⟩ :: (tokensOf ps ++ [Token.mk (.punct .rbrace) ⟨1, 49⟩])
  entry := .message ⟨"M", (messageBodyOf ps).fields, (messageBodyOf ps).nested,
    (messageBodyOf ps).options, ⟨1, 27⟩⟩
  kind_mem := by simp [Entry.kind]
  declared := .intro (items_tokensOf ps)

theorem rearranged : Rearranged .schema (tokensOf [package, message [empty, option]])
    (tokensOf [message [option, empty], package]) := by
  have hinside : Rearranged .message (tokensOf [empty, option]) (tokensOf [option, empty]) :=
    .swap [] [] (by simp [empty, option, Entry.kind])
  have hmessage : Rearranged .schema (tokensOf [package, message [empty, option]])
      (tokensOf [package, message [option, empty]]) :=
    @Rearranged.inside _ _ [package] [] (message [empty, option]) _ _ _ _ .message rfl hinside
  exact hmessage.trans (.swap [] [] (by simp [package, message, Entry.kind]))

end Sample

/-- A message in front of the package, with an empty statement moved inside it. -/
theorem rearranged_alike_sample :
    let text := "syntax='proto3';package a;message M\x7b;option b=c;\x7d"
    let text' := "syntax = 'proto3';\nmessage M \x7b option b = c; ; \x7d\npackage a;"
    let d : Document := ⟨.proto3, ["a"], [], [], [⟨"M", [], [], [⟨"b", .bare "c", ⟨1, 38⟩⟩], ⟨1, 27⟩⟩],
      [], none⟩
    Document.ofText text none = .ok d ∧
      ∃ d', Document.ofText text' (some "a.proto") = .ok d' ∧ d.Alike d' := by
  intro text text' d
  have hread : Document.ofText text none = .ok d := ofText_of_toOption (by decide +kernel)
  have hs : plainTokens (Bytes.ofList (Utf8.encode text.toList)) =
      [⟨.keyword .syntaxWord, ⟨1, 1⟩⟩, ⟨.punct .equals, ⟨1, 7⟩⟩, ⟨.text "proto3", ⟨1, 8⟩⟩,
        ⟨.punct .semi, ⟨1, 16⟩⟩] ++
          tokensOf [Sample.package, Sample.message [Sample.empty, Sample.option]] := by
    decide +kernel
  refine ⟨hread, rearranged_alike hread hs ⟨_, _, _, _, rfl⟩ Sample.rearranged ?_ ?_ (some "a.proto")⟩
  · decide +kernel
  · decide +kernel

end Syntactic
end ProtoSchema
