import ProtoSchema.Proofs.Printing.Schema

/-!
# ProtoSchema.Proofs.Syntactic.WellFormed

Documents that are read are well-formed. What a production declares has the names that its tokens
carry, and tokens that can be read carry well-formed names; the rules about declarations come from
the checks of the parser. There is one lemma for each nonterminal of the syntactic grammar.
-/

namespace ProtoSchema
namespace Syntactic

open Scan ProtoSchema.Parser Lexical

/-- Tokens whose lexemes can be read from some bytes. -/
def AllReadable (ts : List Token) : Prop := ∀ t ∈ ts, Readable t.lexeme

@[simp] theorem allReadable_nil : AllReadable [] := by simp [AllReadable]

@[simp] theorem allReadable_cons {t : Token} {ts : List Token} :
    AllReadable (t :: ts) ↔ Readable t.lexeme ∧ AllReadable ts := by
  simp [AllReadable]

@[simp] theorem allReadable_append {us vs : List Token} :
    AllReadable (us ++ vs) ↔ AllReadable us ∧ AllReadable vs := by
  simp only [AllReadable, List.forall_mem_append]

/-! ## Statements -/

theorem IsReference.isPath {l : Lexeme} {ss : List String} (h : IsReference l ss)
    (hl : Readable l) : IsPath ss := by
  cases h with
  | ident n => exact .inl ⟨n, rfl, hl.ident⟩
  | dotted ss => exact .inr hl.dotted

theorem IsReference.isPathText {l : Lexeme} {ss : List String} (h : IsReference l ss)
    (hl : Readable l) : IsPathText (".".intercalate ss) :=
  ⟨ss, h.isPath hl, rfl⟩

theorem IsName.isIdentifier {l : Lexeme} {n : String} (h : IsName l n) (hl : Readable l) :
    IsIdentifier n := by
  cases h with
  | ident n => exact hl.ident.1
  | keyword k => exact isIdentifier_word k

theorem OptionStmt.wellFormed {ts : List Token} {o : OptionDecl} (h : OptionStmt ts o)
    (hts : AllReadable ts) : o.WellFormed := by
  cases h with
  | intro hr hv =>
    simp only [allReadable_cons] at hts
    obtain ⟨_, hl, _, hval, _⟩ := hts
    refine ⟨hr.isPathText hl, ?_⟩
    cases hv with
    | text s => exact trivial
    | number n => exact .inr hval.number
    | reference h => exact .inl (h.isPathText hval)

theorem TypeOf.type_named {ts : List Token} {type : FieldType} (h : TypeOf ts type)
    (hts : AllReadable ts) : type.Named := by
  induction h with
  | scalar => exact trivial
  | named => exact (allReadable_cons.1 hts).1.ident
  | dotted => exact (allReadable_cons.1 hts).1.dotted
  | map _ _ ihk ihv =>
    simp only [allReadable_cons, allReadable_append] at hts
    obtain ⟨_, _, hk, _, hv, _⟩ := hts
    exact ⟨ihk hk, ihv hv⟩

theorem FieldRest.isIdentifier {ts : List Token} {name : String} {n : Nat} {p : Position}
    (h : FieldRest ts name n p) (hts : AllReadable ts) : IsIdentifier name := by
  cases h with
  | intro hn => exact hn.isIdentifier (allReadable_cons.1 hts).1

theorem FieldStmt.named {ts : List Token} {f : Field} (h : FieldStmt ts f)
    (hts : AllReadable ts) : f.Named := by
  cases h with
  | single ht hr =>
    rw [← List.cons_append, allReadable_append] at hts
    exact ⟨ht.type_named hts.1, hr.isIdentifier hts.2⟩
  | repeated ht hr =>
    rw [allReadable_cons, allReadable_append] at hts
    exact ⟨ht.type_named hts.2.1, hr.isIdentifier hts.2.2⟩

/-! ## Messages -/

/-- The names in what the body of a message declares. -/
structure BodyNamed (b : MessageBody) : Prop where
  fields : ∀ f ∈ b.fields, f.Named
  nested : ∀ m ∈ b.nested, m.Everywhere Message.Named
  options : ∀ o ∈ b.options, o.WellFormed

/-- A message is named at every depth if its own name and its body are. -/
theorem BodyNamed.everywhere {b : MessageBody} (h : BodyNamed b) {name : String}
    (hn : Readable (.ident name)) (p : Position) :
    Message.Everywhere Message.Named ⟨name, b.fields, b.nested, b.options, p⟩ :=
  .intro ⟨hn.ident, h.fields, h.options⟩ h.nested

theorem Items.named {ts : List Token} {b : MessageBody} (h : Items ts b) (hts : AllReadable ts) :
    BodyNamed b := by
  induction h with
  | nil => refine ⟨?_, ?_, ?_⟩ <;> simp [MessageBody.empty]
  | semi _ ih => exact ih (allReadable_cons.1 hts).2
  | message _ _ ihm ih =>
    simp only [allReadable_cons, allReadable_append] at hts
    obtain ⟨_, hn, _, hm, _, hrest⟩ := hts
    obtain ⟨hf, hc, ho⟩ := ih hrest
    exact ⟨hf, List.forall_mem_cons.2 ⟨(ihm hm).everywhere hn _, hc⟩, ho⟩
  | option hs _ ih =>
    rw [allReadable_append] at hts
    obtain ⟨hf, hc, ho⟩ := ih hts.2
    exact ⟨hf, hc, List.forall_mem_cons.2 ⟨hs.wellFormed hts.1, ho⟩⟩
  | skipped _ _ ih => exact ih (allReadable_append.1 hts).2
  | field hs _ ih =>
    rw [allReadable_append] at hts
    obtain ⟨hf, hc, ho⟩ := ih hts.2
    exact ⟨List.forall_mem_cons.2 ⟨hs.named hts.1, hf⟩, hc, ho⟩

theorem MessageDecl.everywhere_named {ts : List Token} {m : Message} (h : MessageDecl ts m)
    (hts : AllReadable ts) : m.Everywhere Message.Named := by
  cases h with
  | intro hi =>
    simp only [allReadable_cons, allReadable_append] at hts
    exact (hi.named hts.2.2.2.1).everywhere hts.2.1 _

/-! ## Services -/

theorem MoreParams.isPathText {ts : List Token} {ps : List String} (h : MoreParams ts ps)
    (hts : AllReadable ts) : ∀ p ∈ ps, IsPathText p := by
  induction h with
  | nil => simp
  | cons hr _ ih =>
    simp only [allReadable_cons] at hts
    exact List.forall_mem_cons.2 ⟨hr.isPathText hts.2.1, ih hts.2.2⟩

theorem RpcDecl.wellFormed {ts : List Token} {r : Rpc} (h : RpcDecl ts r) (hts : AllReadable ts) :
    r.WellFormed := by
  cases h with
  | intro hp hm hr _ =>
    simp only [allReadable_cons, allReadable_append] at hts
    obtain ⟨_, hn, _, hl, hmore, _, _, _, hret, _⟩ := hts
    exact ⟨hn.ident, by simp, List.forall_mem_cons.2 ⟨hp.isPathText hl, hm.isPathText hmore⟩,
      hr.isPathText hret⟩

theorem ServiceItems.wellFormed {ts : List Token} {b : ServiceBody} (h : ServiceItems ts b)
    (hts : AllReadable ts) :
    (∀ r ∈ b.rpcs, r.WellFormed) ∧ ∀ o ∈ b.options, o.WellFormed := by
  induction h with
  | nil => exact ⟨by simp [ServiceBody.empty], by simp [ServiceBody.empty]⟩
  | semi _ ih => exact ih (allReadable_cons.1 hts).2
  | option hs _ ih =>
    rw [allReadable_append] at hts
    obtain ⟨hr, ho⟩ := ih hts.2
    exact ⟨hr, List.forall_mem_cons.2 ⟨hs.wellFormed hts.1, ho⟩⟩
  | rpc hs _ ih =>
    rw [allReadable_append] at hts
    obtain ⟨hr, ho⟩ := ih hts.2
    exact ⟨List.forall_mem_cons.2 ⟨hs.wellFormed hts.1, hr⟩, ho⟩

theorem ServiceDecl.wellFormed {ts : List Token} {s : Service} (h : ServiceDecl ts s)
    (hts : AllReadable ts) : s.WellFormed := by
  cases h with
  | intro hi =>
    simp only [allReadable_cons, allReadable_append] at hts
    obtain ⟨hr, ho⟩ := hi.wellFormed hts.2.2.2.1
    exact ⟨hts.2.1.ident, hr, ho⟩

/-! ## Schemas -/

theorem PackageStmt.isPath {ts : List Token} {ss : List String} (h : PackageStmt ts ss)
    (hts : AllReadable ts) : IsPath ss := by
  cases h with
  | intro hr => exact hr.isPath (allReadable_cons.1 (allReadable_cons.1 hts).2).1

/-- The names in what the statements of a schema declare. -/
structure SchemaNamed (b : Body) : Prop where
  package : ∀ ss, b.package = some ss → IsPath ss
  options : ∀ o ∈ b.options, o.WellFormed
  messages : ∀ m ∈ b.messages, m.Everywhere Message.Named
  services : ∀ s ∈ b.services, s.WellFormed

theorem Statements.named {ts : List Token} {b : Body} (h : Statements ts b)
    (hts : AllReadable ts) : SchemaNamed b := by
  induction h with
  | nil => refine ⟨?_, ?_, ?_, ?_⟩ <;> simp [Body.empty]
  | semi _ ih => exact ih (allReadable_cons.1 hts).2
  | package hs _ _ ih =>
    rw [allReadable_append] at hts
    obtain ⟨_, ho, hm, hv⟩ := ih hts.2
    refine ⟨?_, ho, hm, hv⟩
    intro ss e
    cases e
    exact hs.isPath hts.1
  | importDecl _ _ ih =>
    obtain ⟨hp, ho, hm, hv⟩ := ih (allReadable_append.1 hts).2
    exact ⟨hp, ho, hm, hv⟩
  | option hs _ ih =>
    rw [allReadable_append] at hts
    obtain ⟨hp, ho, hm, hv⟩ := ih hts.2
    exact ⟨hp, List.forall_mem_cons.2 ⟨hs.wellFormed hts.1, ho⟩, hm, hv⟩
  | message hs _ ih =>
    rw [allReadable_append] at hts
    obtain ⟨hp, ho, hm, hv⟩ := ih hts.2
    exact ⟨hp, ho, List.forall_mem_cons.2 ⟨hs.everywhere_named hts.1, hm⟩, hv⟩
  | service hs _ ih =>
    rw [allReadable_append] at hts
    obtain ⟨hp, ho, hm, hv⟩ := ih hts.2
    exact ⟨hp, ho, hm, List.forall_mem_cons.2 ⟨hs.wellFormed hts.1, hv⟩⟩

theorem Derives.wellFormed {source : Option String} {ts : List Token} {d : Document}
    (h : Derives source ts d) (hv : d.Valid) (hts : AllReadable ts) : d.WellFormed := by
  cases h with
  | @intro _ _ b _ _ _ _ hs =>
    simp only [allReadable_cons] at hts
    obtain ⟨hp, ho, hm, hserv⟩ := hs.named hts.2.2.2.2
    refine ⟨?_, ho, ?_, hserv⟩
    · cases hb : b.package with
      | none => exact .inl rfl
      | some ss => exact .inr (hp ss hb)
    · intro m hmem
      exact (hm m hmem).and (fun _ hn hv => ⟨hn, hv⟩) (hv m hmem)

/-- Every document that is read, from whatever input, is well-formed. -/
theorem wellFormed_of_ofInput {σ : Type} [ByteInput σ] [Faithful σ] {s : σ}
    {source : Option String} {d : Document} (h : Document.ofInput s source = .ok d) :
    d.WellFormed := by
  obtain ⟨ts, s', y, hd, hv⟩ := ofInput_iff_derives.1 h
  exact hd.wellFormed hv (readable_of_yields y)

/-- A package, an option whose value has an escaped quote, and a message in a message. -/
theorem wellFormed_of_ofInput_sample :
    let text := "syntax = 'proto3'; package a.b; option o = 'it\\'s';" ++
      "message M \x7b map<string, M.N> ns = 1; message N \x7b\x7d \x7d"
    let d : Document := ⟨.proto3, ["a", "b"], [], [⟨"o", .quoted "it's", ⟨1, 33⟩⟩],
      [⟨"M", [⟨.map (.scalar .string) (.dotted ["M", "N"]), "ns", 1, false, ⟨1, 64⟩⟩],
        [⟨"N", [], [], [], ⟨1, 89⟩⟩], [], ⟨1, 52⟩⟩], [], none⟩
    Document.ofText text none = .ok d ∧ d.WellFormed := by
  intro text d
  have hread : Document.ofText text none = .ok d := ofText_of_toOption (by decide +kernel)
  exact ⟨hread, wellFormed_of_ofInput hread⟩

end Syntactic
end ProtoSchema
