import ProtoSchema.Proofs.Document.Unplaced
import ProtoSchema.Proofs.Printing.Spelling
import ProtoSchema.Proofs.Syntactic.Grammar

/-!
# ProtoSchema.Proofs.Printing.Statements

Printed statements. The line of a well-formed statement spells lexemes from which the syntactic
grammar derives the statement again, wherever the lexemes stand (`Declares`).
-/

namespace ProtoSchema
namespace Printing

open Text Printer Syntactic

variable {α β : Type}

/-- Whatever tokens have the lexemes `ls`, they declare `x` by `R`, up to what `forget` forgets. -/
def Declares (R : List Token → α → Prop) (forget : α → β) (ls : List Lexeme) (x : α) : Prop :=
  ∀ ts, ts.map Token.lexeme = ls → ∃ y, R ts y ∧ forget y = forget x

theorem map_lexeme_eq_cons {ts : List Token} {l : Lexeme} {ls : List Lexeme} :
    ts.map Token.lexeme = l :: ls ↔ ∃ p us, ts = ⟨l, p⟩ :: us ∧ us.map Token.lexeme = ls := by
  constructor
  · intro h
    obtain ⟨⟨l', p⟩, us, rfl, rfl, rfl⟩ := List.map_eq_cons_iff.1 h
    exact ⟨p, us, rfl, rfl⟩
  · rintro ⟨p, us, rfl, rfl⟩
    rfl

/-! ## Single lexemes -/

theorem opens_name {n : String} (h : IsIdentifier n) : ∃ l, Opens n [l] ∧ IsName l n := by
  by_cases hk : ∃ k : Keyword, k.word = n
  · obtain ⟨k, rfl⟩ := hk
    exact ⟨_, opens_keyword k, .keyword k⟩
  · exact ⟨_, opens_ident ⟨h, fun k e => hk ⟨k, e⟩⟩, .ident n⟩

theorem opens_reference {ss : List String} (h : IsPath ss) :
    ∃ l, Opens (".".intercalate ss) [l] ∧ IsReference l ss := by
  rcases h with ⟨n, rfl, hn⟩ | hss
  · refine ⟨_, ?_, .ident n⟩
    simpa using opens_ident hn
  · exact ⟨_, opens_dotted hss, .dotted ss⟩

/-- A keyword and a space. -/
theorem spells_keyword (k : Keyword) : Spells (k.word ++ " ") [.keyword k] :=
  (opens_keyword k).marks (t := " ") (by decide) (by decide)

theorem Opens.semi {s : String} {ls : List Lexeme} (h : Opens s ls) :
    Spells (s ++ ";") (ls ++ [.punct .semi]) :=
  h.marks (by decide) (by decide)

theorem Spells.semi {s : String} {ls : List Lexeme} (h : Spells s ls) :
    Spells (s ++ ";") (ls ++ [.punct .semi]) :=
  h.opens.semi

/-! ## Options, imports and packages -/

theorem option_printed {o : OptionDecl} (h : o.WellFormed) :
    ∃ ls, Spells (optionLine o) ls ∧ Declares OptionStmt OptionDecl.unplaced ls o := by
  obtain ⟨name, value, position⟩ := o
  obtain ⟨⟨ss, hss, rfl⟩, hvalue⟩ := h
  obtain ⟨l, hl, hr⟩ := opens_reference hss
  have hfront : Spells ("option " ++ ".".intercalate ss ++ " = ")
      [.keyword .optionWord, l, .punct .equals] :=
    ((spells_keyword .optionWord).append_open hl).marks (t := " = ") (by decide) (by decide)
  have declares {v : Lexeme} (hv : IsOptionValue v value) : Declares OptionStmt OptionDecl.unplaced
      [.keyword .optionWord, l, .punct .equals, v, .punct .semi]
      ⟨".".intercalate ss, value, position⟩ := by
    intro ts hts
    simp only [map_lexeme_eq_cons, List.map_eq_nil_iff] at hts
    obtain ⟨p, _, rfl, p₁, _, rfl, p₂, _, rfl, p₃, _, rfl, p₄, _, rfl, rfl⟩ := hts
    exact ⟨_, .intro hr hv, rfl⟩
  cases value with
  | quoted s =>
    exact ⟨_, (hfront.append (spells_literal s)).semi, declares (.text s)⟩
  | bare t =>
    rcases hvalue with ⟨vs, hvs, rfl⟩ | ⟨n, rfl, hn⟩
    · obtain ⟨v, hv, hvr⟩ := opens_reference hvs
      exact ⟨_, (hfront.append_open hv).semi, declares (.reference hvr)⟩
    · exact ⟨_, (hfront.append_open (opens_number hn)).semi, declares (.number n)⟩

theorem import_printed (i : ImportDecl) :
    ∃ ls, Spells (importLine i) ls ∧ Declares ImportStmt ImportDecl.unplaced ls i := by
  obtain ⟨path, kind, position⟩ := i
  cases kind with
  | plain =>
    refine ⟨_, ((spells_keyword .importWord).append (spells_literal path)).semi, ?_⟩
    intro ts hts
    simp only [List.cons_append, List.nil_append, map_lexeme_eq_cons, List.map_eq_nil_iff] at hts
    obtain ⟨p, _, rfl, p₁, _, rfl, p₂, _, rfl, rfl⟩ := hts
    exact ⟨_, .plain, rfl⟩
  | weak =>
    refine ⟨_, (((spells_keyword .importWord).append (spells_keyword .weakWord)).append
      (spells_literal path)).semi, ?_⟩
    intro ts hts
    simp only [List.cons_append, List.nil_append, map_lexeme_eq_cons, List.map_eq_nil_iff] at hts
    obtain ⟨p, _, rfl, p₁, _, rfl, p₂, _, rfl, p₃, _, rfl, rfl⟩ := hts
    exact ⟨_, .weak, rfl⟩
  | shared =>
    refine ⟨_, (((spells_keyword .importWord).append (spells_keyword .publicWord)).append
      (spells_literal path)).semi, ?_⟩
    intro ts hts
    simp only [List.cons_append, List.nil_append, map_lexeme_eq_cons, List.map_eq_nil_iff] at hts
    obtain ⟨p, _, rfl, p₁, _, rfl, p₂, _, rfl, p₃, _, rfl, rfl⟩ := hts
    exact ⟨_, .shared, rfl⟩

theorem package_printed {ss : List String} (h : IsPath ss) :
    ∃ ls, Spells ("package " ++ ".".intercalate ss ++ ";") ls ∧ Declares PackageStmt id ls ss := by
  obtain ⟨l, hl, hr⟩ := opens_reference h
  refine ⟨_, ((spells_keyword .packageWord).append_open hl).semi, ?_⟩
  intro ts hts
  simp only [List.cons_append, List.nil_append, map_lexeme_eq_cons, List.map_eq_nil_iff] at hts
  obtain ⟨p, _, rfl, p₁, _, rfl, p₂, _, rfl, rfl⟩ := hts
  exact ⟨_, .intro hr, rfl⟩

/-! ## Fields -/

theorem type_printed {type : FieldType} (h : type.Named) :
    ∃ ls, Opens type.text ls ∧ Declares TypeOf id ls type := by
  induction type with
  | scalar s =>
    refine ⟨_, opens_keyword (.scalar s), ?_⟩
    intro ts hts
    simp only [map_lexeme_eq_cons, List.map_eq_nil_iff] at hts
    obtain ⟨p, _, rfl, rfl⟩ := hts
    exact ⟨_, .scalar, rfl⟩
  | named n =>
    refine ⟨_, opens_ident h, ?_⟩
    intro ts hts
    simp only [map_lexeme_eq_cons, List.map_eq_nil_iff] at hts
    obtain ⟨p, _, rfl, rfl⟩ := hts
    exact ⟨_, .named, rfl⟩
  | dotted ss =>
    refine ⟨_, opens_dotted h, ?_⟩
    intro ts hts
    simp only [map_lexeme_eq_cons, List.map_eq_nil_iff] at hts
    obtain ⟨p, _, rfl, rfl⟩ := hts
    exact ⟨_, .dotted, rfl⟩
  | map k v ihk ihv =>
    obtain ⟨ks, hk, hdk⟩ := ihk h.1
    obtain ⟨vs, hv, hdv⟩ := ihv h.2
    have hmap : Spells "map<" [.keyword .mapWord, .punct .langle] :=
      (opens_keyword .mapWord).marks (t := "<") (by decide) (by decide)
    have hkey : Spells ("map<" ++ k.text ++ ", ")
        (.keyword .mapWord :: .punct .langle :: ks ++ [.punct .comma]) :=
      (hmap.append_open hk).marks (by decide) (by decide)
    have hvalue : Spells ("map<" ++ k.text ++ ", " ++ v.text ++ ">")
        (.keyword .mapWord :: .punct .langle :: ks ++ [.punct .comma] ++ vs ++ [.punct .rangle]) :=
      (hkey.append_open hv).marks (by decide) (by decide)
    refine ⟨_, hvalue.opens, ?_⟩
    intro ts hts
    simp only [List.cons_append, List.append_assoc, List.nil_append, map_lexeme_eq_cons,
      List.map_eq_append_iff, List.map_eq_nil_iff] at hts
    obtain ⟨p, _, rfl, p₁, _, rfl, us, _, rfl, hus, p₂, _, rfl, ws, _, rfl, hws, p₃, _, rfl, rfl⟩ :=
      hts
    obtain ⟨_, htk, rfl⟩ := hdk us hus
    obtain ⟨_, htv, rfl⟩ := hdv ws hws
    exact ⟨_, .map htk htv, rfl⟩

/-- Few digits are needed for a number that a field may have. -/
theorem length_toString_le {n : Nat} (h : n ≤ 65535) : (toString n).length ≤ Lexer.maxDigits := by
  have := (Nat.length_repr_le_iff (n := n) (k := 5) (by decide)).2 (by omega)
  exact Nat.le_trans this (by decide)

/-- The line of a field, after whatever label. -/
theorem spells_field {label type name : String} {front ls : List Lexeme} {l : Lexeme} {n : Nat}
    (hfront : Spells label front) (ht : Opens type ls) (hl : Opens name [l]) (hn : n ≤ 65535) :
    Spells (label ++ type ++ " " ++ name ++ " = " ++ toString (n : Int) ++ ";")
      (front ++ (ls ++ [l, .punct .equals, .number n, .punct .semi])) := by
  have htype : Spells (label ++ type ++ " ") (front ++ ls ++ []) :=
    (hfront.append_open ht).marks (by decide) (by decide)
  have hname : Spells (label ++ type ++ " " ++ name ++ " = ")
      (front ++ ls ++ [] ++ [l] ++ [.punct .equals]) :=
    (htype.append_open hl).marks (by decide) (by decide)
  have hnum : Opens (toString (n : Int)) [.number n] := opens_number (length_toString_le hn)
  simpa using (hname.append_open hnum).semi

theorem field_printed {f : Field} (hn : f.Named) (hv : f.Valid) :
    ∃ ls, Spells (fieldLine f) ls ∧ Declares FieldStmt Field.unplaced ls f := by
  obtain ⟨type, name, number, repeated, position⟩ := f
  obtain ⟨htype, hname⟩ := hn
  obtain ⟨⟨hlow, hhigh⟩, _⟩ := hv
  obtain ⟨n, rfl⟩ := Int.eq_ofNat_of_zero_le (show 0 ≤ number by simp only at hlow; omega)
  obtain ⟨ls, ht, hdt⟩ := type_printed htype
  obtain ⟨l, hl, hln⟩ := opens_name hname
  have hn : n ≤ 65535 := by simp only at hhigh; omega
  have hrest (ts : List Token)
      (h : ts.map Token.lexeme = [l, .punct .equals, .number n, .punct .semi]) :
      ∃ p, FieldRest ts name n p := by
    simp only [map_lexeme_eq_cons, List.map_eq_nil_iff] at h
    obtain ⟨p, _, rfl, p₁, _, rfl, p₂, _, rfl, p₃, _, rfl, rfl⟩ := h
    exact ⟨p₂, .intro hln⟩
  cases repeated with
  | false =>
    refine ⟨_, spells_field spells_nil ht hl hn, ?_⟩
    intro ts hts
    rw [List.nil_append] at hts
    obtain ⟨us, vs, rfl, hus, hvs⟩ := List.map_eq_append_iff.1 hts
    obtain ⟨_, htus, rfl⟩ := hdt us hus
    obtain ⟨p, hr⟩ := hrest vs hvs
    obtain ⟨t, us, rfl, _⟩ := htus.head
    exact ⟨_, .single htus hr, rfl⟩
  | true =>
    refine ⟨_, spells_field (spells_keyword .repeatedWord) ht hl hn, ?_⟩
    intro ts hts
    simp only [List.cons_append, List.nil_append, map_lexeme_eq_cons] at hts
    obtain ⟨p, ts, rfl, hts⟩ := hts
    obtain ⟨us, vs, rfl, hus, hvs⟩ := List.map_eq_append_iff.1 hts
    obtain ⟨_, htus, rfl⟩ := hdt us hus
    obtain ⟨p₁, hr⟩ := hrest vs hvs
    exact ⟨_, .repeated htus hr, rfl⟩

/-! ## Methods -/

/-- The parameters of a method: the first of them and those behind it. -/
theorem params_printed {p : String} {ps : List String} (h : ∀ q ∈ p :: ps, IsPathText q) :
    ∃ l ls, Opens (", ".intercalate (p :: ps)) (l :: ls) ∧
      (∃ ss, IsReference l ss ∧ p = ".".intercalate ss) ∧ Declares MoreParams id ls ps := by
  induction ps generalizing p with
  | nil =>
    obtain ⟨ss, hss, rfl⟩ := h p (by simp)
    obtain ⟨l, hl, hr⟩ := opens_reference hss
    refine ⟨l, [], by simpa using hl, ⟨ss, hr, rfl⟩, ?_⟩
    intro ts hts
    rw [List.map_eq_nil_iff] at hts
    exact ⟨[], hts ▸ .nil, rfl⟩
  | cons q ps ih =>
    obtain ⟨hp, hq⟩ := List.forall_mem_cons.1 h
    obtain ⟨ss, hss, rfl⟩ := hp
    obtain ⟨l, hl, hr⟩ := opens_reference hss
    obtain ⟨l', ls, hls, ⟨ss', hr', rfl⟩, hmore⟩ := ih hq
    refine ⟨l, .punct .comma :: l' :: ls, ?_, ⟨ss, hr, rfl⟩, ?_⟩
    · have hcomma : Spells (".".intercalate ss ++ ", ") [l, .punct .comma] :=
        hl.marks (by decide) (by decide)
      rw [String.intercalate_cons_cons]
      exact hcomma.append_open hls
    · intro ts hts
      simp only [map_lexeme_eq_cons] at hts
      obtain ⟨x, _, rfl, x₁, us, rfl, hus⟩ := hts
      obtain ⟨_, hps, rfl⟩ := hmore us hus
      exact ⟨_, .cons hr' hps, rfl⟩

theorem Opens.returns {s : String} {ls : List Lexeme} (h : Opens s ls) :
    Spells (s ++ ") returns (") (ls ++ [.punct .rparen, .ident "returns", .punct .lparen]) := by
  have h₁ : Spells (s ++ ") ") (ls ++ [.punct .rparen]) := h.marks (by decide) (by decide)
  have h₂ : Spells (s ++ ") " ++ "returns" ++ " (")
      (ls ++ [.punct .rparen] ++ [.ident "returns"] ++ [.punct .lparen]) :=
    (h₁.append_open (opens_ident Lexical.isPlainName_returns)).marks (by decide) (by decide)
  have e : ") returns (" = ") " ++ "returns" ++ " (" := by decide
  rw [e, ← String.append_assoc, ← String.append_assoc]
  simpa using h₂

theorem rpc_printed {r : Rpc} (h : r.WellFormed) :
    ∃ ls, Spells (rpcLine r) ls ∧ Declares RpcDecl Rpc.unplaced ls r := by
  obtain ⟨name, params, returns, position⟩ := r
  obtain ⟨hname, hne, hparams, hreturns⟩ := h
  cases params with
  | nil => exact absurd rfl hne
  | cons p ps =>
    obtain ⟨l, ls, hls, ⟨ss, hr, rfl⟩, hmore⟩ := params_printed hparams
    obtain ⟨rs, hrs, rfl⟩ := hreturns
    obtain ⟨r, hret, hrr⟩ := opens_reference hrs
    have hword : Spells "rpc " [.ident "rpc"] :=
      (opens_ident Lexical.isPlainName_rpc).marks (t := " ") (by decide) (by decide)
    have hfront : Spells ("rpc " ++ name ++ " (") [.ident "rpc", .ident name, .punct .lparen] :=
      (hword.append_open (opens_ident hname)).marks (by decide) (by decide)
    have hline : Spells (rpcLine ⟨name, ".".intercalate ss :: ps, ".".intercalate rs, position⟩)
        (.ident "rpc" :: .ident name :: .punct .lparen :: l :: ls ++
          [.punct .rparen, .ident "returns", .punct .lparen] ++ [r] ++
            [.punct .rparen, .punct .semi]) :=
      ((hfront.append_open hls).returns.append_open hret).marks (by decide) (by decide)
    refine ⟨_, hline, ?_⟩
    intro ts hts
    simp only [List.cons_append, List.nil_append, List.append_assoc, map_lexeme_eq_cons,
      List.map_eq_append_iff, List.map_eq_nil_iff] at hts
    obtain ⟨p, _, rfl, p₁, _, rfl, p₂, _, rfl, p₃, _, rfl, us, _, rfl, hus, p₄, _, rfl, p₅, _, rfl,
      p₆, _, rfl, p₇, _, rfl, p₈, _, rfl, p₉, _, rfl, rfl⟩ := hts
    obtain ⟨_, hps, rfl⟩ := hmore us hus
    exact ⟨_, .intro hr hps hrr .semi, rfl⟩

end Printing
end ProtoSchema
