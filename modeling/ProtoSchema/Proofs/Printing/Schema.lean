import ProtoSchema.Proofs.Printing.Statements
import ProtoSchema.Proofs.Syntactic.Schema

/-!
# ProtoSchema.Proofs.Printing.Schema

Printed documents are read back. The lines of a block spell the lexemes of its statements one after
another (`Each`), whatever the indentation; a printed message is read back by induction on how deep
messages nest in it, and a printed document section by section.
-/

namespace ProtoSchema
namespace Printing

open Text Printer Syntactic ProtoSchema.Parser

/-! ## Statements one after another -/

section Sequences

variable {α β γ : Type} {R : List Token → α → Prop}

/-- Tokens that fall into parts, which declare the members of a list one after another. -/
inductive Each (R : List Token → α → Prop) : List Token → List α → Prop where
  | nil : Each R [] []
  | cons {us vs : List Token} {x : α} {xs : List α} :
      R us x → Each R vs xs → Each R (us ++ vs) (x :: xs)

/-- Statements stand before whatever each of them can stand before; `add` says what they declare
there. -/
theorem Each.extend (T : List Token → γ → Prop) (add : List α → γ → γ)
    (hnil : ∀ b, add [] b = b) (hcons : ∀ x xs b, add (x :: xs) b = add [x] (add xs b))
    (h : ∀ {us vs : List Token} {x : α} {b : γ}, R us x → T vs b → T (us ++ vs) (add [x] b))
    {us vs : List Token} {xs : List α} {b : γ} (hx : Each R us xs) (hb : T vs b) :
    T (us ++ vs) (add xs b) := by
  induction hx with
  | nil =>
    rw [hnil]
    exact hb
  | cons hr _ ih =>
    rw [hcons, List.append_assoc]
    exact h hr ih

theorem each_printed {forget : α → β} {lines : α → List String} {xs : List α}
    (h : ∀ x ∈ xs, ∃ ls, SpellsAll (lines x) ls ∧ Declares R forget ls x) :
    ∃ ls, SpellsAll (xs.flatMap lines) ls ∧ Declares (Each R) (List.map forget) ls xs := by
  induction xs with
  | nil =>
    refine ⟨[], .nil, ?_⟩
    intro ts hts
    rw [List.map_eq_nil_iff] at hts
    exact ⟨[], hts ▸ .nil, rfl⟩
  | cons x xs ih =>
    obtain ⟨hx, hxs⟩ := List.forall_mem_cons.1 h
    obtain ⟨ls, hs, hd⟩ := hx
    obtain ⟨ls', hs', hd'⟩ := ih hxs
    refine ⟨ls ++ ls', ?_, ?_⟩
    · rw [List.flatMap_cons]
      exact hs.append hs'
    · intro ts hts
      obtain ⟨us, vs, rfl, hus, hvs⟩ := List.map_eq_append_iff.1 hts
      obtain ⟨y, hy, ey⟩ := hd us hus
      obtain ⟨ys, hys, eys⟩ := hd' vs hvs
      exact ⟨y :: ys, .cons hy hys, by rw [List.map_cons, List.map_cons, ey, eys]⟩

/-- The same for statements of one line. -/
theorem lines_printed {forget : α → β} {line : α → String} {xs : List α}
    (h : ∀ x ∈ xs, ∃ ls, Spells (line x) ls ∧ Declares R forget ls x) :
    ∃ ls, SpellsAll (xs.map line) ls ∧ Declares (Each R) (List.map forget) ls xs := by
  rw [List.map_eq_flatMap]
  refine each_printed fun x hx => ?_
  obtain ⟨ls, hs, hd⟩ := h x hx
  refine ⟨ls, ?_, hd⟩
  simpa using SpellsAll.cons hs .nil

end Sequences

theorem marks_spaces (n : Nat) : marks? (List.replicate n 0x20) = some [] := by
  induction n with
  | zero => rfl
  | succ n ih =>
    rw [List.replicate_succ, marks?, if_pos (by decide)]
    exact ih

theorem spells_indent (level : Nat) {s : String} {ls : List Lexeme} (h : Spells s ls) :
    Spells (indent level ++ s) ls := by
  have hb : bytes (indent level) = List.replicate (4 * level) 0x20 := by
    rw [indent, bytes_ofList, Lexical.encode_ascii, List.map_replicate]
    · rfl
    · intro c hc
      rw [(List.mem_replicate.1 hc).2]
      decide
  have : Spells (indent level) [] := spells_marks (by rw [hb]; exact marks_spaces _)
  exact this.append h

/-- Lines that are indented. -/
theorem indented_printed {α β : Type} {R : List Token → α → Prop} {forget : α → β}
    {line : α → String} {xs : List α} (level : Nat)
    (h : ∀ x ∈ xs, ∃ ls, Spells (line x) ls ∧ Declares R forget ls x) :
    ∃ ls, SpellsAll (xs.map (indent level ++ line ·)) ls ∧
      Declares (Each R) (List.map forget) ls xs := by
  refine lines_printed fun x hx => ?_
  obtain ⟨ls, hs, hd⟩ := h x hx
  exact ⟨ls, spells_indent level hs, hd⟩

/-! ## Messages -/

theorem nestedLines_eq (level : Nat) (ms : List Message) :
    nestedLines level ms = ms.flatMap (messageLines level) := by
  induction ms with
  | nil => rfl
  | cons m ms ih => rw [nestedLines, ih, List.flatMap_cons]

/-- The items of a message, sorted by what they are. -/
theorem items_of_each {us vs ws : List Token} {os : List OptionDecl} {ms : List Message}
    {fs : List Field} (ho : Each OptionStmt us os) (hm : Each MessageDecl vs ms)
    (hf : Each FieldStmt ws fs) : Items (us ++ (vs ++ ws)) ⟨fs, ms, os⟩ := by
  have hfields := hf.extend Items (fun fs b => { b with fields := fs ++ b.fields })
    (fun _ => rfl) (fun _ _ _ => rfl) .field .nil
  have hnested := hm.extend Items (fun ms b => { b with nested := ms ++ b.nested })
    (fun _ => rfl) (fun _ _ _ => rfl) .nest hfields
  have hoptions := ho.extend Items (fun os b => { b with options := os ++ b.options })
    (fun _ => rfl) (fun _ _ _ => rfl) .option hnested
  simpa [MessageBody.empty] using hoptions

theorem message_printed {m : Message} (h : m.Everywhere Message.WellFormed) (level : Nat) :
    ∃ ls, SpellsAll (messageLines level m) ls ∧ Declares MessageDecl Message.unplaced ls m := by
  induction h generalizing level with
  | @intro m hm _ ih =>
    obtain ⟨os, hos, hdo⟩ := indented_printed (level + 1) fun o ho => option_printed (hm.options o ho)
    obtain ⟨ms, hms, hdm⟩ := each_printed fun c hc => ih c hc (level + 1)
    obtain ⟨fs, hfs, hdf⟩ := indented_printed (level + 1) fun f hf =>
      field_printed (hm.fields_named f hf) (hm.fields f hf)
    obtain ⟨name, fields, nested, options, position⟩ := m
    have hopen : Spells (indent level ++ "message " ++ name ++ " \x7b")
        [.keyword .messageWord, .ident name, .punct .lbrace] :=
      ((spells_indent level (spells_keyword .messageWord)).append_open (opens_ident hm.name)).marks
        (by decide) (by decide)
    have hclose : Spells "\x7d" [.punct .rbrace] := spells_marks (by decide)
    have hlines : SpellsAll (messageLines level ⟨name, fields, nested, options, position⟩)
        ([.keyword .messageWord, .ident name, .punct .lbrace] ++
          (os ++ ms ++ fs ++ ([.punct .rbrace] ++ []))) := by
      rw [messageLines, nestedLines_eq]
      exact .cons hopen
        (((hos.append hms).append hfs).append (.cons (spells_indent level hclose) .nil))
    refine ⟨_, hlines, ?_⟩
    intro ts hts
    simp only [List.cons_append, List.nil_append, List.append_assoc, map_lexeme_eq_cons,
      List.map_eq_append_iff, List.append_nil, List.map_eq_nil_iff] at hts
    obtain ⟨p, _, rfl, p₁, _, rfl, p₂, _, rfl, us, _, rfl, hus, vs, _, rfl, hvs, ws, _, rfl, hws,
      p₃, _, rfl, rfl⟩ := hts
    obtain ⟨os', ho, eo⟩ := hdo us hus
    obtain ⟨ms', hm, em⟩ := hdm vs hvs
    obtain ⟨fs', hf, ef⟩ := hdf ws hws
    have := @MessageDecl.intro _ name _ p p₁ p₂ p₃ (items_of_each ho hm hf)
    rw [List.append_assoc, List.append_assoc] at this
    refine ⟨_, this, ?_⟩
    rw [Message.unplaced_eq, Message.unplaced_eq, eo, em, ef]

/-! ## Services -/

theorem serviceItems_of_each {us vs : List Token} {os : List OptionDecl} {rs : List Rpc}
    (ho : Each OptionStmt us os) (hr : Each RpcDecl vs rs) : ServiceItems (us ++ vs) ⟨rs, os⟩ := by
  have hrpcs := hr.extend ServiceItems (fun rs b => { b with rpcs := rs ++ b.rpcs })
    (fun _ => rfl) (fun _ _ _ => rfl) .rpc .nil
  have hoptions := ho.extend ServiceItems (fun os b => { b with options := os ++ b.options })
    (fun _ => rfl) (fun _ _ _ => rfl) .option hrpcs
  simpa [ServiceBody.empty] using hoptions

theorem service_printed {s : Service} (h : s.WellFormed) :
    ∃ ls, SpellsAll (serviceLines s) ls ∧ Declares ServiceDecl Service.unplaced ls s := by
  obtain ⟨os, hos, hdo⟩ := indented_printed 1 fun o ho => option_printed (h.options o ho)
  obtain ⟨rs, hrs, hdr⟩ := indented_printed 1 fun r hr => rpc_printed (h.rpcs r hr)
  obtain ⟨name, rpcs, options, position⟩ := s
  have hopen : Spells ("service " ++ name ++ " \x7b")
      [.keyword .serviceWord, .ident name, .punct .lbrace] :=
    ((spells_keyword .serviceWord).append_open (opens_ident h.name)).marks (by decide) (by decide)
  have hclose : Spells "\x7d" [.punct .rbrace] := spells_marks (by decide)
  refine ⟨_, .cons hopen ((hos.append hrs).append (.cons hclose .nil)), ?_⟩
  intro ts hts
  simp only [List.cons_append, List.nil_append, List.append_assoc, map_lexeme_eq_cons,
    List.map_eq_append_iff, List.append_nil, List.map_eq_nil_iff] at hts
  obtain ⟨p, _, rfl, p₁, _, rfl, p₂, _, rfl, us, _, rfl, hus, vs, _, rfl, hvs, p₃, _, rfl, rfl⟩ :=
    hts
  obtain ⟨os', ho, eo⟩ := hdo us hus
  obtain ⟨rs', hr, er⟩ := hdr vs hvs
  have := @ServiceDecl.intro _ name _ p p₁ p₂ p₃ (serviceItems_of_each ho hr)
  rw [List.append_assoc] at this
  refine ⟨_, this, ?_⟩
  rw [Service.unplaced, Service.unplaced, eo, er]

/-! ## Documents -/

/-- The statements of a schema behind its package, sorted by what they are. -/
theorem statements_of_each {us vs ws xs : List Token} {is : List ImportDecl}
    {os : List OptionDecl} {ms : List Message} {ss : List Service} (hi : Each ImportStmt us is)
    (ho : Each OptionStmt vs os) (hm : Each MessageDecl ws ms) (hs : Each ServiceDecl xs ss) :
    Statements (us ++ (vs ++ (ws ++ xs))) ⟨none, is, os, ms, ss⟩ := by
  have hservices := hs.extend Statements (fun ss b => { b with services := ss ++ b.services })
    (fun _ => rfl) (fun _ _ _ => rfl) .service .nil
  have hmessages := hm.extend Statements (fun ms b => { b with messages := ms ++ b.messages })
    (fun _ => rfl) (fun _ _ _ => rfl) .message hservices
  have hoptions := ho.extend Statements (fun os b => { b with options := os ++ b.options })
    (fun _ => rfl) (fun _ _ _ => rfl) .option hmessages
  have himports := hi.extend Statements (fun is b => { b with imports := is ++ b.imports })
    (fun _ => rfl) (fun _ _ _ => rfl) .importDecl hoptions
  simpa [Body.empty] using himports

/-- A section spells what its lines spell, also if there are none. -/
theorem spellsAll_section {lines : List String} {ls : List Lexeme} (h : SpellsAll lines ls) :
    SpellsAll ((unlessEmpty lines).map "\n".intercalate) ls := by
  cases h with
  | nil => exact .nil
  | cons hs hss =>
    have := SpellsAll.cons ((SpellsAll.cons hs hss).intercalate "\n" (by decide)) .nil
    rwa [List.append_nil] at this

/-- Blocks that are sections of their own. -/
theorem sections_printed {α β : Type} {R : List Token → α → Prop} {forget : α → β}
    {lines : α → List String} {xs : List α}
    (h : ∀ x ∈ xs, ∃ ls, SpellsAll (lines x) ls ∧ Declares R forget ls x) :
    ∃ ls, SpellsAll ((xs.map lines).map "\n".intercalate) ls ∧
      Declares (Each R) (List.map forget) ls xs := by
  rw [List.map_map]
  refine lines_printed fun x hx => ?_
  obtain ⟨ls, hs, hd⟩ := h x hx
  exact ⟨ls, hs.intercalate "\n" (by decide), hd⟩

/-- A package statement, or nothing for the empty package. -/
def PackageSection (ts : List Token) (ss : List String) : Prop :=
  (ts = [] ∧ ss = []) ∨ PackageStmt ts ss

theorem packageSection_printed {ss : List String} (h : ss = [] ∨ IsPath ss) :
    ∃ ls, SpellsAll
      ((unlessEmpty (if ss.isEmpty then [] else ["package " ++ ".".intercalate ss ++ ";"])).map
        "\n".intercalate) ls ∧ Declares PackageSection id ls ss := by
  by_cases hss : ss = []
  · subst hss
    refine ⟨[], .nil, ?_⟩
    intro ts hts
    rw [List.map_eq_nil_iff] at hts
    exact ⟨[], .inl ⟨hts, rfl⟩, rfl⟩
  · obtain ⟨ls, hs, hd⟩ := package_printed (h.resolve_left hss)
    refine ⟨ls, ?_, ?_⟩
    · rw [if_neg (by simpa using hss)]
      have := spellsAll_section (.cons hs .nil)
      rwa [List.append_nil] at this
    · intro ts hts
      obtain ⟨ps, hp, e⟩ := hd ts hts
      exact ⟨ps, .inr hp, e⟩

theorem Statements.behind_package {us vs : List Token} {ss : List String} {is : List ImportDecl}
    {os : List OptionDecl} {ms : List Message} {rs : List Service} (h : PackageSection us ss)
    (hs : Statements vs ⟨none, is, os, ms, rs⟩) :
    ∃ o : Option (List String), o.getD [] = ss ∧ Statements (us ++ vs) ⟨o, is, os, ms, rs⟩ := by
  rcases h with ⟨rfl, rfl⟩ | hp
  · exact ⟨none, rfl, hs⟩
  · exact ⟨some ss, rfl, .package hp hs rfl⟩

theorem document_printed {d : Document} (h : d.WellFormed) (source : Option String) :
    ∃ ls, Spells d.print ls ∧
      Declares (Derives source) Document.unplaced ls { d with source := source } := by
  obtain ⟨ps, hps, hdp⟩ := packageSection_printed h.package
  obtain ⟨is, his, hdi⟩ := lines_printed fun i (_ : i ∈ d.imports) => import_printed i
  obtain ⟨os, hos, hdo⟩ := lines_printed fun o ho => option_printed (h.options o ho)
  obtain ⟨ms, hms, hdm⟩ := sections_printed fun m hm => message_printed (h.messages m hm) 0
  obtain ⟨ss, hss, hds⟩ := sections_printed fun s hs => service_printed (h.services s hs)
  have hword : Spells "syntax = " [.keyword .syntaxWord, .punct .equals] :=
    (opens_keyword .syntaxWord).marks (t := " = ") (by decide) (by decide)
  have hfirst : Spells ("syntax = " ++ literal d.dialect.word ++ ";")
      [.keyword .syntaxWord, .punct .equals, .text d.dialect.word, .punct .semi] :=
    (hword.append (spells_literal d.dialect.word)).semi
  have hsections : SpellsAll ((sections d).map "\n".intercalate)
      ([.keyword .syntaxWord, .punct .equals, .text d.dialect.word, .punct .semi] ++
        (ps ++ is ++ os ++ ms ++ ss)) := by
    rw [sections, List.map_cons, List.map_append, List.map_append, List.map_append, List.map_append,
      String.intercalate_singleton]
    exact .cons hfirst ((((hps.append (spellsAll_section his)).append (spellsAll_section hos)).append
      hms).append hss)
  have hend : Spells "\n" [] := spells_marks (by decide)
  have hprint : Spells d.print _ := (hsections.intercalate "\n\n" (by decide)).append hend
  refine ⟨_, hprint, ?_⟩
  intro ts hts
  simp only [List.cons_append, List.nil_append, List.append_assoc, map_lexeme_eq_cons,
    List.map_eq_append_iff, List.append_nil] at hts
  obtain ⟨p, _, rfl, p₁, _, rfl, p₂, _, rfl, p₃, _, rfl, us, _, rfl, hus, vs, _, rfl, hvs, ws, _,
    rfl, hws, xs, ys, rfl, hxs, hys⟩ := hts
  obtain ⟨_, hpack, rfl⟩ := hdp us hus
  obtain ⟨is', hi, ei⟩ := hdi vs hvs
  obtain ⟨os', ho, eo⟩ := hdo ws hws
  obtain ⟨ms', hm, em⟩ := hdm xs hxs
  obtain ⟨ss', hs, es⟩ := hds ys hys
  obtain ⟨package, hpackage, hstatements⟩ :=
    Statements.behind_package hpack (statements_of_each hi ho hm hs)
  refine ⟨_, .intro hstatements, ?_⟩
  simp only [Document.unplaced, hpackage, id_eq, ei, eo, em, es]

/-! ## Reading back -/

theorem map_lexeme_placed (front : List UInt8) (ps : List Lexical.Piece) :
    (Lexical.placed front ps).map Token.lexeme = ps.map Lexical.Piece.lexeme := by
  induction ps generalizing front with
  | nil => rfl
  | cons p ps ih => rw [Lexical.placed, List.map_cons, List.map_cons, ih]

/-- The tokens that are read from bytes that fall into lexemes. -/
theorem Lexes.yields {bs : List UInt8} {ls : List Lexeme} (h : Lexes bs ls) :
    ∃ ts s', Scan.Yields token? (Bytes.ofList bs) ts s' ∧ ts.map Token.lexeme = ls := by
  obtain ⟨ps, tail, hs, rfl, hq⟩ := h.splits
  have hlex := map_lexeme_placed [] ps
  have y := Lexical.yields_next_complete hs (fun q hmem => (hq q hmem).1) []
  have hcomment : ∀ t ∈ Lexical.placed [] ps, (!t.isComment) = true := by
    intro t ht
    have : t.lexeme ∈ ps.map Lexical.Piece.lexeme := hlex ▸ List.mem_map_of_mem ht
    obtain ⟨q, hmem, e⟩ := List.mem_map.1 this
    have := (hq q hmem).2
    rw [e] at this
    simpa [Token.isComment] using this
  have y' := y.first (q := (!·.isComment)) Lexer.progresses_next
  rw [List.filter_eq_self.2 hcomment] at y'
  exact ⟨_, _, y', hlex⟩

theorem ofText_of_spells {s : String} {ls : List Lexeme} (hs : Spells s ls)
    {source : Option String} {d : Document} (hd : Declares (Derives source) Document.unplaced ls d)
    (hv : d.Valid) : ∃ d', Document.ofText s source = .ok d' ∧ d'.unplaced = d.unplaced := by
  have hlexes := hs [] [] .nil
  rw [List.append_nil, List.append_nil] at hlexes
  obtain ⟨ts, s', y, hts⟩ := hlexes.yields
  obtain ⟨d', hderives, e⟩ := hd ts hts
  have hv' : d'.Valid := by
    rw [← Document.valid_unplaced, e, Document.valid_unplaced]
    exact hv
  exact ⟨d', ofInput_iff_derives.2 ⟨ts, s', y, hderives, hv'⟩, e⟩

/-- A well-formed document is read back from its text, with other places and with the name of the
source that it is read from. -/
theorem ofText_print {d : Document} (h : d.WellFormed) (source : Option String) :
    ∃ d', Document.ofText d.print source = .ok d' ∧
      d'.unplaced = { d.unplaced with source := source } := by
  obtain ⟨ls, hs, hd⟩ := document_printed h source
  exact ofText_of_spells hs hd h.valid

/-- A document with a keyword in the name of its package and as the name of a field, and with a path
that is made of marks and a line end. -/
def sample : Document where
  dialect := .proto2
  package := ["a", "map"]
  imports := [⟨"\x22\x5c\x0a;", .weak, .first⟩]
  options := []
  messages := [⟨"M",
    [⟨.map (.scalar .string) (.dotted ["M", "N"]), "message", 65535, true, .first⟩],
    [⟨"N", [], [], [], .first⟩], [], .first⟩]
  services := []
  source := none

theorem sample_wellFormed : sample.WellFormed := by
  have dotted {s t : String} (hs : IsIdentifier s) (ht : IsIdentifier t) : IsDotted [s, t] :=
    ⟨Nat.le_refl 2, by simpa using ⟨hs, ht⟩⟩
  have hm : IsIdentifier "M" := Lexical.isIdentifier_of_all (by decide)
  have hn : IsIdentifier "N" := Lexical.isIdentifier_of_all (by decide)
  have hinner : Message.Everywhere Message.WellFormed ⟨"N", [], [], [], .first⟩ := by
    refine .intro ⟨⟨⟨hn, Lexical.ofWord?_eq_none_iff.1 (by decide)⟩, ?_, ?_⟩, ?_, ?_, ?_⟩ ?_ <;> simp
  refine ⟨.inr (.inr (dotted (Lexical.isIdentifier_of_all (by decide)) (Lexical.isIdentifier_of_all (by decide)))),
    by simp [sample], ?_, by simp [sample]⟩
  intro m hmem
  obtain rfl := List.mem_singleton.1 hmem
  refine .intro ⟨⟨⟨hm, Lexical.ofWord?_eq_none_iff.1 (by decide)⟩, ?_, by simp⟩, ?_, ?_, ?_⟩ ?_
  · simpa using ⟨⟨trivial, dotted hm hn⟩, Lexical.isIdentifier_of_all (by decide)⟩
  · simpa using ⟨by simp, by simp [FieldType.KeysValid]⟩
  · simp
  · simp
  · simpa using hinner

theorem ofText_print_sample :
    ∃ d', Document.ofText sample.print none = .ok d' ∧ d'.unplaced = sample :=
  ofText_print sample_wellFormed none

end Printing
end ProtoSchema
