import ProtoSchema.Proofs.Editor.Symbol

/-!
# ProtoSchema.Proofs.Editor.Selection

What the selections of symbols cover. The name of a node is written behind its first token, and a range as
long as the name covers it from there (`DeclaredAt.covered_name`). The selection of a symbol has this
length, but it begins with the first token of the node: it covers the front of the declaration and begins
before the name does, in every declaration (`selection_before_name`).
-/

namespace ProtoSchema

open Text Syntactic
open Lexical hiding IsName

/-- The code units that a range covers in its row. -/
def Range.covered (r : Range) (cs : List Char) (e : Encoding) : List Nat :=
  ((e.code ((Text.lines cs)[r.start.line]?.getD [])).take r.stop.character).drop r.start.character

/-- A range from one of the characters covers that character and those behind it in the row. -/
theorem covered_rangeFrom (cs : List Char) (e : Encoding) (k length : Nat) :
    (rangeFrom cs e k length).covered cs e = e.code ((untilBreak (cs.drop k)).take length) := by
  have hrow : (Text.lines cs)[(rangeFrom cs e k length).start.line]? =
      some (sinceBreak (cs.take k) ++ untilBreak (cs.drop k)) := row_spotAt cs e k
  rw [Range.covered, hrow, Option.getD_some]
  simp only [rangeFrom, spotAt]
  rw [e.code_append, e.units_eq (sinceBreak _), List.take_length_add_append, List.drop_left,
    e.take_code]

/-- A name has no line feed in it. -/
theorem Syntactic.IsName.no_break {l : Lexeme} {name : String} (h : IsName l name) {x rest : List UInt8}
    (hread : Reading x rest l) : '\n' ∉ name.toList := by
  have hplain := hread.bytes_plain h.isSpelled.1 h.isSpelled.2
  rw [h.plain] at hplain
  have hword : IsWord x := by
    cases h with
    | ident => cases hread with | ident _ hword => exact hword
    | keyword => cases hread with | keyword _ hword => exact hword
  intro hmem
  have hbyte : Byte.lineFeed ∈ bytes name :=
    List.mem_flatMap.2 ⟨'\n', hmem, List.mem_cons_self⟩
  rw [hplain] at hbyte
  cases hword.wordPart _ hbyte

variable {cs : List Char} {ts : List Token} {n : Node} {name : String} {k k' : Nat}

/-- From where the name begins, a range as long as the name covers it. -/
theorem DeclaredAt.covered_name (h : DeclaredAt cs ts n name k k') (e : Encoding) :
    (rangeFrom cs e k' name.length).covered cs e = e.code name.toList := by
  obtain ⟨_, _, _, t, _, _, _, hname, hstands⟩ := h.declared
  obtain ⟨x, rest, _, hread⟩ := hstands.read
  obtain ⟨behind, hbehind⟩ := hstands.spelled
  rw [hname.plain] at hbehind
  have hbreak : ∀ c ∈ name.toList, (c != '\n') = true := by
    intro c hc
    simpa using fun hc' : c = '\n' => hname.no_break hread (hc' ▸ hc)
  rw [covered_rangeFrom, ← hbehind, untilBreak, List.takeWhile_append_of_pos hbreak,
    ← String.length_toList, List.take_left]

/-- The symbol `s` of the node `n` selects as many characters as its name has, but from the first token of
the node on, before the place where the name is written. -/
structure SelectsFront (cs : List Char) (ts : List Token) (e : Encoding) (n : Node) (s : Symbol)
    (k k' : Nat) : Prop where
  declared : DeclaredAt cs ts n s.name k k'
  start : s.selection.start = spotAt cs e k
  covers : s.selection.covered cs e = e.code ((untilBreak (cs.drop k)).take s.name.length)
  before_name : s.selection.start < spotAt cs e k'
  /-- The range that begins where the name does is the one that covers the name. -/
  name_covered : (rangeFrom cs e k' s.name.length).covered cs e = e.code s.name.toList

theorem DeclaredAt.selectsFront (h : DeclaredAt cs ts n name k k') (e : Encoding) (kind : SymbolKind)
    (children : List Symbol) :
    SelectsFront cs ts e n (.placed (Text.lines cs) e name kind n.position children) k k' := by
  have hrange : n.position.range (Text.lines cs) name.length e = rangeFrom cs e k name.length :=
    h.start.range name.length e
  obtain ⟨_, _, _, t, _, _, _, _, hstands⟩ := h.declared
  rw [Symbol.placed, hrange]
  exact {
    declared := h
    start := rfl
    covers := covered_rangeFrom cs e k name.length
    before_name := spotAt_lt h.lt (Nat.le_of_lt hstands.lt_length)
    name_covered := h.covered_name e
  }

/-- No symbol of a text selects its name where the name is declared. Each selects the front of its
declaration, in the length of the name, and begins before the name. These are the symbols that every
protocol sends, if it takes the spots in them. -/
theorem selection_before_name {text : String} {source : Option String} {d : Document}
    (h : Document.ofText text source = .ok d) :
    ∃ ps tail, Splits (Utf8.encode text.toList) ps tail ∧ ∀ e : Encoding, ∃ ss : List Symbol,
      (∀ protocol : Protocol,
        d.symbols protocol text e = protocol.send (ss.flatMap Symbol.spots) ss) ∧
      ∀ s ∈ ss.flatMap Symbol.family, ∃ n ∈ d.nodes, n.label? = some s.label ∧
        ∃ k k', SelectsFront text.toList ((placed [] ps).filter (!·.isComment)) e n s k k' := by
  obtain ⟨ps, tail, hsplits, hdeclared⟩ := declaredAt_of_ofText h
  refine ⟨ps, tail, hsplits, fun e => ?_⟩
  have hsymbols : SymbolsOf (fun n s => ∃ k k',
      SelectsFront text.toList ((placed [] ps).filter (!·.isComment)) e n s k k')
      (Text.lines text.toList) e d.nodes := by
    intro n hn name kind children hlabel
    obtain ⟨k, k', hat⟩ := hdeclared n hn name kind hlabel
    exact ⟨k, k', hat.selectsFront e kind children⟩
  obtain ⟨ss, houtlines, hsent⟩ := outlines_document hsymbols
  exact ⟨ss, hsent, fun s hs => (paired_document houtlines).exists_of_mem hs⟩

/-- A message without a body. -/
theorem ofText_user : Document.ofText "syntax = 'proto3';\nmessage User \x7b\x7d" none =
    .ok ⟨.proto3, [], [], [], [⟨"User", [], [], [], ⟨2, 1⟩⟩], [], none⟩ :=
  ofText_of_toOption (by decide +kernel)

theorem selection_before_name_user :
    let text := "syntax = 'proto3';\nmessage User \x7b\x7d"
    let d : Document := ⟨.proto3, [], [], [], [⟨"User", [], [], [], ⟨2, 1⟩⟩], [], none⟩
    Document.ofText text none = .ok d ∧
      ∃ ps tail, Splits (Utf8.encode text.toList) ps tail ∧ ∀ e : Encoding, ∃ ss : List Symbol,
        (∀ protocol : Protocol,
          d.symbols protocol text e = protocol.send (ss.flatMap Symbol.spots) ss) ∧
        ∀ s ∈ ss.flatMap Symbol.family, ∃ n ∈ d.nodes, n.label? = some s.label ∧
          ∃ k k', SelectsFront text.toList ((placed [] ps).filter (!·.isComment)) e n s k k' :=
  ⟨ofText_user, selection_before_name ofText_user⟩

/-- Of `message User`, the characters `mess` are selected: selections do not cover the names of symbols. -/
theorem selection_not_name :
    ¬ ∀ (text : String) (d : Document), Document.ofText text none = .ok d →
      ∀ (e : Encoding) (ss : List Symbol), d.symbols (.upTo 2147483647) text e = .ok ss →
        ∀ s ∈ ss.flatMap Symbol.family, s.selection.covered text.toList e = e.code s.name.toList := by
  intro h
  have huser := h _ _ ofText_user .utf16 _ rfl _ List.mem_cons_self
  revert huser
  decide

end ProtoSchema
