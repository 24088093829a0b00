import Mathlib.Data.List.Forall2
import ProtoSchema.Editor.Symbol
import ProtoSchema.Proofs.Editor.Spot
import ProtoSchema.Proofs.Syntactic.Nodes

/-!
# ProtoSchema.Proofs.Editor.Symbol

The outline of a document beside its tree of nodes. `Outlines` pairs a symbol with the node that it shows
and its children with nodes inside that one, in order; `Paired` counts them, one symbol for each message,
field, service and method. What holds of the symbol of every single node holds in the whole outline, and
the outline is sent with the ends of all ranges in it, children first (`outlines_document`). `DeclaredAt`
says where a node and its name begin in the text, from which `symbols_outline` gets the places of all symbols.
-/

namespace ProtoSchema

open Text Syntactic
open Lexical hiding IsName

/-! ## Nodes with symbols -/

namespace Node

/-- The name and the kind of the symbol of a node. Imports and options have no symbol. -/
def label? : Node → Option (String × SymbolKind)
  | message m => some (m.name, .message)
  | field f => some (f.name, .field)
  | service s => some (s.name, .service)
  | rpc r => some (r.name, .method)
  | importDecl _ | option _ => none

/-- The nodes inside a node whose symbols are the children of its symbol, in their order: nested messages
before fields. -/
def shownInside : Node → List Node
  | message m => m.nested.map .message ++ m.fields.map .field
  | service s => s.rpcs.map .rpc
  | _ => []

/-- The name in a declaration, of which `own` are the tokens behind the first: the first of these, and for
a field the fourth from the end. -/
def nameToken? (n : Node) (own : List Token) : Option Token :=
  match n with
  | field _ => own.reverse[3]?
  | _ => own.head?

theorem opening_isSpelled (n : Node) : n.opening.IsSpelled := by
  cases n with
  | field f =>
    rw [opening]
    split
    · exact ⟨nofun, nofun⟩
    · cases f.type <;> exact ⟨nofun, nofun⟩
  | _ => exact ⟨nofun, nofun⟩

theorem mem_lists_of_shownInside {n c : Node} (h : c ∈ n.shownInside) : ∃ l ∈ n.lists, c ∈ l := by
  cases n with
  | message m =>
    rcases List.mem_append.1 h with h | h
    · exact ⟨_, by simp [lists], h⟩
    · exact ⟨_, by simp [lists], h⟩
  | service s => exact ⟨s.rpcs.map .rpc, by simp [lists], h⟩
  | _ => cases h

theorem family_subset_nodesOf {ls : List (List Node)} {l : List Node} {c : Node} (hl : l ∈ ls)
    (hc : c ∈ l) : c.family ⊆ nodesOf ls :=
  fun _ hn => List.mem_flatMap.2 ⟨c, List.mem_flatten.2 ⟨l, hl, hc⟩, hn⟩

theorem family_subset_of_shownInside {n c : Node} (h : c ∈ n.shownInside) : c.family ⊆ n.family := by
  obtain ⟨l, hl, hc⟩ := mem_lists_of_shownInside h
  have hsub := family_subset_nodesOf hl hc
  rw [← n.inside_eq] at hsub
  exact fun _ hx => List.mem_cons_of_mem _ (hsub hx)

/-- The nodes of a list that have symbols. -/
def labelled (ns : List Node) : List Node := ns.filter (·.label?.isSome)

theorem labelled_append (ns ms : List Node) : labelled (ns ++ ms) = labelled ns ++ labelled ms :=
  List.filter_append ..

theorem labelled_options (os : List OptionDecl) :
    labelled ((os.map Node.option).flatMap family) = [] := by
  simp [labelled, List.filter_flatMap, family, inside, label?]

theorem labelled_imports (is : List ImportDecl) :
    labelled ((is.map Node.importDecl).flatMap family) = [] := by
  simp [labelled, List.filter_flatMap, family, inside, label?]

/-- The nodes with symbols inside a node are among those that its symbol shows, at every depth. -/
theorem labelled_inside (n : Node) :
    (labelled (n.shownInside.flatMap family)).Perm (labelled n.inside) := by
  rw [inside_eq]
  cases n with
  | message m =>
    simp only [nodesOf, lists, shownInside, List.flatten_cons, List.flatten_nil, List.append_nil,
      List.flatMap_append, labelled_append, labelled_options, List.nil_append]
    exact List.perm_append_comm
  | service s =>
    simp only [nodesOf, lists, shownInside, List.flatten_cons, List.flatten_nil, List.append_nil,
      List.flatMap_append, labelled_append, labelled_options, List.nil_append]
    exact .refl _
  | _ => exact .refl _

end Node

/-- The nodes of a document whose symbols have no parent, in their order: messages before services. -/
def Document.shown (d : Document) : List Node :=
  d.messages.map .message ++ d.services.map .service

theorem Document.labelled_nodes (d : Document) :
    Node.labelled (d.shown.flatMap Node.family) = Node.labelled d.nodes := by
  simp only [nodes, nodesOf, lists, shown, List.flatten_cons, List.flatten_nil, List.append_nil,
    List.flatMap_append, Node.labelled_append, Node.labelled_options, Node.labelled_imports,
    List.nil_append]

/-- The first token of a declaration is followed by its name. -/
theorem Syntactic.Declares.nameToken {t₀ : Token} {own : List Token} {n : Node} {name : String}
    {kind : SymbolKind} (h : Declares (t₀ :: own) n) (hn : n.label? = some (name, kind)) :
    ∃ t ∈ own, n.nameToken? own = some t ∧ IsName t.lexeme name := by
  cases n with
  | importDecl | option => cases hn
  | message m =>
    cases hn
    cases h
    exact ⟨_, List.mem_cons_self, rfl, .ident _⟩
  | service s =>
    cases hn
    cases h
    exact ⟨_, List.mem_cons_self, rfl, .ident _⟩
  | rpc r =>
    cases hn
    cases h
    exact ⟨_, List.mem_cons_self, rfl, .ident _⟩
  | field f =>
    cases hn
    -- behind the type come the name, `=`, the number and the semicolon
    have rest {us vs : List Token} {name : String} {k : Nat} {p : Position}
        (h : FieldRest vs name k p) :
        ∃ t ∈ us ++ vs, (Node.field f).nameToken? (us ++ vs) = some t ∧ IsName t.lexeme name := by
      cases h with
      | intro hname =>
        exact ⟨_, List.mem_append_right _ List.mem_cons_self, by simp [Node.nameToken?], hname⟩
    cases h with
    | single _ h => exact rest h
    | repeated _ h => exact rest h

theorem Syntactic.IsName.plain {l : Lexeme} {name : String} (h : IsName l name) : l.plain = name := by
  cases h <;> rfl

theorem Syntactic.IsName.isSpelled {l : Lexeme} {name : String} (h : IsName l name) : l.IsSpelled := by
  cases h <;> exact ⟨nofun, nofun⟩

/-! ## Symbols -/

namespace Symbol

mutual

/-- A symbol and the symbols below it, at every depth. -/
def family : Symbol → List Symbol
  | ⟨name, kind, range, selection, children⟩ =>
    ⟨name, kind, range, selection, children⟩ :: families children

def families : List Symbol → List Symbol
  | [] => []
  | s :: ss => s.family ++ families ss

end

def label (s : Symbol) : String × SymbolKind := (s.name, s.kind)

theorem families_eq (ss : List Symbol) : families ss = ss.flatMap family := by
  induction ss with
  | nil => rfl
  | cons s ss ih => rw [families, ih, List.flatMap_cons]

theorem family_eq (s : Symbol) : s.family = s :: s.children.flatMap family := by
  cases s
  rw [family, families_eq]

theorem induction {motive : Symbol → Prop} (h : ∀ s, (∀ c ∈ s.children, motive c) → motive s)
    (s : Symbol) : motive s :=
  h s fun c _ => induction h c
termination_by sizeOf s
decreasing_by
  cases s with
  | mk name kind range selection children =>
    have := List.sizeOf_lt_of_mem ‹c ∈ _›
    simp only [mk.sizeOf_spec] at this ⊢
    omega

mutual

/-- The ends of the ranges of a symbol and of those below it, in the order in which they are sent. -/
def spots : Symbol → List Spot
  | ⟨_, _, range, _, children⟩ => allSpots children ++ [range.start, range.stop]

def allSpots : List Symbol → List Spot
  | [] => []
  | s :: ss => s.spots ++ allSpots ss

end

theorem allSpots_eq (ss : List Symbol) : allSpots ss = ss.flatMap spots := by
  induction ss with
  | nil => rfl
  | cons s ss ih => rw [allSpots, ih, List.flatMap_cons]

theorem spots_eq (s : Symbol) :
    s.spots = s.children.flatMap spots ++ [s.range.start, s.range.stop] := by
  cases s
  rw [spots, allSpots_eq]

theorem spots_fit_iff {limit : Nat} (s : Symbol) :
    (∀ t ∈ s.spots, t.Fits limit) ↔ ∀ c ∈ s.family, c.range.Fits limit := by
  induction s using induction with
  | h s ih =>
    have hbelow : (∀ t ∈ s.children.flatMap spots, t.Fits limit) ↔
        ∀ c ∈ s.children.flatMap family, c.range.Fits limit := by
      rw [List.forall_mem_flatMap, List.forall_mem_flatMap]
      exact forall₂_congr ih
    rw [spots_eq, family_eq, List.forall_mem_append, List.forall_mem_cons, hbelow, and_comm]
    simp [Range.Fits]

theorem all_spots_fit_iff {limit : Nat} (ss : List Symbol) :
    (∀ t ∈ ss.flatMap spots, t.Fits limit) ↔ ∀ c ∈ ss.flatMap family, c.range.Fits limit := by
  rw [List.forall_mem_flatMap, List.forall_mem_flatMap]
  exact forall₂_congr fun s _ => s.spots_fit_iff

/-- The symbol of a declaration at a place, before it is sent. -/
def placed (lines : List (List Char)) (e : Encoding) (name : String) (kind : SymbolKind) (p : Position)
    (children : List Symbol) : Symbol :=
  ⟨name, kind, p.range lines name.length e, p.range lines name.length e, children⟩

theorem spots_placed (lines : List (List Char)) (e : Encoding) (name : String) (kind : SymbolKind)
    (p : Position) (children : List Symbol) :
    (placed lines e name kind p children).spots = children.flatMap spots ++
      [(p.range lines name.length e).start, (p.range lines name.length e).stop] :=
  spots_eq _

theorem at_eq (protocol : Protocol) (lines : List (List Char)) (e : Encoding) (name : String)
    (kind : SymbolKind) (p : Position) (children : List Symbol) :
    Symbol.at protocol lines e name kind p children =
      protocol.send [(p.range lines name.length e).start, (p.range lines name.length e).stop]
        (placed lines e name kind p children) :=
  Protocol.send_map fun range : Range => (⟨name, kind, range, range, children⟩ : Symbol)

end Symbol

theorem nestedSymbols_eq_mapM (protocol : Protocol) (lines : List (List Char)) (e : Encoding)
    (ms : List Message) :
    nestedSymbols protocol lines e ms = ms.mapM (·.symbol protocol lines e) := by
  induction ms with
  | nil => rfl
  | cons m ms ih => rw [nestedSymbols, ih, List.mapM_cons]

/-- The symbol of a message. -/
theorem Message.symbol_eq (protocol : Protocol) (lines : List (List Char)) (e : Encoding) (m : Message) :
    m.symbol protocol lines e = (do
      let inner ← m.nested.mapM (·.symbol protocol lines e)
      let own ← m.fields.mapM fun f => Symbol.at protocol lines e f.name .field f.position []
      Symbol.at protocol lines e m.name .message m.position (inner ++ own)) := by
  cases m
  rw [Message.symbol, nestedSymbols_eq_mapM]

/-- What holds of a message if it holds of those nested in it, holds of every message. -/
theorem Message.induction {motive : Message → Prop}
    (h : ∀ m, (∀ c ∈ m.nested, motive c) → motive m) (m : Message) : motive m :=
  h m fun c _ => Message.induction h c
termination_by sizeOf m
decreasing_by
  cases m with
  | mk name fields nested options position =>
    have := List.sizeOf_lt_of_mem ‹c ∈ _›
    simp only [Message.mk.sizeOf_spec] at this ⊢
    omega

/-! ## Nodes and symbols -/

variable {P : Node → Symbol → Prop} {n : Node} {s : Symbol} {ns ms : List Node} {ss ts : List Symbol}

/-- The symbols `ss` show those nodes of `ns` that have symbols, each of them once; `P` holds of each node
and its symbol. -/
def Paired (P : Node → Symbol → Prop) (ns : List Node) (ss : List Symbol) : Prop :=
  ∃ ms, ms.Perm (Node.labelled ns) ∧ List.Forall₂ (fun n s => n.label? = some s.label ∧ P n s) ms ss

namespace Paired

theorem nil : Paired P [] [] := ⟨[], .refl _, .nil⟩

theorem append (h : Paired P ns ss) (h' : Paired P ms ts) : Paired P (ns ++ ms) (ss ++ ts) := by
  obtain ⟨ns', hperm, hpairs⟩ := h
  obtain ⟨ms', hperm', hpairs'⟩ := h'
  refine ⟨ns' ++ ms', ?_, List.rel_append hpairs hpairs'⟩
  rw [Node.labelled_append]
  exact hperm.append hperm'

theorem of_labelled (h : Paired P ns ss) (hms : (Node.labelled ns).Perm (Node.labelled ms)) :
    Paired P ms ss :=
  let ⟨ns', hperm, hpairs⟩ := h
  ⟨ns', hperm.trans hms, hpairs⟩

theorem cons (hlabel : n.label? = some s.label) (hP : P n s) (h : Paired P ns ss) :
    Paired P (n :: ns) (s :: ss) := by
  obtain ⟨ns', hperm, hpairs⟩ := h
  refine ⟨n :: ns', ?_, .cons ⟨hlabel, hP⟩ hpairs⟩
  rw [Node.labelled, List.filter_cons_of_pos (by rw [hlabel]; rfl)]
  exact hperm.cons n

theorem families (h : List.Forall₂ (fun n s => Paired P n.family s.family) ns ss) :
    Paired P (ns.flatMap Node.family) (ss.flatMap Symbol.family) := by
  induction h with
  | nil => exact nil
  | cons h _ ih => exact h.append ih

/-- Every symbol shows one of the nodes. -/
theorem exists_of_mem (h : Paired P ns ss) (hs : s ∈ ss) :
    ∃ n ∈ ns, n.label? = some s.label ∧ P n s := by
  obtain ⟨ms, hperm, hpairs⟩ := h
  obtain ⟨i, hi, rfl⟩ := List.mem_iff_getElem.1 hs
  have hi' : i < ms.length := hpairs.length_eq ▸ hi
  exact ⟨ms[i], List.mem_of_mem_filter (hperm.mem_iff.1 (List.getElem_mem hi')), hpairs.get hi' hi⟩

end Paired

/-- The symbol `s` shows the node `n`, and its children in their order the nodes inside `n` that are to be
shown; `P` holds of each node and its symbol. -/
inductive Outlines (P : Node → Symbol → Prop) : Node → Symbol → Prop where
  | intro {n : Node} {s : Symbol} :
      n.label? = some s.label → P n s → List.Forall₂ (Outlines P) n.shownInside s.children →
      Outlines P n s

theorem Outlines.induction {motive : Node → Symbol → Prop}
    (h : ∀ {n s}, n.label? = some s.label → P n s → List.Forall₂ motive n.shownInside s.children →
      motive n s) (hs : Outlines P n s) : motive n s :=
  @Outlines.rec P (fun n s _ => motive n s) (fun ns ss _ => List.Forall₂ motive ns ss)
    (fun hlabel hP _ hchildren => h hlabel hP hchildren) .nil (fun _ _ h hs => .cons h hs) n s hs

theorem Outlines.paired (h : Outlines P n s) : Paired P n.family s.family := by
  refine h.induction (motive := fun n s => Paired P n.family s.family) ?_
  intro n s hlabel hP hchildren
  rw [s.family_eq, Node.family]
  exact .cons hlabel hP ((Paired.families hchildren).of_labelled n.labelled_inside)

/-! ## The outline -/

/-- `P` holds of each of the nodes `ns` that has a symbol, and of its symbol, whatever the children. -/
def SymbolsOf (P : Node → Symbol → Prop) (lines : List (List Char)) (e : Encoding) (ns : List Node) :
    Prop :=
  ∀ n ∈ ns, ∀ name kind children, n.label? = some (name, kind) →
    P n (.placed lines e name kind n.position children)

variable {lines : List (List Char)} {e : Encoding}

theorem outlines_placed {name : String} {kind : SymbolKind} {children : List Symbol}
    (hlabel : n.label? = some (name, kind)) (h : SymbolsOf P lines e n.family)
    (hchildren : List.Forall₂ (Outlines P) n.shownInside children) :
    Outlines P n (.placed lines e name kind n.position children) :=
  .intro hlabel (h n List.mem_cons_self name kind children hlabel) hchildren

/-- A symbol is sent behind the symbols below it. -/
theorem send_placed (protocol : Protocol) (name : String) (kind : SymbolKind) (p : Position)
    (children : List Symbol) :
    (protocol.send (children.flatMap Symbol.spots) children >>=
        Symbol.at protocol lines e name kind p) =
      protocol.send (Symbol.placed lines e name kind p children).spots
        (.placed lines e name kind p children) := by
  rw [Symbol.spots_placed]
  exact Protocol.send_bind (Symbol.at_eq ..)

/-- Nodes without nodes inside them that are shown. -/
theorem outlines_leaves {α : Type} {as : List α} (node : α → Node) (name : α → String)
    (kind : SymbolKind) (place : α → Position) (hinside : ∀ a, (node a).shownInside = [])
    (hlabel : ∀ a, (node a).label? = some (name a, kind)) (hplace : ∀ a, (node a).position = place a)
    (h : ∀ a ∈ as, SymbolsOf P lines e (node a).family) :
    ∃ ss, List.Forall₂ (Outlines P) (as.map node) ss ∧ ∀ protocol : Protocol,
      as.mapM (fun a => Symbol.at protocol lines e (name a) kind (place a) []) =
        protocol.send (ss.flatMap Symbol.spots) ss := by
  simp only [List.forall₂_map_left_iff]
  refine Protocol.mapM_send as fun a ha => ⟨.placed lines e (name a) kind (place a) [], ?_, fun protocol => ?_⟩
  · have hnode : Outlines P (node a) (.placed lines e (name a) kind (node a).position []) :=
      outlines_placed (hlabel a) (h a ha) (by rw [hinside]; exact .nil)
    rwa [hplace] at hnode
  · exact send_placed protocol (name a) kind (place a) []

theorem outlines_message (m : Message) (h : SymbolsOf P lines e (Node.message m).family) :
    ∃ s, Outlines P (.message m) s ∧
      ∀ protocol : Protocol, m.symbol protocol lines e = protocol.send s.spots s := by
  -- the children are the nested messages, to which the induction applies, and fields without children
  induction m using Message.induction with
  | h m ih =>
    have below {c : Node} (hc : c ∈ (Node.message m).shownInside) : SymbolsOf P lines e c.family :=
      fun n hn => h n (Node.family_subset_of_shownInside hc hn)
    obtain ⟨inner, hinner, hsentInner⟩ := Protocol.mapM_send m.nested fun c hc =>
      ih c hc (below (List.mem_append_left _ (List.mem_map_of_mem hc)))
    obtain ⟨own, hown, hsentOwn⟩ := outlines_leaves Node.field Field.name .field Field.position
      (fun _ => rfl) (fun _ => rfl) (fun _ => rfl) fun f hf =>
        below (List.mem_append_right _ (List.mem_map_of_mem hf))
    refine ⟨.placed lines e m.name .message m.position (inner ++ own),
      outlines_placed rfl h (List.rel_append (List.forall₂_map_left_iff.2 hinner) hown),
      fun protocol => ?_⟩
    -- the nested messages are sent first, then the fields, and the message itself behind them
    rw [m.symbol_eq, hsentInner, Symbol.spots_placed, List.flatMap_append, List.append_assoc]
    refine Protocol.send_bind ?_
    rw [hsentOwn]
    exact Protocol.send_bind (Symbol.at_eq ..)

theorem outlines_service (s : Service) (h : SymbolsOf P lines e (Node.service s).family) :
    ∃ t, Outlines P (.service s) t ∧
      ∀ protocol : Protocol, s.symbol protocol lines e = protocol.send t.spots t := by
  obtain ⟨methods, hmethods, hsent⟩ := outlines_leaves Node.rpc Rpc.name .method Rpc.position
    (fun _ => rfl) (fun _ => rfl) (fun _ => rfl) fun r hr n hn =>
      h n (Node.family_subset_of_shownInside (List.mem_map_of_mem hr) hn)
  refine ⟨.placed lines e s.name .service s.position methods, outlines_placed rfl h hmethods,
    fun protocol => ?_⟩
  rw [Service.symbol, hsent]
  exact send_placed protocol s.name .service s.position methods

/-- The symbols of a document show its nodes, tree by tree, and they are sent with all their spots. -/
theorem outlines_document {d : Document} {text : String}
    (h : SymbolsOf P (Text.lines text.toList) e d.nodes) :
    ∃ ss, List.Forall₂ (Outlines P) d.shown ss ∧
      ∀ protocol : Protocol, d.symbols protocol text e = protocol.send (ss.flatMap Symbol.spots) ss := by
  have below {l : List Node} {n : Node} (hl : l ∈ d.lists) (hn : n ∈ l) :
      SymbolsOf P (Text.lines text.toList) e n.family :=
    fun c hc => h c (Node.family_subset_nodesOf hl hn hc)
  obtain ⟨messages, hmessages, hsentMessages⟩ := Protocol.mapM_send d.messages fun m hm =>
    outlines_message m (below (by simp [Document.lists]) (List.mem_map_of_mem hm))
  obtain ⟨services, hservices, hsentServices⟩ := Protocol.mapM_send d.services fun s hs =>
    outlines_service s (below (by simp [Document.lists]) (List.mem_map_of_mem hs))
  refine ⟨messages ++ services, List.rel_append (List.forall₂_map_left_iff.2 hmessages)
    (List.forall₂_map_left_iff.2 hservices), fun protocol => ?_⟩
  simp only [Document.symbols, nestedSymbols_eq_mapM, hsentMessages, hsentServices]
  rw [List.flatMap_append]
  exact Protocol.send_bind (Protocol.send_map (messages ++ ·))

/-- There is one symbol for each node of the document that has one. -/
theorem paired_document {d : Document} (h : List.Forall₂ (Outlines P) d.shown ss) :
    Paired P d.nodes (ss.flatMap Symbol.family) :=
  (Paired.families (h.imp fun _ _ => Outlines.paired)).of_labelled (by rw [d.labelled_nodes])

/-! ## Places -/

/-- Among the tokens `ts` of a text the node `n` is declared: its first token begins with the character at
`k`, its name with the one at `k'`. -/
structure DeclaredAt (cs : List Char) (ts : List Token) (n : Node) (name : String) (k k' : Nat) :
    Prop where
  declared : ∃ before own after t, ts = before ++ (n.start :: own ++ after) ∧
    Declares (n.start :: own) n ∧ n.nameToken? own = some t ∧ IsName t.lexeme name ∧ StandsAt cs k' t
  start : StandsAt cs k n.start
  lt : k < k'

variable {cs : List Char} {ts : List Token} {name : String} {k k' : Nat}

theorem DeclaredAt.name_ne_empty (h : DeclaredAt cs ts n name k k') : name ≠ "" := by
  obtain ⟨_, _, _, t, _, _, _, hname, hstands⟩ := h.declared
  obtain ⟨x, rest, _, hread⟩ := hstands.read
  obtain ⟨b, y, rfl, _⟩ := hread.head
  rintro rfl
  have hplain := hread.bytes_plain hname.isSpelled.1 hname.isSpelled.2
  rw [hname.plain] at hplain
  cases hplain

/-- The nodes of a text that is read are declared in it. -/
theorem declaredAt_of_ofText {text : String} {source : Option String} {d : Document}
    (h : Document.ofText text source = .ok d) :
    ∃ ps tail, Splits (Utf8.encode text.toList) ps tail ∧ ∀ n ∈ d.nodes, ∀ name kind,
      n.label? = some (name, kind) →
        ∃ k k', DeclaredAt text.toList ((placed [] ps).filter (!·.isComment)) n name k k' := by
  obtain ⟨ps, tail, hsplits, hd⟩ := splits_of_ofInput h rfl
  refine ⟨ps, tail, hsplits, fun n hn name kind hlabel => ?_⟩
  obtain ⟨before, own, after, hts, hdecl, _⟩ := hd.laid.declared hn
  obtain ⟨t, ht, htoken, hname⟩ := hdecl.nameToken hlabel
  have hmem {u : Token} (hu : u ∈ n.start :: own) : u ∈ placed [] ps := by
    have hall : u ∈ before ++ (n.start :: own ++ after) :=
      List.mem_append_right _ (List.mem_append_left _ hu)
    rw [← hts] at hall
    exact List.mem_of_mem_filter hall
  obtain ⟨k, hstart⟩ := hsplits.standsAt (hmem List.mem_cons_self) n.opening_isSpelled
  obtain ⟨k', hstands⟩ := hsplits.standsAt (hmem (List.mem_cons_of_mem _ ht)) hname.isSpelled
  -- the first token stands before the others of the declaration
  have hpairwise := (hsplits.placed_pairwise []).filter (!·.isComment)
  rw [hts] at hpairwise
  have hlt : n.start.position < t.position :=
    (List.pairwise_cons.1 (List.pairwise_append.1 (List.pairwise_append.1 hpairwise).2.1).1).1 t ht
  exact ⟨k, k', ⟨before, own, after, t, hts, hdecl, htoken, hname, hstands⟩, hstart,
    hstart.lt_of_lt hstands hlt⟩

/-- A range inside another. -/
structure Range.Within (r outer : Range) : Prop where
  start : outer.start ≤ r.start
  ordered : r.start ≤ r.stop
  stop : r.stop ≤ outer.stop

/-- The symbol `s` stands where the node `n` is declared among the tokens `ts`: it begins with the first
token of the node, and its range is a part of the row, with something in it. -/
structure StandsFor (cs : List Char) (ts : List Token) (e : Encoding) (n : Node) (s : Symbol) : Prop where
  start : ∃ k k', DeclaredAt cs ts n s.name k k' ∧ s.range.start = spotAt cs e k
  line : s.range.stop.line = s.range.start.line
  within : ∃ row, (Text.lines cs)[s.range.start.line]? = some row ∧ s.range.stop.character ≤ e.units row
  nonempty : s.range.start < s.range.stop
  selection : s.selection.Within s.range
  /-- Where no number of a text goes beyond a limit, neither does one of the range. -/
  fits : ∀ limit, e.units cs ≤ limit → s.range.Fits limit

theorem DeclaredAt.standsFor (h : DeclaredAt cs ts n name k k') (e : Encoding) (kind : SymbolKind)
    (children : List Symbol) :
    StandsFor cs ts e n (.placed (Text.lines cs) e name kind n.position children) := by
  have hrange : n.position.range (Text.lines cs) name.length e = rangeFrom cs e k name.length :=
    h.start.range name.length e
  have hlength : name.length ≠ 0 := by simpa using h.name_ne_empty
  have hnonempty := h.start.range_nonempty e hlength
  rw [Symbol.placed, hrange]
  exact {
    start := ⟨k, k', h, rfl⟩
    line := rfl
    within := ⟨_, row_spotAt cs e k, stop_rangeFrom_le cs e k name.length⟩
    nonempty := hnonempty
    selection := ⟨Spot.le_refl _, Spot.le_of_lt hnonempty, Spot.le_refl _⟩
    fits := fun _ hlimit => fits_rangeFrom hlimit k name.length
  }

/-- The symbols of a text that is read, and how they are sent. -/
theorem outlines_of_ofText {text : String} {source : Option String} {d : Document}
    (h : Document.ofText text source = .ok d) :
    ∃ ps tail, Splits (Utf8.encode text.toList) ps tail ∧ ∀ e : Encoding, ∃ ss : List Symbol,
      List.Forall₂ (Outlines (StandsFor text.toList ((placed [] ps).filter (!·.isComment)) e))
        d.shown ss ∧
      ∀ protocol : Protocol,
        d.symbols protocol text e = protocol.send (ss.flatMap Symbol.spots) ss := by
  obtain ⟨ps, tail, hsplits, hdeclared⟩ := declaredAt_of_ofText h
  refine ⟨ps, tail, hsplits, fun e => outlines_document ?_⟩
  intro n hn name kind children hlabel
  obtain ⟨k, k', hat⟩ := hdeclared n hn name kind hlabel
  exact hat.standsFor e kind children

/-- The ranges in the outline of a text that is not longer than a limit stay below the limit. -/
theorem fits_of_outlines {d : Document} {limit : Nat}
    (h : List.Forall₂ (Outlines (StandsFor cs ts e)) d.shown ss) (hlength : e.units cs ≤ limit) :
    ∀ s ∈ ss.flatMap Symbol.family, s.range.Fits limit := by
  intro s hs
  obtain ⟨n, _, _, hstands⟩ := (paired_document h).exists_of_mem hs
  exact hstands.fits limit hlength

section Sent

variable {protocol : Protocol} {limit : Nat} {text : String} {source : Option String} {d : Document}

/-- A text that is read and is not longer than the protocol counts has an outline. -/
theorem symbols_of_units_le (hp : protocol.CountsTo limit) (h : Document.ofText text source = .ok d)
    (hlength : e.units text.toList ≤ limit) : ∃ ss, d.symbols protocol text e = .ok ss := by
  obtain ⟨_, _, _, houtline⟩ := outlines_of_ofText h
  obtain ⟨ss, houtlines, hsent⟩ := houtline e
  refine ⟨ss, (hsent protocol).trans (hp.send_eq_ok ?_)⟩
  exact (Symbol.all_spots_fit_iff ss).2 (fits_of_outlines houtlines hlength)

/-- The outline of a text that is read has exactly one symbol for each message, field, service and method.
At the top stand the messages and then the services, below a message its nested messages and then its
fields, below a service its methods, each in the order of the document, and below the others nothing. A
symbol begins with the first token of the declaration of its node, in the units of the encoding; its range
is a part of that row, with something in it, and holds the selection. This is the outline in a protocol
whose numbers go as far as the ranges do, as they do if the text is not longer than the limit; another
protocol refuses it. -/
theorem symbols_outline (hp : protocol.CountsTo limit) (h : Document.ofText text source = .ok d) :
    ∃ ps tail, Splits (Utf8.encode text.toList) ps tail ∧ ∀ e : Encoding,
      let ts := (placed [] ps).filter (!·.isComment)
      ∃ ss : List Symbol,
        List.Forall₂ (Outlines (StandsFor text.toList ts e)) d.shown ss ∧
        Paired (StandsFor text.toList ts e) d.nodes (ss.flatMap Symbol.family) ∧
        ((∀ s ∈ ss.flatMap Symbol.family, s.range.Fits limit) → d.symbols protocol text e = .ok ss) ∧
        ((¬ ∀ s ∈ ss.flatMap Symbol.family, s.range.Fits limit) →
          ∃ refusal, d.symbols protocol text e = .error refusal) ∧
        (e.units text.toList ≤ limit → ∀ s ∈ ss.flatMap Symbol.family, s.range.Fits limit) := by
  obtain ⟨ps, tail, hsplits, houtline⟩ := outlines_of_ofText h
  refine ⟨ps, tail, hsplits, fun e => ?_⟩
  intro ts
  obtain ⟨ss, houtlines, hsent⟩ := houtline e
  refine ⟨ss, houtlines, paired_document houtlines, fun hfits => ?_, fun hbeyond => ?_,
    fits_of_outlines houtlines⟩
  · rw [hsent]
    exact hp.send_eq_ok ((Symbol.all_spots_fit_iff ss).2 hfits)
  · rw [hsent]
    exact hp.send_eq_error fun hspots => hbeyond ((Symbol.all_spots_fit_iff ss).1 hspots)

end Sent

/-- A message with a comment, a field and a message in it, and a service, in the protocol with numbers up to
2147483647. -/
theorem symbols_outline_sample :
    let text := "syntax = 'proto3';\n" ++
      "message User \x7b /* é */ repeated B b = 1; message B \x7b\x7d \x7d\n" ++
      "service S \x7b rpc Get(User) returns (B); \x7d"
    let d : Document := ⟨.proto3, [], [], [],
      [⟨"User", [⟨.named "B", "b", 1, true, ⟨2, 25⟩⟩], [⟨"B", [], [], [], ⟨2, 43⟩⟩], [], ⟨2, 1⟩⟩],
      [⟨"S", [⟨"Get", ["User"], "B", ⟨3, 13⟩⟩], [], ⟨3, 1⟩⟩], none⟩
    let protocol := Protocol.upTo 2147483647
    protocol.CountsTo 2147483647 ∧ Document.ofText text none = .ok d ∧
      ∃ ps tail, Splits (Utf8.encode text.toList) ps tail ∧
        let ts := (placed [] ps).filter (!·.isComment)
        ∃ ss, d.symbols protocol text .utf16 = .ok ss ∧
          List.Forall₂ (Outlines (StandsFor text.toList ts .utf16)) d.shown ss ∧
          Paired (StandsFor text.toList ts .utf16) d.nodes (ss.flatMap Symbol.family) := by
  intro text d protocol
  have hp : protocol.CountsTo 2147483647 := Protocol.countsTo_upTo _
  have hread : Document.ofText text none = .ok d := ofText_of_toOption (by decide +kernel)
  obtain ⟨ps, tail, hsplits, houtline⟩ := symbols_outline hp hread
  obtain ⟨ss, houtlines, hpaired, hsent, _, hfits⟩ := houtline .utf16
  have hlength : Encoding.utf16.units text.toList ≤ 2147483647 := by decide +kernel
  exact ⟨hp, hread, ps, tail, hsplits, ss, hsent (hfits hlength), houtlines, hpaired⟩

end ProtoSchema
