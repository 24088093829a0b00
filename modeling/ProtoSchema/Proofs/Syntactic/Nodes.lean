import ProtoSchema.Proofs.Document.Nodes
import ProtoSchema.Proofs.Syntactic.FirstError

/-!
# ProtoSchema.Proofs.Syntactic.Nodes

Where the nodes of a document stand. Each node is declared by tokens of its own, of which the first is at
the place of the node; the tokens of the nodes inside it are among them, and those of the node behind it
in a list come later. `Laid` says so for any lists of nodes, and the tokens of a schema lay the nodes of
its document (`laid_statements`). As tokens stand in strictly increasing order, so do the nodes
(`nodes_placed`).
-/

namespace ProtoSchema
namespace Syntactic

open Scan ProtoSchema.Parser Lexical

/-- The tokens `ts` are a declaration of a node. -/
def Declares (ts : List Token) : Node → Prop
  | .importDecl i => ImportStmt ts i
  | .option o => OptionStmt ts o
  | .message m => MessageDecl ts m
  | .field f => FieldStmt ts f
  | .service s => ServiceDecl ts s
  | .rpc r => RpcDecl ts r

theorem TypeOf.opening {t : Token} {us : List Token} {type : FieldType} (h : TypeOf (t :: us) type) :
    t.lexeme = type.opening := by
  cases h <;> rfl

/-- A declaration begins with the first token of its node, at the place of the node. -/
theorem Declares.start {ts : List Token} {n : Node} (h : Declares ts n) :
    ∃ us, ts = n.start :: us := by
  cases n with
  | importDecl i => cases h <;> exact ⟨_, rfl⟩
  | option o => cases h with | intro => exact ⟨_, rfl⟩
  | message m => cases h with | intro => exact ⟨_, rfl⟩
  | field f =>
    cases h with
    | repeated => exact ⟨_, rfl⟩
    | @single t us vs type _ _ _ htype =>
      refine ⟨us ++ vs, ?_⟩
      obtain ⟨l, p⟩ := t
      obtain rfl : l = type.opening := htype.opening
      rfl
  | service s => cases h with | intro => exact ⟨_, rfl⟩
  | rpc r => cases h with | intro => exact ⟨_, rfl⟩

/-- Tokens among which the nodes of some lists are declared: the lists in source order, and the nodes
inside a node among the tokens of that node. -/
inductive Laid : List Token → List (List Node) → Prop where
  | none {ts : List Token} {ls : List (List Node)} : (∀ l ∈ ls, l = []) → Laid ts ls
  | skip (us : List Token) {vs : List Token} {ls : List (List Node)} :
      Laid vs ls → Laid (us ++ vs) ls
  | node {us vs : List Token} {n : Node} {ls ls' : List (List Node)} :
      Declares (n.start :: us) n → Laid us n.lists → Laid vs ls → Grown n ls ls' →
      Laid (n.start :: (us ++ vs)) ls'

/-! ## What is laid is in order -/

namespace Laid

variable {ts us vs : List Token} {ls ls' : List (List Node)} {n : Node}

theorem append (h : Laid us ls) (vs : List Token) : Laid (us ++ vs) ls := by
  induction h with
  | none h => exact .none h
  | skip _ _ ih =>
    rw [List.append_assoc]
    exact .skip _ ih
  | node hd hn _ hg _ ih =>
    rw [List.cons_append, List.append_assoc]
    exact .node hd hn ih hg

/-- The first tokens of all nodes can be found one behind another. -/
theorem preorder (h : Laid ts ls) :
    ∃ ns : List Node, ns.Perm (nodesOf ls) ∧ (ns.map Node.start).Sublist ts := by
  induction h with
  | none h => exact ⟨[], by rw [nodesOf_eq_nil h], List.nil_sublist _⟩
  | skip _ _ ih =>
    obtain ⟨ns, hperm, hsub⟩ := ih
    exact ⟨ns, hperm, hsub.trans (List.sublist_append_right _ _)⟩
  | @node us vs n ls ls' _ _ _ hg ih₁ ih₂ =>
    obtain ⟨ns₁, hperm₁, hsub₁⟩ := ih₁
    obtain ⟨ns₂, hperm₂, hsub₂⟩ := ih₂
    refine ⟨n :: (ns₁ ++ ns₂), ?_, ?_⟩
    · have hall := (hperm₁.append hperm₂).cons n
      rw [← n.inside_eq] at hall
      exact hall.trans hg.perm.symm
    · simpa using hsub₁.append hsub₂

theorem start_mem (h : Laid ts ls) (hn : n ∈ nodesOf ls) : n.start ∈ ts := by
  obtain ⟨ns, hperm, hsub⟩ := h.preorder
  exact hsub.subset (List.mem_map_of_mem (hperm.mem_iff.2 hn))

/-- A node has tokens of its own, and the nodes inside it begin among them. -/
theorem declared (h : Laid ts ls) (hn : n ∈ nodesOf ls) :
    ∃ before own after, ts = before ++ (n.start :: own ++ after) ∧ Declares (n.start :: own) n ∧
      ∀ c ∈ n.inside, c.start ∈ own := by
  induction h with
  | none h =>
    rw [nodesOf_eq_nil h] at hn
    cases hn
  | @skip us _ _ _ ih =>
    obtain ⟨before, own, after, rfl, hd⟩ := ih hn
    exact ⟨us ++ before, own, after, by simp, hd⟩
  | @node us vs m ls ls' hd hus _ hg ih₁ ih₂ =>
    rcases hg.mem_iff.1 hn with rfl | hn | hn
    · exact ⟨[], us, vs, rfl, hd, fun c hc => hus.start_mem (n.inside_eq ▸ hc)⟩
    · obtain ⟨before, own, after, rfl, hown⟩ := ih₁ hn
      exact ⟨m.start :: before, own, after ++ vs, by simp, hown⟩
    · obtain ⟨before, own, after, rfl, hown⟩ := ih₂ hn
      exact ⟨m.start :: (us ++ before), own, after, by simp, hown⟩

/-- Where tokens stand in strictly increasing order, so do the nodes of each list and those inside them,
and what is inside a node stands behind the node. -/
theorem inOrder (h : Laid ts ls) (hts : ts.Pairwise (·.position < ·.position)) :
    (∀ l ∈ ls, InOrder l) ∧ ∀ n ∈ nodesOf ls,
      (∀ l ∈ n.lists, InOrder l) ∧ ∀ c ∈ n.inside, n.position < c.position := by
  induction h with
  | none h =>
    refine ⟨fun l hl => ?_, by simp [nodesOf_eq_nil h]⟩
    rw [h l hl]
    exact .nil
  | skip _ _ ih => exact ih (List.pairwise_append.1 hts).2.1
  | @node us vs n ls ls' _ hus hvs hg ih₁ ih₂ =>
    obtain ⟨hstart, hrest⟩ := List.pairwise_cons.1 hts
    obtain ⟨hin, hbehind, hacross⟩ := List.pairwise_append.1 hrest
    obtain ⟨hlists₁, hnodes₁⟩ := ih₁ hin
    obtain ⟨hlists₂, hnodes₂⟩ := ih₂ hbehind
    have hinside : ∀ c ∈ n.inside, c.start ∈ us := fun c hc => hus.start_mem (n.inside_eq ▸ hc)
    constructor
    · intro l hl
      rcases hg.lists hl with hl | ⟨k, hk, rfl⟩
      · exact hlists₂ l hl
      · -- the node in front, and what is inside it, against the nodes that the list had
        refine .cons (fun b hb m hm => ?_) (hlists₂ k hk)
        have hb' : b.start ∈ vs := hvs.start_mem (mem_nodesOf hk hb)
        rcases List.mem_cons.1 hm with rfl | hm
        · exact hstart _ (List.mem_append_right _ hb')
        · exact hacross _ (hinside m hm) _ hb'
    · intro m hm
      rcases hg.mem_iff.1 hm with rfl | hm | hm
      · exact ⟨hlists₁, fun c hc => hstart _ (List.mem_append_left _ (hinside c hc))⟩
      · exact hnodes₁ m hm
      · exact hnodes₂ m hm

theorem nodup (h : Laid ts ls) (hts : ts.Pairwise (·.position < ·.position)) :
    ((nodesOf ls).map Node.position).Nodup := by
  obtain ⟨ns, hperm, hsub⟩ := h.preorder
  have hpositions : (ns.map Node.position).Sublist (ts.map Token.position) := by
    have := hsub.map Token.position
    rwa [List.map_map] at this
  have hnodup : (ts.map Token.position).Nodup :=
    List.pairwise_map.2 (hts.imp fun {t u} hlt (heq : t.position = u.position) =>
      u.position.lt_irrefl (heq ▸ hlt))
  exact (hperm.map _).nodup_iff.1 (hpositions.nodup hnodup)

end Laid

/-! ## Schemas lay the nodes of their documents -/

section Grammar

variable {ts us vs : List Token} {ls ls' : List (List Node)} {n : Node}

/-- A declaration in front. -/
theorem laid_cons (h : Declares us n) (hin : ∀ us', us = n.start :: us' → Laid us' n.lists)
    (hvs : Laid vs ls) (hg : Grown n ls ls') : Laid (us ++ vs) ls' := by
  obtain ⟨us', rfl⟩ := h.start
  exact .node h (hin us' rfl) hvs hg

/-- A declaration in front that nothing is inside of. -/
theorem laid_leaf (h : Declares us n) (hn : n.lists = []) (hvs : Laid vs ls)
    (hg : Grown n ls ls') : Laid (us ++ vs) ls' :=
  laid_cons h (fun _ _ => .none (by simp [hn])) hvs hg

theorem laid_items {b : MessageBody} (h : Items ts b) :
    Laid ts [b.options.map .option, b.fields.map .field, b.nested.map .message] := by
  induction h with
  | nil => exact .none (by simp [MessageBody.empty])
  | semi _ ih => exact .skip [_] ih
  | @message us vs name inner b p p₁ p₂ p₃ hinner _ ih₁ ih₂ =>
    have hlaid := Laid.node (n := .message ⟨name, inner.fields, inner.nested, inner.options, p⟩)
      (MessageDecl.intro hinner)
      (.skip [⟨.ident name, p₁⟩, ⟨.punct .lbrace, p₂⟩] (ih₁.append [⟨.punct .rbrace, p₃⟩]))
      ih₂ (.there (.there .here))
    simp only [List.cons_append, List.append_assoc, List.nil_append] at hlaid
    exact hlaid
  | option ho _ ih => exact laid_leaf (n := .option _) ho rfl ih .here
  | skipped _ _ ih => exact .skip _ ih
  | field hf _ ih => exact laid_leaf (n := .field _) hf rfl ih (.there .here)

theorem laid_message {m : Message} (h : MessageDecl us m) :
    ∀ us', us = (Node.message m).start :: us' → Laid us' (Node.message m).lists := by
  intro us' e
  cases h with
  | @intro us name b p p₁ p₂ p₃ hb =>
    obtain ⟨-, rfl⟩ := List.cons.inj e
    exact .skip [_, _] ((laid_items hb).append _)

theorem laid_serviceItems {b : ServiceBody} (h : ServiceItems ts b) :
    Laid ts [b.options.map .option, b.rpcs.map .rpc] := by
  induction h with
  | nil => exact .none (by simp [ServiceBody.empty])
  | semi _ ih => exact .skip [_] ih
  | option ho _ ih => exact laid_leaf (n := .option _) ho rfl ih .here
  | rpc hr _ ih => exact laid_leaf (n := .rpc _) hr rfl ih (.there .here)

theorem laid_service {s : Service} (h : ServiceDecl us s) :
    ∀ us', us = (Node.service s).start :: us' → Laid us' (Node.service s).lists := by
  intro us' e
  cases h with
  | @intro us name b p p₁ p₂ p₃ hb =>
    obtain ⟨-, rfl⟩ := List.cons.inj e
    exact .skip [_, _] ((laid_serviceItems hb).append _)

theorem laid_statements {b : Body} (h : Statements ts b) :
    Laid ts [b.imports.map .importDecl, b.options.map .option, b.messages.map .message,
      b.services.map .service] := by
  induction h with
  | nil => exact .none (by simp [Body.empty])
  | semi _ ih => exact .skip [_] ih
  | package _ _ _ ih => exact .skip _ ih
  | importDecl hi _ ih => exact laid_leaf (n := .importDecl _) hi rfl ih .here
  | option ho _ ih => exact laid_leaf (n := .option _) ho rfl ih (.there .here)
  | message hm _ ih =>
    exact laid_cons (n := .message _) hm (laid_message hm) ih (.there (.there .here))
  | service hs _ ih =>
    exact laid_cons (n := .service _) hs (laid_service hs) ih (.there (.there (.there .here)))

theorem Derives.laid {source : Option String} {d : Document} (h : Derives source ts d) :
    Laid ts d.lists := by
  cases h with
  | @intro us dialect b p p₁ p₂ p₃ hb =>
    exact .skip [_, _, _, _] (laid_statements hb)

end Grammar

/-! ## Documents that are read -/

section Documents

variable {σ : Type} [ByteInput σ] [Faithful σ] {s : σ} {source : Option String} {d : Document}

/-- A document is derived from the lexemes that its source is split into. -/
theorem splits_of_ofInput (h : Document.ofInput s source = .ok d)
    (hs : ByteInput.position s = .first) :
    ∃ ps tail, Splits (Faithful.bytes s) ps tail ∧
      Derives source ((placed [] ps).filter (!·.isComment)) d := by
  obtain ⟨ts, s', y, hd, _⟩ := ofInput_iff_derives.1 h
  have hrun := (run_token s).symm.trans ((run_eq_iff progresses_token).2 y)
  simp only [Run.mk.injEq] at hrun
  obtain ⟨rfl, hnone, _⟩ := hrun
  have hends := Faithful.tokens_view s
  rw [plainTokens] at hd
  generalize Lexer.tokens s = r at hends hnone hd
  generalize hr' : Lexer.tokens (Faithful.view s) = r' at hends
  cases hends with
  | done =>
    obtain ⟨ps, tail, hsplits, rfl, _, _⟩ :=
      yields_next_sound ((run_eq_iff _).1 hr') (hs.trans placeBehind_nil.symm)
    exact ⟨ps, tail, hsplits, hd⟩
  | failed => cases hnone
  | lost => cases hnone

/-- The nodes of a document `d` that is read from the bytes `bs` stand where they are declared. -/
structure PlacedIn (bs : List UInt8) (d : Document) : Prop where
  /-- A node is declared by tokens of its own, comments apart; the first of them has the place of the
  node, and the nodes inside it begin among the others. -/
  declared : ∃ ps tail, Splits bs ps tail ∧ ∀ n ∈ d.nodes, ∃ before own after,
    (placed [] ps).filter (!·.isComment) = before ++ (n.start :: own ++ after) ∧
      Declares (n.start :: own) n ∧ ∀ c ∈ n.inside, c.start ∈ own
  /-- The place of a node is that of the first byte of its first token. -/
  start : ∀ n ∈ d.nodes, ∃ front x rest, bs = front ++ (x ++ rest) ∧ Reading x rest n.opening ∧
    n.position = placeBehind front
  lists : ∀ ns ∈ d.lists, InOrder ns
  nested : ∀ n ∈ d.nodes, ∀ ns ∈ n.lists, InOrder ns
  inside : ∀ n ∈ d.nodes, ∀ c ∈ n.inside, n.position < c.position
  distinct : (d.nodes.map Node.position).Nodup

/-- The nodes of a document have the places of the tokens that start them: `import`, `option`, `message`,
`service` or `rpc`, and for a field `repeated` or else the first token of its type. The places of each
list are strictly increasing, what is inside a node stands behind it and before the next node of its
list, and no two nodes share a place. -/
theorem nodes_placed (h : Document.ofInput s source = .ok d) (hs : ByteInput.position s = .first) :
    PlacedIn (Faithful.bytes s) d := by
  obtain ⟨ps, tail, hsplits, hd⟩ := splits_of_ofInput h hs
  have hlaid := hd.laid
  have hts := (hsplits.placed_pairwise []).filter (!·.isComment)
  obtain ⟨hlists, hnodes⟩ := hlaid.inOrder hts
  exact {
    declared := ⟨ps, tail, hsplits, fun _ hn => hlaid.declared hn⟩
    start := fun _ hn => hsplits.of_mem_placed (List.mem_of_mem_filter (hlaid.start_mem hn))
    lists := hlists
    nested := fun n hn => (hnodes n hn).1
    inside := fun n hn => (hnodes n hn).2
    distinct := hlaid.nodup hts
  }

end Documents

/-- A message with an option and a field in it, each in a row of its own. -/
theorem nodes_placed_sample :
    let text := "syntax = 'proto3';\nmessage M \x7b option a = b;\n  repeated M c = 1; \x7d"
    let d : Document := ⟨.proto3, [], [], [], [⟨"M", [⟨.named "M", "c", 1, true, ⟨3, 3⟩⟩], [],
      [⟨"a", .bare "b", ⟨2, 13⟩⟩], ⟨2, 1⟩⟩], [], none⟩
    Document.ofText text none = .ok d ∧ PlacedIn (Utf8.encode text.toList) d := by
  intro text d
  have hread : Document.ofText text none = .ok d := ofText_of_toOption (by decide +kernel)
  exact ⟨hread, nodes_placed hread rfl⟩

end Syntactic
end ProtoSchema
