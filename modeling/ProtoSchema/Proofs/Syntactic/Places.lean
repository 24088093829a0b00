import ProtoSchema.Proofs.Document.Alike
import ProtoSchema.Proofs.Printing.Statements

/-!
# ProtoSchema.Proofs.Syntactic.Places

The grammar does not look at places. Whatever tokens declare, tokens with the same lexemes declare the
same but for places (`PlaceFree`): there is one lemma for each nonterminal, up to whole schemas
(`Derives.elsewhere`).
-/

namespace ProtoSchema

def Parser.MessageBody.unplaced (b : Parser.MessageBody) : Parser.MessageBody :=
  ⟨b.fields.map Field.unplaced, b.nested.map Message.unplaced, b.options.map OptionDecl.unplaced⟩

def Parser.ServiceBody.unplaced (b : Parser.ServiceBody) : Parser.ServiceBody :=
  ⟨b.rpcs.map Rpc.unplaced, b.options.map OptionDecl.unplaced⟩

def Parser.Body.unplaced (b : Parser.Body) : Parser.Body :=
  ⟨b.package, b.imports.map ImportDecl.unplaced, b.options.map OptionDecl.unplaced,
    b.messages.map Message.unplaced, b.services.map Service.unplaced⟩

/-- What documents are valid does not depend on places, nor on the name of the source. -/
theorem Document.Alike.valid {d d' : Document} (h : d.Alike d') (hd : d.Valid) : d'.Valid := by
  have hmessages : d.unplaced.messages = d'.unplaced.messages := by
    have := congrArg Document.messages h
    exact this
  refine Document.valid_unplaced.1 ?_
  rw [Document.Valid, ← hmessages]
  exact Document.valid_unplaced.2 hd

namespace Syntactic

open ProtoSchema.Parser
open Printing (map_lexeme_eq_cons)

variable {α β γ α' β' γ' : Type} {ts us vs : List Token}

/-- Tokens with the same lexemes stand for the same by `R`, up to what `forget` forgets. -/
def PlaceFree (R : List Token → α → Prop) (forget : α → β) : Prop :=
  ∀ {us : List Token} {a : α}, R us a → Printing.Declares R forget (us.map Token.lexeme) a

theorem map_lexeme_eq_append (h : ts.map Token.lexeme = (us ++ vs).map Token.lexeme) :
    ∃ us' vs', ts = us' ++ vs' ∧ us'.map Token.lexeme = us.map Token.lexeme ∧
      vs'.map Token.lexeme = vs.map Token.lexeme := by
  rw [List.map_append] at h
  exact List.map_eq_append_iff.1 h

/-- What is put together from two parts. -/
theorem declares_append {R : List Token → α → Prop} {S : List Token → β → Prop}
    {T : List Token → γ → Prop} {f : α → α'} {g : β → β'} {h : γ → γ'} {x : α} {y : β} {z : γ}
    (hx : Printing.Declares R f (us.map Token.lexeme) x)
    (hy : Printing.Declares S g (vs.map Token.lexeme) y)
    (hz : ∀ {us vs a b}, R us a → S vs b → f a = f x → g b = g y → ∃ c, T (us ++ vs) c ∧ h c = h z) :
    Printing.Declares T h ((us ++ vs).map Token.lexeme) z := by
  intro ts hts
  obtain ⟨us', vs', rfl, hus, hvs⟩ := map_lexeme_eq_append hts
  obtain ⟨a, ha, heq⟩ := hx us' hus
  obtain ⟨b, hb, heq'⟩ := hy vs' hvs
  exact hz ha hb heq heq'

/-! ## Statements without a body -/

theorem placeFree_optionStmt : PlaceFree OptionStmt OptionDecl.unplaced := by
  intro us o h ts hts
  cases h with
  | intro hname hvalue =>
    simp only [List.map_cons, List.map_nil, map_lexeme_eq_cons, List.map_eq_nil_iff] at hts
    obtain ⟨p, _, rfl, p₁, _, rfl, p₂, _, rfl, p₃, _, rfl, p₄, _, rfl, rfl⟩ := hts
    exact ⟨_, .intro hname hvalue, rfl⟩

theorem placeFree_importStmt : PlaceFree ImportStmt ImportDecl.unplaced := by
  intro us i h ts hts
  cases h with
  | plain =>
    simp only [List.map_cons, List.map_nil, map_lexeme_eq_cons, List.map_eq_nil_iff] at hts
    obtain ⟨p, _, rfl, p₁, _, rfl, p₂, _, rfl, rfl⟩ := hts
    exact ⟨_, .plain, rfl⟩
  | weak =>
    simp only [List.map_cons, List.map_nil, map_lexeme_eq_cons, List.map_eq_nil_iff] at hts
    obtain ⟨p, _, rfl, p₁, _, rfl, p₂, _, rfl, p₃, _, rfl, rfl⟩ := hts
    exact ⟨_, .weak, rfl⟩
  | shared =>
    simp only [List.map_cons, List.map_nil, map_lexeme_eq_cons, List.map_eq_nil_iff] at hts
    obtain ⟨p, _, rfl, p₁, _, rfl, p₂, _, rfl, p₃, _, rfl, rfl⟩ := hts
    exact ⟨_, .shared, rfl⟩

theorem placeFree_packageStmt : PlaceFree PackageStmt id := by
  intro us ss h ts hts
  cases h with
  | intro hname =>
    simp only [List.map_cons, List.map_nil, map_lexeme_eq_cons, List.map_eq_nil_iff] at hts
    obtain ⟨p, _, rfl, p₁, _, rfl, p₂, _, rfl, rfl⟩ := hts
    exact ⟨_, .intro hname, rfl⟩

theorem SkippedStmt.elsewhere (h : SkippedStmt us) (hts : ts.map Token.lexeme = us.map Token.lexeme) :
    SkippedStmt ts := by
  obtain ⟨hword, hinside⟩ := h
  simp only [List.map_cons, List.map_append, List.map_nil, map_lexeme_eq_cons,
    List.map_eq_append_iff, List.map_eq_nil_iff] at hts
  obtain ⟨p, _, rfl, us', _, rfl, hus, p₁, _, rfl, rfl⟩ := hts
  refine .intro hword fun u hu => ?_
  have hmem := List.mem_map_of_mem (f := Token.lexeme) hu
  rw [hus] at hmem
  obtain ⟨v, hv, hlexeme⟩ := List.mem_map.1 hmem
  exact hlexeme ▸ hinside v hv

/-! ## Fields -/

theorem placeFree_typeOf : PlaceFree TypeOf id := by
  intro us type h
  induction h with
  | scalar =>
    intro ts hts
    simp only [List.map_cons, List.map_nil, map_lexeme_eq_cons, List.map_eq_nil_iff] at hts
    obtain ⟨p, _, rfl, rfl⟩ := hts
    exact ⟨_, .scalar, rfl⟩
  | named =>
    intro ts hts
    simp only [List.map_cons, List.map_nil, map_lexeme_eq_cons, List.map_eq_nil_iff] at hts
    obtain ⟨p, _, rfl, rfl⟩ := hts
    exact ⟨_, .named, rfl⟩
  | dotted =>
    intro ts hts
    simp only [List.map_cons, List.map_nil, map_lexeme_eq_cons, List.map_eq_nil_iff] at hts
    obtain ⟨p, _, rfl, rfl⟩ := hts
    exact ⟨_, .dotted, rfl⟩
  | map _ _ ihkey ihvalue =>
    intro ts hts
    simp only [List.map_cons, List.map_append, List.map_nil, map_lexeme_eq_cons,
      List.map_eq_append_iff, List.map_eq_nil_iff] at hts
    obtain ⟨p, _, rfl, p₁, _, rfl, us, _, rfl, hus, p₂, _, rfl, ws, _, rfl, hws, p₃, _, rfl, rfl⟩ :=
      hts
    obtain ⟨_, hkey, rfl⟩ := ihkey us hus
    obtain ⟨_, hvalue, rfl⟩ := ihvalue ws hws
    exact ⟨_, .map hkey hvalue, rfl⟩

theorem FieldRest.elsewhere {name : String} {n : Nat} {p : Position} (h : FieldRest us name n p)
    (hts : ts.map Token.lexeme = us.map Token.lexeme) : ∃ p', FieldRest ts name n p' := by
  cases h with
  | intro hname =>
    simp only [List.map_cons, List.map_nil, map_lexeme_eq_cons, List.map_eq_nil_iff] at hts
    obtain ⟨p, _, rfl, p₁, _, rfl, p₂, _, rfl, p₃, _, rfl, rfl⟩ := hts
    exact ⟨_, .intro hname⟩

theorem placeFree_fieldStmt : PlaceFree FieldStmt Field.unplaced := by
  intro us f h ts hts
  cases h with
  | @single t us vs type name n p htype hrest =>
    rw [← List.cons_append] at hts
    obtain ⟨us', vs', rfl, hus, hvs⟩ := map_lexeme_eq_append hts
    obtain ⟨_, htype', rfl⟩ := placeFree_typeOf htype us' hus
    obtain ⟨_, hrest'⟩ := hrest.elsewhere hvs
    obtain ⟨_, _, rfl, _⟩ := htype'.head
    exact ⟨_, .single htype' hrest', rfl⟩
  | repeated htype hrest =>
    rw [List.map_cons, map_lexeme_eq_cons] at hts
    obtain ⟨p, _, rfl, hts⟩ := hts
    obtain ⟨us', vs', rfl, hus, hvs⟩ := map_lexeme_eq_append hts
    obtain ⟨_, htype', rfl⟩ := placeFree_typeOf htype us' hus
    obtain ⟨_, hrest'⟩ := hrest.elsewhere hvs
    exact ⟨_, .repeated htype' hrest', rfl⟩

/-! ## Messages -/

theorem placeFree_items : PlaceFree Items MessageBody.unplaced := by
  intro us b h
  induction h with
  | nil =>
    intro ts hts
    obtain rfl := List.map_eq_nil_iff.1 hts
    exact ⟨_, .nil, rfl⟩
  | semi _ ih =>
    intro ts hts
    rw [List.map_cons, map_lexeme_eq_cons] at hts
    obtain ⟨p, vs, rfl, hvs⟩ := hts
    obtain ⟨b', hb, heq⟩ := ih vs hvs
    exact ⟨b', .semi hb, heq⟩
  | message _ _ ihinner ih =>
    intro ts hts
    simp only [List.map_cons, List.map_append, map_lexeme_eq_cons, List.map_eq_append_iff] at hts
    obtain ⟨p, _, rfl, p₁, _, rfl, p₂, _, rfl, us, _, rfl, hus, p₃, vs, rfl, hvs⟩ := hts
    obtain ⟨inner', hinner, heq⟩ := ihinner us hus
    obtain ⟨b', hb, heq'⟩ := ih vs hvs
    refine ⟨_, .message hinner hb, ?_⟩
    simp only [MessageBody.unplaced, MessageBody.mk.injEq] at heq heq'
    simp only [MessageBody.unplaced, MessageBody.addNested, List.map_cons, Message.unplaced_eq, heq,
      heq']
  | option ho _ ih =>
    refine declares_append (placeFree_optionStmt ho) ih fun ho' hb heq heq' => ⟨_, .option ho' hb, ?_⟩
    simp only [MessageBody.unplaced, MessageBody.mk.injEq] at heq'
    simp only [MessageBody.unplaced, MessageBody.addOption, List.map_cons, heq, heq']
  | skipped hs _ ih =>
    intro ts hts
    obtain ⟨us, vs, rfl, hus, hvs⟩ := map_lexeme_eq_append hts
    obtain ⟨b', hb, heq⟩ := ih vs hvs
    exact ⟨b', .skipped (hs.elsewhere hus) hb, heq⟩
  | field hf _ ih =>
    refine declares_append (placeFree_fieldStmt hf) ih fun hf' hb heq heq' => ⟨_, .field hf' hb, ?_⟩
    simp only [MessageBody.unplaced, MessageBody.mk.injEq] at heq'
    simp only [MessageBody.unplaced, MessageBody.addField, List.map_cons, heq, heq']

theorem placeFree_messageDecl : PlaceFree MessageDecl Message.unplaced := by
  intro us m h ts hts
  cases h with
  | intro hb =>
    simp only [List.map_cons, List.map_append, List.map_nil, map_lexeme_eq_cons,
      List.map_eq_append_iff, List.map_eq_nil_iff] at hts
    obtain ⟨p, _, rfl, p₁, _, rfl, p₂, _, rfl, us, _, rfl, hus, p₃, _, rfl, rfl⟩ := hts
    obtain ⟨b', hb', heq⟩ := placeFree_items hb us hus
    refine ⟨_, .intro hb', ?_⟩
    simp only [MessageBody.unplaced, MessageBody.mk.injEq] at heq
    simp only [Message.unplaced_eq, heq]

/-! ## Services -/

theorem placeFree_moreParams : PlaceFree MoreParams id := by
  intro us ps h
  induction h with
  | nil =>
    intro ts hts
    obtain rfl := List.map_eq_nil_iff.1 hts
    exact ⟨_, .nil, rfl⟩
  | cons hname _ ih =>
    intro ts hts
    simp only [List.map_cons, map_lexeme_eq_cons] at hts
    obtain ⟨p, _, rfl, p₁, us, rfl, hus⟩ := hts
    obtain ⟨_, hps, rfl⟩ := ih us hus
    exact ⟨_, .cons hname hps, rfl⟩

theorem RpcItems.elsewhere (h : RpcItems us) (hts : ts.map Token.lexeme = us.map Token.lexeme) :
    RpcItems ts := by
  induction h generalizing ts with
  | nil =>
    obtain rfl := List.map_eq_nil_iff.1 hts
    exact .nil
  | semi _ ih =>
    rw [List.map_cons, map_lexeme_eq_cons] at hts
    obtain ⟨p, vs, rfl, hvs⟩ := hts
    exact .semi (ih hvs)
  | option ho _ ih =>
    obtain ⟨us, vs, rfl, hus, hvs⟩ := map_lexeme_eq_append hts
    obtain ⟨_, ho', _⟩ := placeFree_optionStmt ho us hus
    exact .option ho' (ih hvs)

theorem RpcEnd.elsewhere (h : RpcEnd us) (hts : ts.map Token.lexeme = us.map Token.lexeme) :
    RpcEnd ts := by
  cases h with
  | semi =>
    simp only [List.map_cons, List.map_nil, map_lexeme_eq_cons, List.map_eq_nil_iff] at hts
    obtain ⟨p, _, rfl, rfl⟩ := hts
    exact .semi
  | block hitems =>
    simp only [List.map_cons, List.map_append, List.map_nil, map_lexeme_eq_cons,
      List.map_eq_append_iff, List.map_eq_nil_iff] at hts
    obtain ⟨p, _, rfl, us, _, rfl, hus, p₁, _, rfl, rfl⟩ := hts
    exact .block (hitems.elsewhere hus)

theorem placeFree_rpcDecl : PlaceFree RpcDecl Rpc.unplaced := by
  intro us r h ts hts
  cases h with
  | intro hparam hmore hresult hend =>
    simp only [List.map_cons, List.map_append, map_lexeme_eq_cons, List.map_eq_append_iff] at hts
    obtain ⟨p, _, rfl, p₁, _, rfl, p₂, _, rfl, p₃, _, rfl, us, _, rfl, hus, p₄, _, rfl, p₅, _, rfl,
      p₆, _, rfl, p₇, _, rfl, p₈, vs, rfl, hvs⟩ := hts
    obtain ⟨_, hmore', rfl⟩ := placeFree_moreParams hmore us hus
    exact ⟨_, .intro hparam hmore' hresult (hend.elsewhere hvs), rfl⟩

theorem placeFree_serviceItems : PlaceFree ServiceItems ServiceBody.unplaced := by
  intro us b h
  induction h with
  | nil =>
    intro ts hts
    obtain rfl := List.map_eq_nil_iff.1 hts
    exact ⟨_, .nil, rfl⟩
  | semi _ ih =>
    intro ts hts
    rw [List.map_cons, map_lexeme_eq_cons] at hts
    obtain ⟨p, vs, rfl, hvs⟩ := hts
    obtain ⟨b', hb, heq⟩ := ih vs hvs
    exact ⟨b', .semi hb, heq⟩
  | option ho _ ih =>
    refine declares_append (placeFree_optionStmt ho) ih fun ho' hb heq heq' => ⟨_, .option ho' hb, ?_⟩
    simp only [ServiceBody.unplaced, ServiceBody.mk.injEq] at heq'
    simp only [ServiceBody.unplaced, ServiceBody.addOption, List.map_cons, heq, heq']
  | rpc hr _ ih =>
    refine declares_append (placeFree_rpcDecl hr) ih fun hr' hb heq heq' => ⟨_, .rpc hr' hb, ?_⟩
    simp only [ServiceBody.unplaced, ServiceBody.mk.injEq] at heq'
    simp only [ServiceBody.unplaced, ServiceBody.addRpc, List.map_cons, heq, heq']

theorem placeFree_serviceDecl : PlaceFree ServiceDecl Service.unplaced := by
  intro us s h ts hts
  cases h with
  | intro hb =>
    simp only [List.map_cons, List.map_append, List.map_nil, map_lexeme_eq_cons,
      List.map_eq_append_iff, List.map_eq_nil_iff] at hts
    obtain ⟨p, _, rfl, p₁, _, rfl, p₂, _, rfl, us, _, rfl, hus, p₃, _, rfl, rfl⟩ := hts
    obtain ⟨b', hb', heq⟩ := placeFree_serviceItems hb us hus
    refine ⟨_, .intro hb', ?_⟩
    simp only [ServiceBody.unplaced, ServiceBody.mk.injEq] at heq
    simp only [Service.unplaced, heq]

/-! ## Schemas -/

theorem placeFree_statements : PlaceFree Statements Body.unplaced := by
  intro us b h
  induction h with
  | nil =>
    intro ts hts
    obtain rfl := List.map_eq_nil_iff.1 hts
    exact ⟨_, .nil, rfl⟩
  | semi _ ih =>
    intro ts hts
    rw [List.map_cons, map_lexeme_eq_cons] at hts
    obtain ⟨p, vs, rfl, hvs⟩ := hts
    obtain ⟨b', hb, heq⟩ := ih vs hvs
    exact ⟨b', .semi hb, heq⟩
  | package hp _ hnone ih =>
    refine declares_append (placeFree_packageStmt hp) ih fun hp' hb heq heq' => ?_
    simp only [Body.unplaced, Body.mk.injEq] at heq'
    refine ⟨_, .package hp' hb (heq'.1.trans hnone), ?_⟩
    simp only [id] at heq
    simp only [Body.unplaced, Body.setPackage, heq, heq']
  | importDecl hi _ ih =>
    refine declares_append (placeFree_importStmt hi) ih fun hi' hb heq heq' =>
      ⟨_, .importDecl hi' hb, ?_⟩
    simp only [Body.unplaced, Body.mk.injEq] at heq'
    simp only [Body.unplaced, Body.addImport, List.map_cons, heq, heq']
  | option ho _ ih =>
    refine declares_append (placeFree_optionStmt ho) ih fun ho' hb heq heq' => ⟨_, .option ho' hb, ?_⟩
    simp only [Body.unplaced, Body.mk.injEq] at heq'
    simp only [Body.unplaced, Body.addOption, List.map_cons, heq, heq']
  | message hm _ ih =>
    refine declares_append (placeFree_messageDecl hm) ih fun hm' hb heq heq' => ⟨_, .message hm' hb, ?_⟩
    simp only [Body.unplaced, Body.mk.injEq] at heq'
    simp only [Body.unplaced, Body.addMessage, List.map_cons, heq, heq']
  | service hs _ ih =>
    refine declares_append (placeFree_serviceDecl hs) ih fun hs' hb heq heq' => ⟨_, .service hs' hb, ?_⟩
    simp only [Body.unplaced, Body.mk.injEq] at heq'
    simp only [Body.unplaced, Body.addService, List.map_cons, heq, heq']

/-- Schemas with the same lexemes declare documents that are alike. -/
theorem Derives.elsewhere {source : Option String} {d : Document} (h : Derives source us d)
    (hts : ts.map Token.lexeme = us.map Token.lexeme) (source' : Option String) :
    ∃ d', Derives source' ts d' ∧ d.Alike d' := by
  cases h with
  | intro hb =>
    simp only [List.map_cons, map_lexeme_eq_cons] at hts
    obtain ⟨p, _, rfl, p₁, _, rfl, p₂, _, rfl, p₃, us, rfl, hus⟩ := hts
    obtain ⟨b', hb', heq⟩ := placeFree_statements hb us hus
    refine ⟨_, .intro hb', ?_⟩
    simp only [Body.unplaced, Body.mk.injEq] at heq
    simp only [Document.Alike, Document.unplaced, heq]

end Syntactic
end ProtoSchema
