import ProtoSchema.Proofs.Syntactic.Statements

/-!
# ProtoSchema.Proofs.Syntactic.Blocks

The productions with a body recognize what the syntactic grammar derives: messages, methods and
services. A body is read up to the brace that closes it, so its language is that of its items with
a brace behind them. The proofs are inductions on the budget.
-/

namespace ProtoSchema
namespace Syntactic

open Scan ProtoSchema.Parser

variable {σ : Type} [TokenSource σ] [LawfulTokenSource σ] {n : Nat}

/-! ## Messages -/

section Items

variable {F : Field → Prop} {M : Message → Prop} {ts us vs : List Token} {b : MessageBody}

/-- Fields that satisfy `F` and nested messages that satisfy `M`. -/
structure Keeps (F : Field → Prop) (M : Message → Prop) (b : MessageBody) : Prop where
  fields : ∀ f ∈ b.fields, F f
  nested : ∀ m ∈ b.nested, M m

/-- The items of a message and the brace that closes it, where the fields satisfy `F` and the nested
messages `M`. -/
def ClosedItems (F : Field → Prop) (M : Message → Prop) : Lang MessageBody :=
  fun ts b => ∃ us x, ts = us ++ [⟨.punct .rbrace, x⟩] ∧ Items us b ∧ Keeps F M b

theorem isSkipped_iff {t : Token} : isSkipped t = true ↔
    t.lexeme = .keyword .reservedWord ∨ t.lexeme = .keyword .extensionsWord := by
  simp [isSkipped]

theorem ClosedItems.nil (x : Position) : ClosedItems F M [⟨.punct .rbrace, x⟩] .empty :=
  ⟨[], x, rfl, .nil, by simp [MessageBody.empty], by simp [MessageBody.empty]⟩

theorem ClosedItems.semi {x : Position} (h : ClosedItems F M vs b) :
    ClosedItems F M (⟨.punct .semi, x⟩ :: vs) b := by
  obtain ⟨us, y, rfl, hitems, hkeeps⟩ := h
  exact ⟨⟨.punct .semi, x⟩ :: us, y, rfl, .semi hitems, hkeeps⟩

theorem ClosedItems.message {m : Message} (hm : MessageDecl us m) (hM : M m)
    (h : ClosedItems F M vs b) : ClosedItems F M (us ++ vs) (b.addNested m) := by
  obtain ⟨ws, y, rfl, hitems, hfields, hnested⟩ := h
  exact ⟨us ++ ws, y, (List.append_assoc ..).symm, .nest hm hitems, hfields,
    List.forall_mem_cons.2 ⟨hM, hnested⟩⟩

theorem ClosedItems.option {o : OptionDecl} (ho : OptionStmt us o) (h : ClosedItems F M vs b) :
    ClosedItems F M (us ++ vs) (b.addOption o) := by
  obtain ⟨ws, y, rfl, hitems, hfields, hnested⟩ := h
  exact ⟨us ++ ws, y, (List.append_assoc ..).symm, .option ho hitems, hfields, hnested⟩

theorem ClosedItems.skipped (hs : SkippedStmt us) (h : ClosedItems F M vs b) :
    ClosedItems F M (us ++ vs) b := by
  obtain ⟨ws, y, rfl, hitems, hkeeps⟩ := h
  exact ⟨us ++ ws, y, (List.append_assoc ..).symm, .skipped hs hitems, hkeeps⟩

theorem ClosedItems.field {f : Field} (hf : FieldStmt us f) (hF : F f) (h : ClosedItems F M vs b) :
    ClosedItems F M (us ++ vs) (b.addField f) := by
  obtain ⟨ws, y, rfl, hitems, hfields, hnested⟩ := h
  exact ⟨us ++ ws, y, (List.append_assoc ..).symm, .field hf hitems,
    List.forall_mem_cons.2 ⟨hF, hfields⟩, hnested⟩

/-- The field that the token `t` begins, and the items behind it. -/
def FieldItem (F : Field → Prop) (M : Message → Prop) (t : Token) : Lang MessageBody :=
  fun ts b => unsupportedOf? t = none ∧ Lang.seq (fun us f => FieldStmt (t :: us) f ∧ F f)
    (fun f => .map (MessageBody.addField f) (ClosedItems F M)) ts b

theorem closedItems_iff : Lang.token (fun t =>
    .cases (t.lexeme = .punct .rbrace) (.one .empty)
      (.cases (t.lexeme = .punct .semi) (ClosedItems F M)
        (.cases (t.lexeme = .keyword .messageWord)
          (.seq (fun us m => MessageDecl (t :: us) m ∧ M m) fun m =>
            .map (MessageBody.addNested m) (ClosedItems F M))
          (.cases (t.lexeme = .keyword .optionWord)
            (.seq (fun us o => OptionStmt (t :: us) o) fun o =>
              .map (MessageBody.addOption o) (ClosedItems F M))
            (.cases (isSkipped t = true) (.seq Skipped fun _ => ClosedItems F M)
              (FieldItem F M t)))))) ts b ↔ ClosedItems F M ts b := by
  constructor
  · rintro ⟨t, us, rfl, h⟩
    rcases h with ⟨ht, rfl, rfl⟩ | ⟨_, h⟩
    · obtain ⟨l, x⟩ := t
      cases ht
      exact .nil x
    rcases h with ⟨ht, h⟩ | ⟨_, h⟩
    · obtain ⟨l, x⟩ := t
      cases ht
      exact h.semi
    rcases h with ⟨_, m, us, vs, rfl, ⟨hm, hM⟩, rest, h, rfl⟩ | ⟨_, h⟩
    · exact .message hm hM h
    rcases h with ⟨_, o, us, vs, rfl, ho, rest, h, rfl⟩ | ⟨_, h⟩
    · exact .option ho h
    rcases h with ⟨ht, _, _, vs, rfl, ⟨us, x, rfl, hus⟩, h⟩ |
      ⟨_, _, f, us, vs, rfl, ⟨hf, hF⟩, rest, h, rfl⟩
    · exact .skipped (.intro (isSkipped_iff.1 ht) hus) h
    · exact .field hf hF h
  · rintro ⟨us, x, rfl, hitems, hfields, hnested⟩
    cases hitems with
    | nil => exact ⟨_, _, rfl, .inl ⟨rfl, rfl, rfl⟩⟩
    | semi hitems =>
      exact ⟨_, _, rfl, .inr ⟨by simp, .inl ⟨rfl, _, x, rfl, hitems, hfields, hnested⟩⟩⟩
    | @message us vs name inner b p p₁ p₂ p₃ hinner hitems =>
      have hm : MessageDecl _ _ := @MessageDecl.intro us name inner p p₁ p₂ p₃ hinner
      obtain ⟨hM, hnested⟩ := List.forall_mem_cons.1 hnested
      refine ⟨_, _, rfl, .inr ⟨by simp, .inr ⟨by simp, .inl ⟨rfl, _, _, _, ?_, ⟨hm, hM⟩, b,
        ⟨vs, x, rfl, hitems, hfields, hnested⟩, rfl⟩⟩⟩⟩
      simp
    | option ho hitems =>
      obtain ⟨t, us, rfl, ht⟩ := ho.head
      exact ⟨t, _, rfl, .inr ⟨by simp [ht], .inr ⟨by simp [ht], .inr ⟨by simp [ht], .inl ⟨ht, _, us,
        _, List.append_assoc .., ho, _, ⟨_, x, rfl, hitems, hfields, hnested⟩, rfl⟩⟩⟩⟩⟩
    | skipped hs hitems =>
      cases hs with
      | @intro t us p ht hus =>
        have hskip := isSkipped_iff.2 ht
        refine ⟨t, _, rfl, .inr ⟨?_, .inr ⟨?_, .inr ⟨?_, .inr ⟨?_, .inl ⟨hskip, (), _, _,
          List.append_assoc .., ⟨us, p, rfl, hus⟩, _, x, rfl, hitems, hfields, hnested⟩⟩⟩⟩⟩⟩
        all_goals rcases ht with ht | ht <;> simp [ht]
    | @field _ vs f b hf hitems =>
      obtain ⟨t, us, rfl, h₁, h₂, h₃, h₄, h₅, h₆⟩ := hf.head
      obtain ⟨hF, hfields⟩ := List.forall_mem_cons.1 hfields
      exact ⟨t, _, rfl, .inr ⟨h₁, .inr ⟨h₂, .inr ⟨h₃, .inr ⟨h₄, .inr ⟨h₅, h₆, f, us, _,
        List.append_assoc .., ⟨hf, hF⟩, b, ⟨vs, x, rfl, hitems, hfields, hnested⟩, rfl⟩⟩⟩⟩⟩⟩

/-- A message declares what its items declare; `D` is what is asked of its fields together. -/
theorem messageDecl_iff {D : List Field → Prop} {p : Position} {m : Message} :
    Lang.ident (fun name => .mark .lbrace (.seq (ClosedItems F M) fun b =>
      .seq (fun us (_ : Unit) => us = [] ∧ D b.fields) fun _ =>
        .one (⟨name, b.fields, b.nested, b.options, p⟩ : Message))) ts m ↔
      MessageDecl (⟨.keyword .messageWord, p⟩ :: ts) m ∧
        ((∀ f ∈ m.fields, F f) ∧ D m.fields) ∧ ∀ c ∈ m.nested, M c := by
  constructor
  · rintro ⟨name, p₁, _, rfl, p₂, _, rfl, b, _, _, rfl, ⟨us, p₃, rfl, hitems, hkeeps⟩, _, _, _, rfl,
      ⟨rfl, hd⟩, rfl, rfl⟩
    rw [List.append_nil, List.append_nil]
    exact ⟨.intro hitems, ⟨hkeeps.fields, hd⟩, hkeeps.nested⟩
  · rintro ⟨⟨hitems⟩, ⟨hfields, hd⟩, hnested⟩
    exact ⟨_, _, _, rfl, _, _, rfl, _, _, [], (List.append_nil _).symm,
      ⟨_, _, rfl, hitems, hfields, hnested⟩, (), [], [], rfl, ⟨rfl, hd⟩, rfl, rfl⟩

end Items

/-- The items of a message that keep the rules about declarations. -/
abbrev ValidItems : Lang MessageBody := ClosedItems Field.Valid (Message.Everywhere Message.Valid)

omit [LawfulTokenSource σ] in
theorem recognizes_checkFields (message : String) (fs : List Field) :
    Recognizes n (checkFields message fs : Scan σ Unit) fun ts _ => ts = [] ∧ Distinct fs := by
  unfold checkFields
  cases h : firstClash? message [] fs with
  | none =>
    have hd := firstClash?_nil_eq_none_iff.1 h
    exact (recognizes_pure ()).congr fun ts u => by simp [hd]
  | some e =>
    refine (recognizes_throw _).congr fun ts u => ?_
    constructor
    · exact False.elim
    · rintro ⟨_, hd⟩
      rw [firstClash?_nil_eq_none_iff.2 hd] at h
      cases h

theorem recognizes_messageWith {body : Scan σ MessageBody} (hbody : Recognizes n body ValidItems)
    {start : Token} (hstart : start.lexeme = .keyword .messageWord) :
    Recognizes n (messageWith body start)
      fun ts m => MessageDecl (start :: ts) m ∧ m.Everywhere Message.Valid := by
  obtain ⟨l, p⟩ := start
  cases hstart
  refine (recognizes_ident_bind fun name => recognizes_punct_bind .lbrace
    (recognizes_bind hbody fun b => recognizes_bind (recognizes_checkFields name b.fields) fun _ =>
      recognizes_pure (⟨name, b.fields, b.nested, b.options, p⟩ : Message))).congr fun ts m => ?_
  rw [Message.everywhere_iff, Message.valid_iff]
  exact messageDecl_iff

theorem recognizes_fieldItem (t : Token) {body : Scan σ MessageBody}
    (hbody : Recognizes n body ValidItems) : Recognizes n
    (match unsupportedOf? t with
      | some u => refuse (.unsupported u) t.position
      | none => do
        let f ← field n t
        let rest ← body
        pure (rest.addField f) : Scan σ MessageBody)
    (FieldItem Field.Valid (Message.Everywhere Message.Valid) t) := by
  cases h : unsupportedOf? t with
  | some u => exact (recognizes_refuse _ _).congr fun ts b => by simp [FieldItem, h]
  | none =>
    exact (recognizes_bind (recognizes_field t) fun f =>
      recognizes_map (MessageBody.addField f) hbody).congr fun ts b => by simp [FieldItem, h]

theorem recognizes_messageBody (n : Nat) :
    Recognizes n (messageBody n : Scan σ MessageBody) ValidItems := by
  induction n with
  | zero => exact recognizes_zero
  | succ n ih =>
    unfold messageBody
    exact (recognizes_require_bind fun t =>
      recognizes_ite (fun _ => recognizes_pure MessageBody.empty) fun _ =>
      recognizes_ite (fun _ => ih) fun _ =>
      recognizes_ite (fun ht => recognizes_bind (recognizes_messageWith ih ht) fun m =>
        recognizes_map (MessageBody.addNested m) ih) fun _ =>
      recognizes_ite (fun ht => recognizes_bind (recognizes_optionDecl ht) fun o =>
        recognizes_map (MessageBody.addOption o) ih) fun _ =>
      recognizes_ite (fun _ => recognizes_bind (recognizes_skipStatement n) fun _ => ih) fun _ =>
        recognizes_fieldItem t ih).congr fun _ _ => closedItems_iff

theorem recognizes_message {start : Token} (hstart : start.lexeme = .keyword .messageWord) :
    Recognizes n (message n start : Scan σ Message)
      fun ts m => MessageDecl (start :: ts) m ∧ m.Everywhere Message.Valid :=
  recognizes_messageWith (recognizes_messageBody n) hstart

/-! ## Methods -/

/-- Further parameters of a method and the parenthesis that closes them. -/
def ClosedParams : Lang (List String) :=
  fun ts ps => ∃ us x, ts = us ++ [⟨.punct .rparen, x⟩] ∧ MoreParams us ps

theorem closedParams_iff {ts : List Token} {ps : List String} :
    Lang.either .comma .rparen (fun more => .cases (more = true)
      (.reference fun p => .map (List.cons p) ClosedParams) (.one [])) ts ps ↔ ClosedParams ts ps := by
  constructor
  · rintro ⟨x, _, ⟨rfl, h⟩ | ⟨rfl, h⟩⟩
    · rcases h with ⟨_, l, ss, y, _, rfl, hl, rest, ⟨vs, z, rfl, hvs⟩, rfl⟩ | ⟨h, _⟩
      · exact ⟨_, z, rfl, .cons hl hvs⟩
      · exact absurd rfl h
    · rcases h with ⟨h, _⟩ | ⟨_, rfl, rfl⟩
      · cases h
      · exact ⟨[], x, rfl, .nil⟩
  · rintro ⟨us, x, rfl, h⟩
    cases h with
    | nil => exact ⟨x, [], .inr ⟨rfl, .inr ⟨Bool.false_ne_true, rfl, rfl⟩⟩⟩
    | cons hl h =>
      exact ⟨_, _, .inl ⟨rfl, .inl ⟨rfl, _, _, _, _, rfl, hl, _, ⟨_, x, rfl, h⟩, rfl⟩⟩⟩

theorem recognizes_moreParams (n : Nat) :
    Recognizes n (moreParams n : Scan σ (List String)) ClosedParams := by
  induction n with
  | zero => exact recognizes_zero
  | succ n ih =>
    unfold moreParams
    exact (recognizes_either_bind (by decide) fun _ => recognizes_ite
      (fun _ => recognizes_reference_bind fun p => recognizes_map (List.cons p) ih)
      fun _ => recognizes_pure []).congr fun _ _ => closedParams_iff

/-- The items of a method and the brace that closes it. -/
def ClosedRpcItems : Lang Unit := fun ts _ => ∃ us x, ts = us ++ [⟨.punct .rbrace, x⟩] ∧ RpcItems us

theorem closedRpcItems_iff {ts : List Token} {u : Unit} :
    Lang.token (fun t => .cases (t.lexeme = .punct .rbrace) (.one ())
      (.cases (t.lexeme = .keyword .optionWord)
        (.seq (fun us o => OptionStmt (t :: us) o) fun _ => ClosedRpcItems)
        (.cases (t.lexeme = .punct .semi) ClosedRpcItems .empty))) ts u ↔ ClosedRpcItems ts u := by
  constructor
  · rintro ⟨t, _, rfl, h⟩
    rcases h with ⟨ht, rfl, rfl⟩ | ⟨_, h⟩
    · obtain ⟨l, x⟩ := t
      cases ht
      exact ⟨[], x, rfl, .nil⟩
    rcases h with ⟨_, o, us, _, rfl, ho, vs, x, rfl, h⟩ | ⟨_, h⟩
    · exact ⟨t :: us ++ vs, x, (List.append_assoc (t :: us) vs _).symm, .option ho h⟩
    rcases h with ⟨ht, us, x, rfl, h⟩ | ⟨_, h⟩
    · obtain ⟨l, y⟩ := t
      cases ht
      exact ⟨_, x, rfl, .semi h⟩
    · exact h.elim
  · rintro ⟨us, x, rfl, h⟩
    cases h with
    | nil => exact ⟨_, _, rfl, .inl ⟨rfl, rfl, rfl⟩⟩
    | semi h => exact ⟨_, _, rfl, .inr ⟨by simp, .inr ⟨by simp, .inl ⟨rfl, _, x, rfl, h⟩⟩⟩⟩
    | option ho h =>
      obtain ⟨t, us, rfl, ht⟩ := ho.head
      exact ⟨t, _, rfl, .inr ⟨by simp [ht], .inl ⟨ht, _, us, _, List.append_assoc .., ho, _, x, rfl,
        h⟩⟩⟩

theorem recognizes_rpcBody (method : String) (n : Nat) :
    Recognizes n (rpcBody method n : Scan σ Unit) ClosedRpcItems := by
  induction n with
  | zero => exact recognizes_zero
  | succ n ih =>
    unfold rpcBody
    exact (recognizes_require_bind fun t =>
      recognizes_ite (fun _ => recognizes_pure ()) fun _ =>
      recognizes_ite (fun ht => recognizes_bind (recognizes_optionDecl ht) fun _ => ih) fun _ =>
      recognizes_ite (fun _ => ih) fun _ => recognizes_throw _).congr fun _ _ => closedRpcItems_iff

/-- The word `returns`, as the parser reads it. -/
theorem returnsWord_iff {ts : List Token} {u : Unit} :
    Lang.taken (fun t => if [Kind.ident].contains t.lexeme.kind then some t else none)
      (fun t => .cases (t.lexeme = .ident "returns") (.one ()) .empty) ts u ↔
        ∃ x, ts = [⟨.ident "returns", x⟩] := by
  constructor
  · rintro ⟨⟨l, x⟩, _, t, rfl, ht, ⟨hl, rfl, _⟩ | ⟨_, h⟩⟩
    · simp only [Option.ite_none_right_eq_some, Option.some.injEq] at ht
      obtain ⟨_, rfl⟩ := ht
      cases hl
      exact ⟨x, rfl⟩
    · exact h.elim
  · rintro ⟨x, rfl⟩
    exact ⟨_, [], _, rfl, rfl, .inl ⟨rfl, rfl, rfl⟩⟩

theorem recognizes_returnsWord :
    Recognizes n (returnsWord : Scan σ Unit) fun ts _ => ∃ x, ts = [⟨.ident "returns", x⟩] :=
  (recognizes_accept_bind fun _ => recognizes_ite (fun _ => recognizes_pure ())
    fun _ => recognizes_none fun s a s' h => by cases h).step.congr fun _ _ => returnsWord_iff

/-- What a method has behind its result: nothing more where a semicolon has closed it, else a block. -/
abbrev RpcTail (closed : Bool) (r : Rpc) : Lang Rpc :=
  .cases (closed = true) (.one r) (.map (fun _ => r) ClosedRpcItems)

theorem rpcDecl_iff {p : Position} {ts : List Token} {r : Rpc} :
    Lang.ident (fun name => .mark .lparen (.reference fun first => .seq ClosedParams fun more =>
      .seq (fun us (_ : Unit) => ∃ x, us = [⟨.ident "returns", x⟩]) fun _ => .mark .lparen
        (.reference fun result => .mark .rparen (.either .semi .lbrace fun closed =>
          RpcTail closed ⟨name, first :: more, result, p⟩)))) ts r ↔
      RpcDecl (⟨.ident "rpc", p⟩ :: ts) r := by
  constructor
  · rintro ⟨name, p₁, _, rfl, p₂, _, rfl, l, ss, p₃, _, rfl, hl, more, _, _, rfl,
      ⟨us, p₄, rfl, hmore⟩, _, _, _, rfl, ⟨p₅, rfl⟩, p₆, _, rfl, r, rs, p₇, _, rfl, hr, p₈, _, rfl,
      p₉, _, h⟩
    rw [List.append_assoc]
    rcases h with ⟨rfl, ⟨_, rfl, rfl⟩ | ⟨h, _⟩⟩ | ⟨rfl, ⟨h, _⟩ | ⟨_, _, ⟨vs, x, rfl, hvs⟩, rfl⟩⟩
    · exact .intro hl hmore hr .semi
    · exact absurd rfl h
    · cases h
    · exact .intro hl hmore hr (.block hvs)
  · rintro ⟨hl, hmore, hr, hend⟩
    refine ⟨_, _, _, rfl, _, _, rfl, _, _, _, _, rfl, hl, _, _, _, List.append_cons ..,
      ⟨_, _, rfl, hmore⟩, (), [_], _, rfl, ⟨_, rfl⟩, _, _, rfl, _, _, _, _, rfl, hr, _, _, rfl, ?_⟩
    cases hend with
    | semi => exact ⟨_, _, .inl ⟨rfl, .inl ⟨rfl, rfl, rfl⟩⟩⟩
    | block h => exact ⟨_, _, .inr ⟨rfl, .inr ⟨Bool.false_ne_true, (), ⟨_, _, rfl, h⟩, rfl⟩⟩⟩

theorem recognizes_rpc {start : Token} (hstart : start.lexeme = .ident "rpc") :
    Recognizes n (rpc n start : Scan σ Rpc) fun ts r => RpcDecl (start :: ts) r := by
  obtain ⟨l, p⟩ := start
  cases hstart
  have tail (name : String) (r : Rpc) (closed : Bool) : Recognizes n
      (if closed = true then pure r
        else do
          rpcBody name n
          pure r : Scan σ Rpc) (RpcTail closed r) :=
    recognizes_ite (fun _ => recognizes_pure r) fun _ =>
      recognizes_map (fun _ => r) (recognizes_rpcBody name n)
  unfold rpc
  exact (recognizes_ident_bind fun name => recognizes_punct_bind .lparen
    (recognizes_reference_bind fun first => recognizes_bind (recognizes_moreParams n) fun more =>
      recognizes_bind recognizes_returnsWord fun _ => recognizes_punct_bind .lparen
        (recognizes_reference_bind fun result => recognizes_punct_bind .rparen
          (recognizes_either_bind (by decide)
            (tail name ⟨name, first :: more, result, p⟩)).step))).congr fun _ _ => rpcDecl_iff

/-! ## Services -/

/-- The items of a service and the brace that closes it. -/
def ClosedServiceItems : Lang ServiceBody :=
  fun ts b => ∃ us x, ts = us ++ [⟨.punct .rbrace, x⟩] ∧ ServiceItems us b

theorem closedServiceItems_iff {ts : List Token} {b : ServiceBody} :
    Lang.token (fun t => .cases (t.lexeme = .punct .rbrace) (.one .empty)
      (.cases (t.lexeme = .punct .semi) ClosedServiceItems
        (.cases (t.lexeme = .keyword .optionWord) (.seq (fun us o => OptionStmt (t :: us) o) fun o =>
            .map (ServiceBody.addOption o) ClosedServiceItems)
          (.cases (t.lexeme = .ident "rpc") (.seq (fun us r => RpcDecl (t :: us) r) fun r =>
            .map (ServiceBody.addRpc r) ClosedServiceItems) .empty)))) ts b ↔
      ClosedServiceItems ts b := by
  constructor
  · rintro ⟨t, _, rfl, h⟩
    rcases h with ⟨ht, rfl, rfl⟩ | ⟨_, h⟩
    · obtain ⟨l, x⟩ := t
      cases ht
      exact ⟨[], x, rfl, .nil⟩
    rcases h with ⟨ht, us, x, rfl, h⟩ | ⟨_, h⟩
    · obtain ⟨l, y⟩ := t
      cases ht
      exact ⟨_, x, rfl, .semi h⟩
    rcases h with ⟨_, o, us, _, rfl, ho, rest, ⟨vs, x, rfl, h⟩, rfl⟩ | ⟨_, h⟩
    · exact ⟨t :: us ++ vs, x, (List.append_assoc (t :: us) vs _).symm, .option ho h⟩
    rcases h with ⟨_, r, us, _, rfl, hr, rest, ⟨vs, x, rfl, h⟩, rfl⟩ | ⟨_, h⟩
    · exact ⟨t :: us ++ vs, x, (List.append_assoc (t :: us) vs _).symm, .rpc hr h⟩
    · exact h.elim
  · rintro ⟨us, x, rfl, h⟩
    cases h with
    | nil => exact ⟨_, _, rfl, .inl ⟨rfl, rfl, rfl⟩⟩
    | semi h => exact ⟨_, _, rfl, .inr ⟨by simp, .inl ⟨rfl, _, x, rfl, h⟩⟩⟩
    | option ho h =>
      obtain ⟨t, us, rfl, ht⟩ := ho.head
      exact ⟨t, _, rfl, .inr ⟨by simp [ht], .inr ⟨by simp [ht], .inl ⟨ht, _, us, _,
        List.append_assoc .., ho, _, ⟨_, x, rfl, h⟩, rfl⟩⟩⟩⟩
    | rpc hr h =>
      obtain ⟨t, us, rfl, ht⟩ := hr.head
      exact ⟨t, _, rfl, .inr ⟨by simp [ht], .inr ⟨by simp [ht], .inr ⟨by simp [ht], .inl ⟨ht, _, us,
        _, List.append_assoc .., hr, _, ⟨_, x, rfl, h⟩, rfl⟩⟩⟩⟩⟩

theorem recognizes_serviceBody (service : String) (n : Nat) :
    Recognizes n (serviceBody service n : Scan σ ServiceBody) ClosedServiceItems := by
  induction n with
  | zero => exact recognizes_zero
  | succ n ih =>
    unfold serviceBody
    exact (recognizes_require_bind fun t =>
      recognizes_ite (fun _ => recognizes_pure ServiceBody.empty) fun _ =>
      recognizes_ite (fun _ => ih) fun _ =>
      recognizes_ite (fun ht => recognizes_bind (recognizes_optionDecl ht) fun o =>
        recognizes_map (ServiceBody.addOption o) ih) fun _ =>
      recognizes_ite (fun ht => recognizes_bind (recognizes_rpc ht) fun r =>
        recognizes_map (ServiceBody.addRpc r) ih) fun _ =>
          recognizes_throw _).congr fun _ _ => closedServiceItems_iff

theorem serviceDecl_iff {p : Position} {ts : List Token} {s : Service} :
    Lang.ident (fun name => .mark .lbrace (.map
      (fun b => (⟨name, b.rpcs, b.options, p⟩ : Service)) ClosedServiceItems)) ts s ↔
      ServiceDecl (⟨.keyword .serviceWord, p⟩ :: ts) s := by
  constructor
  · rintro ⟨name, p₁, _, rfl, p₂, _, rfl, b, ⟨us, p₃, rfl, h⟩, rfl⟩
    exact .intro h
  · rintro ⟨h⟩
    exact ⟨_, _, _, rfl, _, _, rfl, _, ⟨_, _, rfl, h⟩, rfl⟩

theorem recognizes_service {start : Token} (hstart : start.lexeme = .keyword .serviceWord) :
    Recognizes n (service n start : Scan σ Service) fun ts s => ServiceDecl (start :: ts) s := by
  obtain ⟨l, p⟩ := start
  cases hstart
  have body (name : String) : Recognizes n (serviceBody name n : Scan σ ServiceBody) _ :=
    recognizes_serviceBody name n
  exact (recognizes_ident_bind fun name => recognizes_punct_bind .lbrace (recognizes_map
    (fun b => (⟨name, b.rpcs, b.options, p⟩ : Service)) (body name))).congr fun _ _ => serviceDecl_iff

end Syntactic
end ProtoSchema
