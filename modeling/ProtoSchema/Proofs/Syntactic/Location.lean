import ProtoSchema.Proofs.Printing.Spelling
import ProtoSchema.Proofs.Syntactic.Locator
import ProtoSchema.Proofs.Syntactic.Schema

/-!
# ProtoSchema.Proofs.Syntactic.Location

The productions find the first error with respect to the syntactic grammar. The rules about field
numbers, clashing fields and map keys are no part of it, so a production may also stop because one of
them is broken, whatever follows.
-/

namespace ProtoSchema
namespace Syntactic

open Scan ProtoSchema.Parser

variable {σ β : Type} [TokenSource σ] [PlainTokenSource σ] {x : Extent} {n : Nat}

/-! ## Terminals -/

theorem readable_keyword (k : Keyword) : Lexical.Readable (.keyword k) :=
  (Printing.opens_keyword k).readable

/-- The word that introduces a method serves as any name. -/
theorem readable_rpc : Lexical.Readable (.ident "rpc") :=
  (Printing.opens_ident Lexical.isPlainName_rpc).readable

theorem readable_text (s : String) : Lexical.Readable (.text s) :=
  (Printing.spells_literal s).opens.readable

section Terminals

variable {p : Scan σ β} {f : String → Scan σ β} {G : Lang β} {K : String → Lang β}

theorem locates_taken {α : Type} {what : Demand} {read : Token → Option α} {f : α → Scan σ β}
    {K : α → Lang β} (hf : ∀ a, Locates x n (f a) (K a)) {l : Lexeme} (hl : Lexical.Readable l) {a : α}
    (ha : read ⟨l, .first⟩ = some a) : Locates x (n + 1) (accept what read >>= f) (.taken read K) :=
  locates_accept_bind (fun _ a _ => .locates (hf a)) ⟨⟨l, .first⟩, a, hl, ha, (hf a).inhabited⟩

/-- The budget of what follows a mark may be smaller by one. -/
theorem locates_punct_bind_succ (q : Punct) (h : Locates x n p G) :
    Locates x (n + 1) (punct q >>= fun _ => p) (.mark q G) :=
  (locates_taken (fun _ => h) (Lexical.readable_punct q) (if_pos rfl)).congr fun _ _ => taken_mark

theorem locates_punct_bind (q : Punct) (h : Locates x n p G) :
    Locates x n (punct q >>= fun _ => p) (.mark q G) :=
  (locates_punct_bind_succ q h).step

theorem locates_keyword_bind (k : Keyword) (h : Locates x n p G) :
    Locates x n (keyword k >>= fun _ => p) (.keyword k G) :=
  (locates_taken (fun _ => h) (readable_keyword k) (if_pos rfl)).step.congr
    fun _ _ => taken_keyword

theorem locates_ident_bind (h : ∀ m, Locates x n (f m) (K m)) :
    Locates x n (ident >>= f) (.ident K) :=
  (locates_taken h readable_rpc rfl).step.congr fun _ _ => taken_ident

theorem locates_name_bind (what : String) (h : ∀ m, Locates x n (f m) (K m)) :
    Locates x n (name what >>= f) (.name K) :=
  (locates_taken h readable_rpc rfl).step.congr fun _ _ => taken_name

theorem locates_segments_bind {f : List String → Scan σ β} {K : List String → Lang β}
    (h : ∀ ss, Locates x n (f ss) (K ss)) : Locates x n (segments >>= f) (.segments K) :=
  (locates_taken h readable_rpc rfl).step.congr fun _ _ => taken_segments

theorem locates_reference_bind (h : ∀ m, Locates x n (f m) (K m)) :
    Locates x n (reference >>= f) (.reference K) := by
  rw [reference_bind_eq]
  exact locates_segments_bind fun ss => h (".".intercalate ss)

theorem locates_number_bind {f : Nat × Position → Scan σ β} {K : Nat × Position → Lang β}
    (h : ∀ m, Locates x n (f m) (K m)) : Locates x n (number >>= f) (.number K) :=
  (locates_taken h (Printing.opens_number (n := 0) (by decide)).readable rfl).step.congr
    fun _ _ => taken_number

theorem locates_either_bind {p q : Punct} (hpq : p ≠ q) {f : Bool → Scan σ β} {K : Bool → Lang β}
    (h : ∀ first, Locates x n (f first) (K first)) :
    Locates x (n + 1) (either p q >>= f) (.either p q K) :=
  (locates_taken h (Lexical.readable_punct p) (if_pos rfl)).congr fun _ _ => taken_either hpq

end Terminals

/-! ## Options, packages and imports -/

theorem locates_optionDecl {start : Token} (hstart : start.lexeme = .keyword .optionWord) :
    Locates .part n (optionDecl start : Scan σ OptionDecl) fun ts o => OptionStmt (start :: ts) o := by
  obtain ⟨l, p⟩ := start
  cases hstart
  exact (locates_reference_bind fun name => locates_punct_bind .equals
    (locates_taken (fun value => locates_punct_bind .semi
      (locates_pure (⟨name, value, p⟩ : OptionDecl))) (readable_text "") rfl).step).congr
        fun _ _ => optionStmt_iff

theorem locates_package {start : Token} (hstart : start.lexeme = .keyword .packageWord) :
    Locates .part n (package : Scan σ (List String)) fun ts ss => PackageStmt (start :: ts) ss := by
  obtain ⟨l, p⟩ := start
  cases hstart
  exact (locates_segments_bind fun ss => locates_punct_bind .semi
    (locates_pure ss)).congr fun _ _ => packageStmt_iff

theorem locatesFrom_importPath (kind : ImportKind) (p : Position) (t : Token) : LocatesFrom t .part n
    (match t.lexeme with
      | .text path => do
        punct .semi
        pure ⟨path, kind, p⟩
      | _ => refuseToken (.phrase "import path string") t : Scan σ ImportDecl)
    (ImportPath kind p t) := by
  split
  · next path hl =>
    exact .locates ((locates_punct_bind .semi (locates_pure _)).congr fun _ _ => importPath_iff hl)
  · next hl =>
    exact (locatesFrom_refuse rfl).congr fun _ _ => (iff_false_intro (importPath_empty hl)).symm

theorem locates_importDecl {start : Token} (hstart : start.lexeme = .keyword .importWord) :
    Locates .part n (importDecl start : Scan σ ImportDecl) fun ts i => ImportStmt (start :: ts) i := by
  obtain ⟨l, p⟩ := start
  cases hstart
  have path (kind : ImportKind) (t : Token) := locatesFrom_importPath (σ := σ) (n := n) kind p t
  have hpath (kind : ImportKind) : Completable (ImportPath kind p ⟨.text "", .first⟩) [] :=
    completable_of_mark .semi ⟨"", .first, rfl, rfl, rfl⟩
  refine (locates_require_bind (fun t => locatesFrom_ite
    (fun _ => locatesFrom_pure_bind (path (importKindOf t) t))
    (fun _ => .locates (locates_require_bind (path (importKindOf t))
      ⟨_, readable_text "", hpath _⟩).step)) ?_).step.congr fun _ _ => importStmt_iff
  obtain ⟨vs, i, hvs, hi⟩ := hpath .plain
  exact ⟨_, readable_text "", vs, i, hvs, .inl ⟨rfl, _, [], _, rfl, ⟨rfl, rfl⟩, hi⟩⟩

/-! ## Fields -/

/-- Types whose map keys may be of any type. -/
abbrev AnyTypeFrom : Token → Lang FieldType := TypeFrom fun _ => True

theorem completable_typeFrom : Completable (AnyTypeFrom ⟨.ident "rpc", .first⟩) [] :=
  .of_word ⟨.named, trivial⟩

theorem locates_mapTypeWith {type : Token → Scan σ FieldType} {p : Position}
    (h : ∀ t, LocatesFrom t .part n (type t) (AnyTypeFrom t)) :
    Locates .part (n + 1) (mapTypeWith type) (AnyTypeFrom ⟨.keyword .mapWord, p⟩) := by
  have close (key value : FieldType) : Locates .part n
      (do
        punct .rangle
        pure (.map key value) : Scan σ FieldType) (.mark .rangle (.one (.map key value))) :=
    locates_punct_bind .rangle (locates_pure _)
  have value (key : FieldType) : Locates .part n
      (do
        punct .comma
        let v ← require (.phrase "map value type")
        let value ← type v
        punct .rangle
        pure (.map key value) : Scan σ FieldType) _ :=
    locates_punct_bind .comma (locates_require_bind (fun v => (h v).bind (close key))
      ⟨_, readable_rpc, completable_typeFrom.seq fun value => (close key value).inhabited⟩).step
  refine (locates_punct_bind_succ .langle (locates_require_bind
    (fun k => (h k).bind fun key => (value key).guard (.key key))
    ⟨_, readable_rpc, completable_typeFrom.seq fun key => (value key).inhabited⟩).step).congr
      fun ts type => ?_
  refine Iff.trans ?_ (typeFrom_map_iff (C := fun _ => True) fun _ _ => by simp)
  simp

theorem locatesFrom_fieldType (n : Nat) (t : Token) :
    LocatesFrom t .part n (fieldType n t : Scan σ FieldType) (AnyTypeFrom t) := by
  induction n generalizing t with
  | zero => exact locatesFrom_zero
  | succ n ih =>
    obtain ⟨l, p⟩ := t
    -- a token that begins no type
    have none (h : ∀ ts type, ¬ TypeOf (⟨l, p⟩ :: ts) type) :
        LocatesFrom ⟨l, p⟩ .part (n + 1) (refuseToken (.phrase "field type") ⟨l, p⟩ : Scan σ FieldType)
          (AnyTypeFrom ⟨l, p⟩) :=
      (locatesFrom_refuse rfl).congr fun ts type => by simp [h ts type]
    cases l with
    | ident m =>
      exact .locates ((locates_pure (FieldType.named m)).congr fun _ _ => typeFrom_ident_iff trivial)
    | dotted ss =>
      exact .locates ((locates_pure (FieldType.dotted ss)).congr fun _ _ => typeFrom_dotted_iff trivial)
    | keyword k =>
      cases k with
      | scalar s =>
        exact .locates ((locates_pure (FieldType.scalar s)).congr fun _ _ =>
          typeFrom_scalar_iff trivial)
      | mapWord => exact .locates (locates_mapTypeWith ih)
      | _ => exact none fun ts type h => by cases h
    | _ => exact none fun ts type h => by cases h

theorem locates_behindType (type : FieldType) (repeated : Bool) : Locates .part n
    (do
      let name ← name "field name"
      punct .equals
      let (m, x) ← number
      punct .semi
      pure (type, name, m, x, repeated) :
        Scan σ (FieldType × String × Nat × Position × Bool)) (BehindType type repeated) :=
  locates_name_bind "field name" fun name => locates_punct_bind .equals
    (locates_number_bind fun m => locates_punct_bind .semi
      (locates_pure (type, name, m.1, m.2, repeated)))

theorem locatesFrom_typedField (t : Token) (repeated : Bool) : LocatesFrom t .part n
    (do
      let type ← fieldType n t
      let name ← name "field name"
      punct .equals
      let (m, x) ← number
      punct .semi
      pure (type, name, m, x, repeated) :
        Scan σ (FieldType × String × Nat × Position × Bool)) (TypedField (fun _ => True) t repeated) :=
  (locatesFrom_fieldType n t).bind fun type => locates_behindType type repeated

theorem locatesFrom_fieldSyntax (start : Token) : LocatesFrom start .part n
    (fieldSyntax n start : Scan σ (FieldType × String × Nat × Position × Bool))
      (FieldSyntax (fun _ => True) start) := by
  by_cases hstart : start.lexeme = .keyword .repeatedWord
  · unfold fieldSyntax
    simp only [hstart, if_true, beq_self_eq_true]
    refine .locates ((locates_require_bind (fun t => locatesFrom_typedField t true) ?_).step.congr
      fun ts r => by simp [FieldSyntax, hstart])
    exact ⟨_, readable_rpc, completable_typeFrom.seq fun type =>
      (locates_behindType (σ := σ) (n := n) type true).inhabited⟩
  · have hb : (start.lexeme == .keyword .repeatedWord) = false := by simpa using hstart
    unfold fieldSyntax
    simp only [hb, Bool.false_eq_true, if_false, pure_bind]
    exact (locatesFrom_typedField start false).congr fun ts r => by simp [FieldSyntax, hstart]

theorem locatesFrom_field (start : Token) : LocatesFrom start .part n
    (field n start : Scan σ Field) fun ts f => FieldStmt (start :: ts) f ∧ True := by
  unfold field
  exact ((locatesFrom_fieldSyntax start).inField.bind fun r =>
    (locates_pure (⟨r.1, r.2.1, r.2.2.1, r.2.2.2.2, start.position⟩ : Field)).guard
      (.number r.2.2.1)).congr fun _ _ => fieldStmt_iff

/-! ## Statements that are forgotten -/

theorem locates_skipStatement (n : Nat) : Locates .part n (skipStatement n : Scan σ Unit) Skipped := by
  have hmark : Completable Skipped [] :=
    completable_of_mark (a := ()) .semi ⟨[], .first, rfl, by simp⟩
  induction n with
  | zero => exact locates_zero hmark
  | succ n ih =>
    unfold skipStatement
    refine (locates_require_bind (fun t => locatesFrom_ite (fun _ => .locates (locates_pure ()))
      (fun _ => .locates ih)) ?_).congr fun _ _ => skipped_iff
    exact ⟨⟨.punct .semi, .first⟩, Lexical.readable_punct .semi, .of_word (.inl ⟨rfl, rfl, rfl⟩)⟩

/-! ## The first statement -/

theorem locatesFrom_knownDialect (t : Token) (r : String × Position) (hr : r.2 = t.position) :
    LocatesFrom t .part n
      (match Dialect.ofWord? r.1 with
        | some d => do
          punct .semi
          pure d
        | none => refuse (.unknownDialect r.1) r.2 : Scan σ Dialect)
      (DialectRest r) := by
  cases h : Dialect.ofWord? r.1 with
  | some d =>
    exact .locates ((locates_punct_bind .semi (locates_pure d)).congr fun _ _ => dialectRest_iff h)
  | none =>
    rw [hr]
    exact (locatesFrom_refuse rfl).congr fun _ _ => (iff_false_intro (dialectRest_empty h)).symm

theorem position_of_textOf? {t : Token} {r : String × Position} (h : textOf? t = some r) :
    r.2 = t.position := by
  unfold textOf? at h
  split at h
  · cases h
    rfl
  · cases h

theorem locates_dialect : Locates .part n (dialect : Scan σ Dialect) DialectStmt := by
  refine (locates_keyword_bind .syntaxWord (locates_punct_bind .equals
    (locates_accept_bind (fun t r h => locatesFrom_knownDialect t r (position_of_textOf? h))
      ?_).step)).congr fun _ _ => dialectStmt_iff
  exact ⟨⟨.text "proto3", .first⟩, _, readable_text "proto3", rfl,
    completable_of_mark (a := .proto3) .semi ⟨rfl, .first, rfl⟩⟩

/-! ## Messages -/

/-- The items of a message, whatever they declare. -/
abbrev AnyItems : Lang MessageBody := ClosedItems (fun _ => True) fun _ => True

theorem completable_anyItems : Completable AnyItems [] :=
  completable_of_mark .rbrace (ClosedItems.nil .first)

omit [PlainTokenSource σ] in
/-- A check of the fields reads nothing. -/
theorem locates_checkFields (message : String) (fs : List Field) :
    Locates .part n (checkFields message fs : Scan σ Unit) fun ts _ => ts = [] ∧ True := by
  have hnothing : Locates .part n (pure () : Scan σ Unit) fun ts _ => ts = [] ∧ True :=
    (locates_pure ()).congr fun ts u => by simp
  unfold checkFields
  cases h : firstClash? message [] fs with
  | none => exact hnothing
  | some e => exact ⟨hnothing.inhabited, hnothing.unique, fun s _ => .rule (isRule_of_firstClash? h)⟩

theorem locates_messageWith {body : Scan σ MessageBody} (hbody : Locates .part n body AnyItems)
    {start : Token} (hstart : start.lexeme = .keyword .messageWord) :
    Locates .part n (messageWith body start) fun ts m => MessageDecl (start :: ts) m ∧ True := by
  obtain ⟨l, p⟩ := start
  cases hstart
  refine (locates_ident_bind fun name => locates_punct_bind .lbrace
    (hbody.bind fun b => (locates_checkFields name b.fields).bind fun _ =>
      locates_pure (⟨name, b.fields, b.nested, b.options, p⟩ : Message))).congr fun ts m => ?_
  exact (messageDecl_iff (D := fun _ => True)).trans (and_congr_right fun _ => by simp)

theorem locatesFrom_fieldItem (t : Token) {body : Scan σ MessageBody}
    (hbody : Locates .part n body AnyItems) : LocatesFrom t .part n
    (match unsupportedOf? t with
      | some u => refuse (.unsupported u) t.position
      | none => do
        let f ← field n t
        let rest ← body
        pure (rest.addField f) : Scan σ MessageBody)
    (FieldItem (fun _ => True) (fun _ => True) t) := by
  cases h : unsupportedOf? t with
  | some u => exact (locatesFrom_refuse rfl).congr fun ts b => by simp [FieldItem, h]
  | none =>
    exact ((locatesFrom_field t).bind fun f => hbody.map (MessageBody.addField f)).congr
      fun ts b => by simp [FieldItem, h]

theorem locates_messageBody (n : Nat) :
    Locates .part n (messageBody n : Scan σ MessageBody) AnyItems := by
  induction n with
  | zero => exact locates_zero completable_anyItems
  | succ n ih =>
    unfold messageBody
    refine (locates_require_bind (fun t =>
      locatesFrom_ite (fun _ => .locates (locates_pure MessageBody.empty)) fun _ =>
      locatesFrom_ite (fun _ => .locates ih) fun _ =>
      locatesFrom_ite (fun ht => .locates ((locates_messageWith ih ht).bind fun m =>
        ih.map (MessageBody.addNested m))) fun _ =>
      locatesFrom_ite (fun ht => .locates ((locates_optionDecl ht).bind fun o =>
        ih.map (MessageBody.addOption o))) fun _ =>
      locatesFrom_ite (fun _ => .locates ((locates_skipStatement n).bind fun _ => ih)) fun _ =>
        locatesFrom_fieldItem t ih) ?_).congr fun _ _ => closedItems_iff
    exact ⟨⟨.punct .rbrace, .first⟩, Lexical.readable_punct .rbrace,
      .of_word (.inl ⟨rfl, rfl, rfl⟩)⟩

/-! ## Methods -/

theorem locates_moreParams (n : Nat) :
    Locates .part n (moreParams n : Scan σ (List String)) ClosedParams := by
  induction n with
  | zero => exact locates_zero (completable_of_mark .rparen ⟨[], .first, rfl, .nil⟩)
  | succ n ih =>
    unfold moreParams
    refine (locates_either_bind (by decide) fun more => ?_).congr fun _ _ => closedParams_iff
    exact locates_ite (fun _ => locates_reference_bind fun p => ih.map (List.cons p))
      fun _ => locates_pure []

theorem locates_rpcBody (method : String) (n : Nat) :
    Locates .part n (rpcBody method n : Scan σ Unit) ClosedRpcItems := by
  induction n with
  | zero => exact locates_zero (completable_of_mark (a := ()) .rbrace ⟨[], .first, rfl, .nil⟩)
  | succ n ih =>
    unfold rpcBody
    refine (locates_require_bind (fun t =>
      locatesFrom_ite (fun _ => .locates (locates_pure ())) fun _ =>
      locatesFrom_ite (fun ht => .locates ((locates_optionDecl ht).bind fun _ => ih)) fun _ =>
      locatesFrom_ite (fun _ => .locates ih) fun _ => locatesFrom_refuse rfl) ?_).congr
        fun _ _ => closedRpcItems_iff
    exact ⟨⟨.punct .rbrace, .first⟩, Lexical.readable_punct .rbrace,
      .of_word (.inl ⟨rfl, rfl, rfl⟩)⟩

theorem locates_returnsWord :
    Locates .part n (returnsWord : Scan σ Unit) fun ts _ => ∃ x, ts = [⟨.ident "returns", x⟩] := by
  refine (locates_accept_bind (fun t u h => ?_) ?_).step.congr fun _ _ => returnsWord_iff
  · obtain ⟨_, rfl⟩ : _ ∧ t = u := by simpa using h
    exact locatesFrom_ite (fun _ => .locates (locates_pure ())) fun _ => locatesFrom_refuse rfl
  · exact ⟨⟨.ident "returns", .first⟩, _,
      (Printing.opens_ident Lexical.isPlainName_returns).readable, rfl, .of_word (.inl ⟨rfl, rfl, rfl⟩)⟩

theorem locates_rpc {start : Token} (hstart : start.lexeme = .ident "rpc") :
    Locates .part n (rpc n start : Scan σ Rpc) fun ts r => RpcDecl (start :: ts) r := by
  obtain ⟨l, p⟩ := start
  cases hstart
  have tail (name : String) (r : Rpc) (closed : Bool) : Locates .part n
      (if closed = true then pure r
        else do
          rpcBody name n
          pure r : Scan σ Rpc) (RpcTail closed r) :=
    locates_ite (fun _ => locates_pure r) fun _ => (locates_rpcBody name n).map fun _ => r
  unfold rpc
  exact (locates_ident_bind fun name => locates_punct_bind .lparen
    (locates_reference_bind fun first => (locates_moreParams n).bind fun more =>
      locates_returnsWord.bind fun _ => locates_punct_bind .lparen
        (locates_reference_bind fun result => locates_punct_bind .rparen
          (locates_either_bind (by decide)
            (tail name ⟨name, first :: more, result, p⟩)).step))).congr fun _ _ => rpcDecl_iff

/-! ## Services -/

theorem locates_serviceBody (service : String) (n : Nat) :
    Locates .part n (serviceBody service n : Scan σ ServiceBody) ClosedServiceItems := by
  induction n with
  | zero => exact locates_zero (completable_of_mark .rbrace ⟨[], .first, rfl, .nil⟩)
  | succ n ih =>
    unfold serviceBody
    refine (locates_require_bind (fun t =>
      locatesFrom_ite (fun _ => .locates (locates_pure ServiceBody.empty)) fun _ =>
      locatesFrom_ite (fun _ => .locates ih) fun _ =>
      locatesFrom_ite (fun ht => .locates ((locates_optionDecl ht).bind fun o =>
        ih.map (ServiceBody.addOption o))) fun _ =>
      locatesFrom_ite (fun ht => .locates ((locates_rpc ht).bind fun r =>
        ih.map (ServiceBody.addRpc r))) fun _ => locatesFrom_refuse rfl) ?_).congr
          fun _ _ => closedServiceItems_iff
    exact ⟨⟨.punct .rbrace, .first⟩, Lexical.readable_punct .rbrace,
      .of_word (.inl ⟨rfl, rfl, rfl⟩)⟩

theorem locates_service {start : Token} (hstart : start.lexeme = .keyword .serviceWord) :
    Locates .part n (service n start : Scan σ Service) fun ts s => ServiceDecl (start :: ts) s := by
  obtain ⟨l, p⟩ := start
  cases hstart
  have body (name : String) : Locates .part n (serviceBody name n : Scan σ ServiceBody) _ :=
    locates_serviceBody name n
  exact (locates_ident_bind fun name => locates_punct_bind .lbrace ((body name).map
    fun b => (⟨name, b.rpcs, b.options, p⟩ : Service))).congr fun _ _ => serviceDecl_iff

/-! ## Schemas -/

/-- Statements, whatever they declare. -/
abbrev AnyFollows : Bool → Lang Body := Follows fun _ => True

theorem locates_statements (packaged : Bool) (n : Nat) :
    Locates .whole n (statements packaged n : Scan σ Body) (AnyFollows packaged) := by
  induction n generalizing packaged with
  | zero => exact locates_zero (.of_word ⟨.nil, fun _ _ => trivial, fun _ => rfl⟩)
  | succ n ih =>
    unfold statements
    refine (locates_token (K := FollowsToken _ packaged) Body.empty ?_).congr fun _ _ => follows_iff
    rintro ⟨l, y⟩
    -- a token that begins no statement
    have none {c : Cause} (hc : c.layer = .syntactic) :
        LocatesFrom ⟨l, y⟩ .whole n (refuse c y : Scan σ Body) .empty :=
      locatesFrom_refuse (t := ⟨l, y⟩) hc
    cases l with
    | punct q =>
      cases q with
      | semi => exact .locates (ih packaged)
      | _ => exact none rfl
    | keyword k =>
      cases k with
      | packageWord =>
        exact locatesFrom_ite (fun _ => none rfl) fun _ =>
          .locates ((locates_package rfl).bind fun ss => (ih true).map (Body.setPackage ss))
      | importWord =>
        exact .locates ((locates_importDecl rfl).bind fun i => (ih packaged).map (Body.addImport i))
      | optionWord =>
        exact .locates ((locates_optionDecl rfl).bind fun o => (ih packaged).map (Body.addOption o))
      | messageWord =>
        exact .locates ((locates_messageWith (locates_messageBody n) rfl).bind fun m =>
          (ih packaged).map (Body.addMessage m))
      | serviceWord =>
        exact .locates ((locates_service rfl).bind fun s => (ih packaged).map (Body.addService s))
      | _ => exact none rfl
    | _ => exact none rfl

theorem locates_document (source : Option String) :
    Locates .whole n (document source : Scan σ Document) (Derives source) := by
  unfold document
  exact (locates_dialect.bind fun d => (locates_budgeted (locates_statements false)).map
    fun b : Body => (⟨d, b.package.getD [], b.imports, b.options, b.messages, b.services, source⟩ :
      Document)).congr fun _ _ => derives_iff.trans (and_iff_left fun _ _ => trivial)

end Syntactic
end ProtoSchema
