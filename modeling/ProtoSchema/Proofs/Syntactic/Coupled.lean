import ProtoSchema.Document.Parser
import ProtoSchema.Proofs.Document.Valid
import ProtoSchema.Proofs.Lexical.Coupled

/-!
# ProtoSchema.Proofs.Syntactic.Coupled

The parser on two sources of tokens, side by side. A `TokenCoupling` couples the reading of a token, and
the parser is put together from reading tokens, so it couples with itself (`TokenCoupling.couples_document`).
The budgets of its loops may differ; so the index is a pair of budgets, which a token lowers. Once the end
has been reported there is no index from which a token could be read.

The loops and the recursive productions are coupled together, one round at a time (`Rounds.succ`): a round
reads a token before it calls for another round, with budgets that are lower by one. Inputs that are coupled
are coupled as sources of tokens (`InputCoupling.ends_document`).
-/

namespace ProtoSchema

open Scan Coupling ProtoSchema.Parser

theorem Failure.Unreadable.inField {e : Failure} (h : e.Unreadable) : e.inField = e := by
  obtain ⟨reason, p, rfl⟩ := h
  rfl

theorem Failure.unreadable_of_inField {e : Failure} (h : e.inField.Unreadable) : e.Unreadable := by
  obtain ⟨reason, p, h⟩ := h
  unfold Failure.inField at h
  split at h
  · split at h
    · cases h
    · exact ⟨reason, p, h⟩
  · exact ⟨reason, p, h⟩

namespace Parser

variable {σ : Type} [ByteInput σ]

theorem progresses_token : Progresses (token? : Scan σ (Option Token)) :=
  .first Lexer.progresses_next

theorem token_of_next {t : Token} {s s' : σ} (h : Lexer.next s = .ok (some t) s')
    (hc : t.isComment = false) : (token? : Scan σ (Option Token)) s = .ok (some t) s' :=
  (first_some Lexer.progresses_next h).trans (if_pos (by simp [hc]))

end Parser

/-- A coupling of two sources of tokens. At the index `some (n, m)` there is less left than the budgets `n`
and `m`, and a token lowers both; at `none` the end has been reported, and no token may be asked for. -/
structure TokenCoupling (Fair : Failure → Prop) (σ τ : Type) [TokenSource σ] [TokenSource τ] extends
    Coupling Fair (Option (Nat × Nat)) σ τ where
  fair : ∀ {c : Cause} {p : Position}, c.layer ≠ .source → Fair (.refused ⟨c, p⟩)
  fair_inField : ∀ {e : Failure}, Fair e → Fair e.inField
  lost_inField : ∀ {e : Failure} {s : σ}, Lost e s → Lost e.inField s
  place : ∀ {i : Option (Nat × Nat)} {s : σ} {t : τ}, Rel i s t →
    TokenSource.position s = TokenSource.position t
  more : ∀ {n m : Nat} {s : σ} {t : τ}, Rel (some (n, m)) s t → Rel (some (n + 1, m + 1)) s t
  token : ∀ n m, toCoupling.Couples (some (n + 1, m + 1)) token? token? fun o => o.map fun _ => (n, m)

namespace TokenCoupling

variable {Fair : Failure → Prop} {σ τ α β : Type} [TokenSource σ] [TokenSource τ]
  (C : TokenCoupling Fair σ τ)

/-- `p` couples with `p'` on what has less left than the budgets `i`. -/
def CouplesWithin (i : Nat × Nat) (p : Scan σ α) (p' : Scan τ α) : Prop :=
  C.Couples (some i) p p' fun _ => some i

variable {C} {i : Nat × Nat} {n m : Nat} {p : Scan σ α} {p' : Scan τ α}

theorem CouplesWithin.succ (h : C.CouplesWithin (n, m) p p') :
    C.Couples (some (n, m)) p p' fun _ => some (n + 1, m + 1) :=
  h.weaken (fun _ _ hr => hr) fun _ _ _ hr => C.more hr

theorem CouplesWithin.bind {f : α → Scan σ β} {f' : α → Scan τ β} (h : C.CouplesWithin i p p')
    (hf : ∀ a, C.CouplesWithin i (f a) (f' a)) : C.CouplesWithin i (p >>= f) (p' >>= f') :=
  couples_bind h hf

theorem within_pure (a : α) : C.CouplesWithin i (pure a) (pure a) :=
  Coupling.couples_pure a fun _ _ h => h

theorem CouplesWithin.map (f : α → β) (h : C.CouplesWithin i p p') :
    C.CouplesWithin i (p >>= fun a => pure (f a)) (p' >>= fun a => pure (f a)) :=
  h.bind fun a => within_pure (f a)

theorem couples_refuse {j : Option (Nat × Nat)} {k : α → Option (Nat × Nat)} {c : Cause} {x : Position}
    (h : c.layer ≠ .source) : C.Couples j (refuse c x : Scan σ α) (refuse c x) k :=
  Coupling.couples_refuse (C.fair h)

theorem within_refuse {c : Cause} {x : Position} (h : c.layer ≠ .source) :
    C.CouplesWithin i (refuse c x : Scan σ α) (refuse c x) :=
  couples_refuse h

theorem within_ite {c : Prop} [Decidable c] {q : Scan σ α} {q' : Scan τ α}
    (h : c → C.CouplesWithin i p p') (h' : ¬ c → C.CouplesWithin i q q') :
    C.CouplesWithin i (if c then p else q) (if c then p' else q') :=
  couples_ite h h'

/-! ## Tokens -/

theorem couples_refuseEnd {j : Option (Nat × Nat)} (what : Demand) (k : α → Option (Nat × Nat)) :
    C.Couples j (refuseEnd what) (refuseEnd what) k := by
  refine ⟨?_, fun t hg => hg⟩
  intro s t hr
  show C.Ends k (.error (.refused ⟨_, TokenSource.position s⟩) s)
    (.error (.refused ⟨_, TokenSource.position t⟩) t)
  rw [C.place hr]
  exact .error (C.fair nofun) hr

theorem couples_require (what : Demand) :
    C.Couples (some (n + 1, m + 1)) (require what) (require what) fun _ => some (n, m) := by
  refine couples_bind (C.token n m) fun o => ?_
  cases o with
  | none => exact couples_refuseEnd what _
  | some t => exact within_pure t

/-- What follows a token has lower budgets. -/
theorem require_bind {what : Demand} {f : Token → Scan σ β} {f' : Token → Scan τ β}
    (hf : ∀ t, C.CouplesWithin (n, m) (f t) (f' t)) :
    C.CouplesWithin (n + 1, m + 1) (require what >>= f) (require what >>= f') :=
  couples_bind (couples_require what) fun t => (hf t).succ

theorem accept_bind {what : Demand} {read : Token → Option α} {f : α → Scan σ β}
    {f' : α → Scan τ β} (hf : ∀ a, C.CouplesWithin (n, m) (f a) (f' a)) :
    C.CouplesWithin (n + 1, m + 1) (accept what read >>= f) (accept what read >>= f') := by
  refine couples_bind (couples_bind (j := fun _ => some (n, m)) (couples_require what) fun t => ?_)
    fun a => (hf a).succ
  cases read t with
  | none => exact within_refuse nofun
  | some a => exact within_pure a

theorem within_require (what : Demand) : C.CouplesWithin i (require what) (require what) :=
  (couples_require (n := i.1) (m := i.2) what).weaken (fun _ _ hr => C.more hr) fun _ _ _ hr => hr

theorem within_accept (what : Demand) (read : Token → Option α) :
    C.CouplesWithin i (accept what read) (accept what read) := by
  refine (within_require what).bind fun t => ?_
  cases read t with
  | none => exact within_refuse nofun
  | some a => exact within_pure a

/-! ## Statements -/

theorem within_punct (q : Punct) : C.CouplesWithin i (punct q) (punct q) :=
  within_accept _ _

theorem within_number : C.CouplesWithin i number number :=
  within_accept _ _

theorem within_reference : C.CouplesWithin i reference reference :=
  (within_accept _ _).map _

theorem within_dialect : C.CouplesWithin i dialect dialect := by
  refine (within_accept _ _).bind fun _ => (within_punct _).bind fun _ =>
    (within_accept _ _).bind fun r => ?_
  obtain ⟨word, x⟩ := r
  simp only
  cases Dialect.ofWord? word with
  | some d => exact (within_punct _).bind fun _ => within_pure d
  | none => exact within_refuse nofun

theorem within_package : C.CouplesWithin i package package :=
  (within_accept _ _).bind fun ss => (within_punct _).bind fun _ => within_pure ss

theorem within_importPath (kind : ImportKind) (x : Position) (t : Token) : C.CouplesWithin i
    (match t.lexeme with
      | .text path => do
        punct .semi
        pure ⟨path, kind, x⟩
      | _ => refuseToken (.phrase "import path string") t : Scan σ ImportDecl)
    (match t.lexeme with
      | .text path => do
        punct .semi
        pure ⟨path, kind, x⟩
      | _ => refuseToken (.phrase "import path string") t : Scan τ ImportDecl) := by
  split
  · exact (within_punct _).bind fun _ => within_pure _
  · exact within_refuse fun h => by cases h

theorem within_importDecl (start : Token) :
    C.CouplesWithin i (importDecl start) (importDecl start) := by
  refine (within_require _).bind fun t => within_ite (fun _ => ?_) fun _ => ?_
  · exact (within_pure t).bind (within_importPath (importKindOf t) start.position)
  · exact (within_require _).bind (within_importPath (importKindOf t) start.position)

theorem within_optionDecl (start : Token) :
    C.CouplesWithin i (optionDecl start) (optionDecl start) :=
  within_reference.bind fun _ => (within_punct _).bind fun _ => (within_accept _ _).bind fun _ =>
    (within_punct _).bind fun _ => within_pure _

theorem within_mapTypeWith {type : Token → Scan σ FieldType} {type' : Token → Scan τ FieldType}
    (h : ∀ t, C.CouplesWithin (n, m) (type t) (type' t)) :
    C.CouplesWithin (n + 1, m + 1) (mapTypeWith type) (mapTypeWith type') := by
  refine accept_bind fun _ => (within_require _).bind fun k => (h k).bind fun key => ?_
  refine within_ite (fun _ => ?_) fun _ => within_refuse nofun
  exact (within_punct _).bind fun _ => (within_require _).bind fun v => (h v).bind fun _ =>
    (within_punct _).bind fun _ => within_pure _

/-! ## Messages and services -/

theorem within_checkFields (message : String) (fields : List Field) :
    C.CouplesWithin i (checkFields message fields) (checkFields message fields) := by
  unfold checkFields
  cases h : firstClash? message [] fields with
  | none => exact within_pure ()
  | some e =>
    have hlayer := (isRule_of_firstClash? h).layer
    exact within_refuse (by simp [hlayer])

theorem within_messageWith {body : Scan σ MessageBody} {body' : Scan τ MessageBody}
    (h : C.CouplesWithin i body body') (start : Token) :
    C.CouplesWithin i (messageWith body start) (messageWith body' start) :=
  (within_accept _ _).bind fun _ => (within_punct _).bind fun _ => h.bind fun _ =>
    (within_checkFields _ _).bind fun _ => within_pure _

theorem within_returnsWord : C.CouplesWithin i returnsWord returnsWord :=
  (within_accept _ _).bind fun _ => within_ite (fun _ => within_pure _) fun _ => within_refuse nofun

/-! ## Rounds -/

/-- The loops and the recursive productions couple with themselves on what has less left than their
budgets `n` and `m`. -/
structure Rounds (C : TokenCoupling Fair σ τ) (n m : Nat) : Prop where
  fieldType : ∀ t, C.CouplesWithin (n, m) (fieldType n t) (fieldType m t)
  skipStatement : C.CouplesWithin (n, m) (skipStatement n) (skipStatement m)
  messageBody : C.CouplesWithin (n, m) (messageBody n) (messageBody m)
  moreParams : C.CouplesWithin (n, m) (moreParams n) (moreParams m)
  rpcBody : ∀ method, C.CouplesWithin (n, m) (rpcBody method n) (rpcBody method m)
  serviceBody : ∀ name, C.CouplesWithin (n, m) (serviceBody name n) (serviceBody name m)
  statements : ∀ packaged, C.Couples (some (n, m)) (statements packaged n) (statements packaged m)
    fun _ => none

theorem Rounds.fieldType_succ (h : C.Rounds n m) (t : Token) :
    C.CouplesWithin (n + 1, m + 1) (Parser.fieldType (n + 1) t) (Parser.fieldType (m + 1) t) := by
  obtain ⟨l, x⟩ := t
  cases l with
  | ident => exact within_pure _
  | dotted => exact within_pure _
  | keyword k =>
    cases k with
    | scalar => exact within_pure _
    | mapWord => exact within_mapTypeWith h.fieldType
    | _ => exact within_refuse nofun
  | _ => exact within_refuse nofun

theorem Rounds.fieldSyntax (h : C.Rounds n m) (start : Token) :
    C.CouplesWithin (n, m) (fieldSyntax n start) (fieldSyntax m start) := by
  have typed (t : Token) := (h.fieldType t).bind fun type =>
    (within_accept (.phrase "field name") nameOf?).bind fun name => (within_punct .equals).bind fun _ =>
      within_number.bind fun r => (within_punct .semi).bind fun _ =>
        within_pure (type, name, r.1, r.2, start.lexeme == .keyword .repeatedWord)
  refine within_ite (fun _ => ?_) fun _ => ?_
  · exact (within_require _).bind typed
  · exact (within_pure start).bind typed

theorem Rounds.field (h : C.Rounds n m) (start : Token) :
    C.CouplesWithin (n, m) (field n start) (field m start) := by
  refine CouplesWithin.bind ?_ fun r =>
    within_ite (fun _ => within_pure _) fun _ => within_refuse nofun
  exact couples_adaptExcept (h.fieldSyntax start) (fun _ => C.fair_inField) fun _ _ => C.lost_inField

theorem Rounds.skipStatement_succ (h : C.Rounds n m) :
    C.CouplesWithin (n + 1, m + 1) (Parser.skipStatement (n + 1)) (Parser.skipStatement (m + 1)) :=
  require_bind fun _ => within_ite (fun _ => within_pure ()) fun _ => h.skipStatement

theorem Rounds.messageBody_succ (h : C.Rounds n m) :
    C.CouplesWithin (n + 1, m + 1) (Parser.messageBody (n + 1)) (Parser.messageBody (m + 1)) := by
  have ih := h.messageBody
  refine require_bind fun t => ?_
  refine within_ite (fun _ => within_pure _) fun _ => ?_
  refine within_ite (fun _ => ih) fun _ => ?_
  refine within_ite (fun _ => (within_messageWith ih t).bind fun _ => ih.map _) fun _ => ?_
  refine within_ite (fun _ => (within_optionDecl t).bind fun _ => ih.map _) fun _ => ?_
  refine within_ite (fun _ => h.skipStatement.bind fun _ => ih) fun _ => ?_
  cases unsupportedOf? t with
  | some u => exact within_refuse nofun
  | none => exact (h.field t).bind fun _ => ih.map _

theorem Rounds.moreParams_succ (h : C.Rounds n m) :
    C.CouplesWithin (n + 1, m + 1) (Parser.moreParams (n + 1)) (Parser.moreParams (m + 1)) :=
  accept_bind fun _ => within_ite
    (fun _ => within_reference.bind fun _ => h.moreParams.map _) fun _ => within_pure _

theorem Rounds.rpcBody_succ (h : C.Rounds n m) (method : String) :
    C.CouplesWithin (n + 1, m + 1) (Parser.rpcBody method (n + 1)) (Parser.rpcBody method (m + 1)) := by
  have ih := h.rpcBody method
  refine require_bind fun t => ?_
  refine within_ite (fun _ => within_pure _) fun _ => ?_
  refine within_ite (fun _ => (within_optionDecl t).bind fun _ => ih) fun _ => ?_
  exact within_ite (fun _ => ih) fun _ => within_refuse nofun

theorem Rounds.rpc (h : C.Rounds n m) (start : Token) :
    C.CouplesWithin (n, m) (rpc n start) (rpc m start) := by
  refine (within_accept _ _).bind fun name => (within_punct _).bind fun _ =>
    within_reference.bind fun _ => h.moreParams.bind fun _ =>
      within_returnsWord.bind fun _ => (within_punct _).bind fun _ =>
        within_reference.bind fun _ => (within_punct _).bind fun _ =>
          (within_accept _ _).bind fun closed => ?_
  exact within_ite (fun _ => (within_pure ()).bind fun _ => within_pure _) fun _ =>
    (h.rpcBody name).bind fun _ => within_pure _

theorem Rounds.serviceBody_succ (h : C.Rounds n m) (name : String) :
    C.CouplesWithin (n + 1, m + 1) (Parser.serviceBody name (n + 1))
      (Parser.serviceBody name (m + 1)) := by
  have ih := h.serviceBody name
  refine require_bind fun t => ?_
  refine within_ite (fun _ => within_pure _) fun _ => ?_
  refine within_ite (fun _ => ih) fun _ => ?_
  refine within_ite (fun _ => (within_optionDecl t).bind fun _ => ih.map _) fun _ => ?_
  exact within_ite (fun _ => (h.rpc t).bind fun _ => ih.map _) fun _ => within_refuse nofun

theorem Rounds.service (h : C.Rounds n m) (start : Token) :
    C.CouplesWithin (n, m) (service n start) (service m start) :=
  (within_accept _ _).bind fun name => (within_punct _).bind fun _ =>
    (h.serviceBody name).bind fun _ => within_pure _

/-- One more round of the statements ends where no further token is asked for. -/
theorem Rounds.statements_succ (h : C.Rounds n m) (packaged : Bool) :
    C.Couples (some (n + 1, m + 1)) (Parser.statements packaged (n + 1))
      (Parser.statements packaged (m + 1)) fun _ => none := by
  have rest {α : Type} {p : Scan σ α} {p' : Scan τ α} (hp : C.CouplesWithin (n, m) p p')
      (packaged : Bool) (f : α → Body → Body) :
      C.Couples (some (n, m)) (p >>= fun a => Parser.statements packaged n >>= fun b => pure (f a b))
        (p' >>= fun a => Parser.statements packaged m >>= fun b => pure (f a b)) fun _ => none :=
    couples_bind hp fun a => couples_bind (h.statements packaged) fun b =>
      Coupling.couples_pure _ fun _ _ hr => hr
  refine couples_bind (C.token n m) fun o => ?_
  cases o with
  | none => exact Coupling.couples_pure _ fun _ _ hr => hr
  | some t =>
    obtain ⟨l, x⟩ := t
    cases l with
    | punct q =>
      cases q with
      | semi => exact h.statements packaged
      | _ => exact couples_refuse nofun
    | keyword k =>
      cases k with
      | packageWord =>
        exact couples_ite (fun _ => couples_refuse nofun) fun _ =>
          rest within_package true Body.setPackage
      | importWord => exact rest (within_importDecl _) packaged Body.addImport
      | optionWord => exact rest (within_optionDecl _) packaged Body.addOption
      | messageWord => exact rest (within_messageWith h.messageBody _) packaged Body.addMessage
      | serviceWord => exact rest (h.service _) packaged Body.addService
      | _ => exact couples_refuse nofun
    | _ => exact couples_refuse nofun

/-- A round calls for further rounds only with budgets that are lower by one. -/
theorem Rounds.succ (h : C.Rounds n m) : C.Rounds (n + 1) (m + 1) where
  fieldType := h.fieldType_succ
  skipStatement := h.skipStatement_succ
  messageBody := h.messageBody_succ
  moreParams := h.moreParams_succ
  rpcBody := h.rpcBody_succ
  serviceBody := h.serviceBody_succ
  statements := h.statements_succ

/-! ## Enough budget -/

/-- The budgets count: there is always less left than they say. -/
structure Counted (C : TokenCoupling Fair σ τ) : Prop where
  pos : ∀ {n m : Nat} {s : σ} {t : τ}, C.Rel (some (n, m)) s t → 0 < n ∧ 0 < m
  enough : ∀ {i : Nat × Nat} {s : σ} {t : τ}, C.Rel (some i) s t →
    C.Rel (some (TokenSource.left s + 1, TokenSource.left t + 1)) s t

theorem couples_of_not_rel {j : Option (Nat × Nat)} {k : α → Option (Nat × Nat)}
    (h : ∀ s t, ¬ C.Rel j s t) (hg : ∀ t, C.Gone t → C.Gone (endState (p' t))) : C.Couples j p p' k :=
  ⟨fun s t hr => absurd hr (h s t), hg⟩

/-- Nothing is coupled where a budget is 0, so that only the mark has to last there. -/
theorem Counted.rounds (hC : C.Counted) (n m : Nat) : C.Rounds n m := by
  have left (m : Nat) : ∀ s t, ¬ C.Rel (some (0, m)) s t := fun s t hr =>
    Nat.lt_irrefl 0 (hC.pos hr).1
  have right (n : Nat) : ∀ s t, ¬ C.Rel (some (n, 0)) s t := fun s t hr =>
    Nat.lt_irrefl 0 (hC.pos hr).2
  induction m generalizing n with
  | zero =>
    refine ⟨fun t => couples_of_not_rel (right n) ?_, couples_of_not_rel (right n) fun _ hg => hg,
      couples_of_not_rel (right n) fun _ hg => hg, couples_of_not_rel (right n) fun _ hg => hg,
      fun _ => couples_of_not_rel (right n) fun _ hg => hg,
      fun _ => couples_of_not_rel (right n) fun _ hg => hg,
      fun _ => couples_of_not_rel (right n) fun _ hg => hg⟩
    obtain ⟨l, x⟩ := t
    intro t hg
    cases l with
    | keyword k => cases k <;> exact hg
    | _ => exact hg
  | succ m ih =>
    cases n with
    | zero =>
      have hs := (ih 0).succ
      exact ⟨fun t => couples_of_not_rel (left _) (hs.fieldType t).gone,
        couples_of_not_rel (left _) hs.skipStatement.gone,
        couples_of_not_rel (left _) hs.messageBody.gone,
        couples_of_not_rel (left _) hs.moreParams.gone,
        fun name => couples_of_not_rel (left _) (hs.rpcBody name).gone,
        fun name => couples_of_not_rel (left _) (hs.serviceBody name).gone,
        fun packaged => couples_of_not_rel (left _) (hs.statements packaged).gone⟩
    | succ n => exact (ih n).succ

/-- The statements run with budgets that are enough for what is left. -/
theorem Counted.budgeted (hC : C.Counted) :
    C.Couples (some i) (budgeted (statements false)) (budgeted (statements false)) fun _ => none := by
  refine ⟨fun s t hr => ?_, fun t hg => ?_⟩
  · exact ((hC.rounds _ _).statements false).ends s t (hC.enough hr)
  · exact ((hC.rounds 0 _).statements false).gone t hg

theorem Counted.document (hC : C.Counted) (source : Option String) :
    C.Couples (some i) (document source) (document source) fun _ => none :=
  couples_bind within_dialect fun _ => couples_bind hC.budgeted fun _ =>
    Coupling.couples_pure _ fun _ _ hr => hr

end TokenCoupling

/-! ## Inputs -/

namespace InputCoupling

variable {σ τ : Type} [ByteInput σ] [ByteInput τ] (C : InputCoupling σ τ)

theorem couples_token : C.Couples [] token? token? fun _ => [] :=
  couples_first _ _ _ C.couples_next

/-- Inputs that are coupled, with budgets that are more than they have left. -/
def tokens : TokenCoupling (fun e => ¬ e.Unreadable) σ τ where
  Rel i s t := C.Rel [] s t ∧ ∀ j ∈ i, TokenSource.left s < j.1 ∧ TokenSource.left t < j.2
  Lost := C.Lost
  Gone := C.Gone
  fair h hu := by
    obtain ⟨reason, y, e⟩ := hu
    cases e
    exact h rfl
  fair_inField he hu := he (Failure.unreadable_of_inField hu)
  lost_inField hl := by
    rw [(C.lost hl).inField]
    exact hl
  place hr := C.place hr.1
  more hr := by
    refine ⟨hr.1, fun j hj => ?_⟩
    cases hj
    obtain ⟨hs, ht⟩ := hr.2 _ rfl
    exact ⟨Nat.lt_succ_of_lt hs, Nat.lt_succ_of_lt ht⟩
  token n m := by
    refine ⟨fun s t hr => ?_, C.couples_token.gone⟩
    obtain ⟨hr, hleft⟩ := hr
    obtain ⟨hs, ht⟩ := hleft _ rfl
    generalize hl : token? s = r
    generalize hl' : token? t = r'
    cases C.couples_token.ends_of_eq hr hl hl' with
    | @ok o s' t' hr =>
      refine .ok ⟨hr, fun j hj => ?_⟩
      obtain ⟨a, rfl, rfl⟩ := Option.map_eq_some_iff.1 hj
      exact ⟨Nat.lt_of_lt_of_le (progresses_token hl) (Nat.le_of_lt_succ hs),
        Nat.lt_of_lt_of_le (progresses_token hl') (Nat.le_of_lt_succ ht)⟩
    | error he hr =>
      exact .error (i := none) he.not_unreadable ⟨C.shorten List.nil_prefix hr, nofun⟩
    | lost hlost hg => exact .lost hlost hg

theorem counted_tokens : C.tokens.Counted where
  pos hr := by
    obtain ⟨hs, ht⟩ := hr.2 _ rfl
    exact ⟨Nat.zero_lt_of_lt hs, Nat.zero_lt_of_lt ht⟩
  enough hr := by
    refine ⟨hr.1, fun j hj => ?_⟩
    cases hj
    exact ⟨Nat.lt_succ_self _, Nat.lt_succ_self _⟩

theorem tokens_rel {C : InputCoupling σ τ} {s : σ} {t : τ} (h : C.Rel [] s t) :
    C.tokens.Rel (some (TokenSource.left s + 1, TokenSource.left t + 1)) s t := by
  refine ⟨h, fun j hj => ?_⟩
  cases hj
  exact ⟨Nat.lt_succ_self _, Nat.lt_succ_self _⟩

/-- Documents are read alike from inputs that belong together. -/
theorem ends_document {C : InputCoupling σ τ} (source : Option String) {s : σ} {t : τ}
    (h : C.Rel [] s t) :
    C.tokens.Ends (fun _ => none) (document source s) (document source t) :=
  (C.counted_tokens.document source).ends s t (tokens_rel h)

/-- Types are read alike from inputs that belong together. -/
theorem ends_fieldType {C : InputCoupling σ τ} (start : Token) {s : σ} {t : τ} (h : C.Rel [] s t) :
    C.tokens.Ends (fun _ => none) (budgeted (fieldType · start) s)
      (budgeted (fieldType · start) t) := by
  have hrounds := C.counted_tokens.rounds (TokenSource.left s + 1) (TokenSource.left t + 1)
  have hcouples : C.tokens.Couples (some (TokenSource.left s + 1, TokenSource.left t + 1))
      (fieldType (TokenSource.left s + 1) start) (fieldType (TokenSource.left t + 1) start)
      fun _ => none :=
    (hrounds.fieldType start).weaken (fun _ _ hr => hr) fun _ _ _ hr => ⟨hr.1, nofun⟩
  exact hcouples.ends s t (tokens_rel h)

end InputCoupling
end ProtoSchema
