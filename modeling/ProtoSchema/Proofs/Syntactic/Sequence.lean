import ProtoSchema.Proofs.Syntactic.FirstError

/-!
# ProtoSchema.Proofs.Syntactic.Sequence

Schemas, messages and services as sequences of statements. A `Statement` of a block is some tokens with
what they declare. The first token of a statement tells its kind, and no statement begins another one,
so tokens are the statements of a block in one way at most (`tokensOf_injective`). A block declares what
its statements declare, sorted by kind (`items_iff`, `serviceItems_iff`, `statements_iff`).
-/

namespace ProtoSchema
namespace Syntactic

open ProtoSchema.Parser

/-- What a statement is, by its first token. -/
inductive StatementKind where
  | empty
  | skipped
  | package
  | importDecl
  | option
  | message
  | service
  | field
  | rpc
deriving DecidableEq

/-- What a statement declares. -/
inductive Entry where
  | empty
  | skipped
  | package (ss : List String)
  | importDecl (i : ImportDecl)
  | option (o : OptionDecl)
  | message (m : Message)
  | service (s : Service)
  | field (f : Field)
  | rpc (r : Rpc)

namespace Entry

def kind : Entry → StatementKind
  | empty => .empty
  | skipped => .skipped
  | package _ => .package
  | importDecl _ => .importDecl
  | option _ => .option
  | message _ => .message
  | service _ => .service
  | field _ => .field
  | rpc _ => .rpc

/-- The tokens `ts` are a statement that declares the entry. -/
def DeclaredBy (ts : List Token) : Entry → Prop
  | empty => ∃ p, ts = [⟨.punct .semi, p⟩]
  | skipped => SkippedStmt ts
  | package ss => PackageStmt ts ss
  | importDecl i => ImportStmt ts i
  | option o => OptionStmt ts o
  | message m => MessageDecl ts m
  | service s => ServiceDecl ts s
  | field f => FieldStmt ts f
  | rpc r => RpcDecl ts r

end Entry

/-- What holds statements: a schema behind its first statement, the braces of a message, or those of a
service. -/
inductive Block where
  | schema
  | message
  | service

namespace Block

/-- The kinds of the statements that a block may hold. -/
@[simp] def kinds : Block → List StatementKind
  | schema => [.empty, .package, .importDecl, .option, .message, .service]
  | message => [.empty, .skipped, .option, .message, .field]
  | service => [.empty, .option, .rpc]

/-- The kind of the statement of a block that a lexeme begins. -/
def kindAt (b : Block) : Lexeme → StatementKind
  | .punct .semi => .empty
  | .keyword .reservedWord => .skipped
  | .keyword .extensionsWord => .skipped
  | .keyword .packageWord => .package
  | .keyword .importWord => .importDecl
  | .keyword .optionWord => .option
  | .keyword .messageWord => .message
  | .keyword .serviceWord => .service
  | _ =>
    match b with
    | service => .rpc
    | _ => .field

end Block

/-- A statement of a block. -/
@[ext]
structure Statement (b : Block) where
  tokens : List Token
  entry : Entry
  kind_mem : entry.kind ∈ b.kinds
  declared : entry.DeclaredBy tokens

/-- The tokens of statements that follow one another. -/
def tokensOf {b : Block} (ps : List (Statement b)) : List Token := ps.flatMap Statement.tokens

variable {b : Block} {ts us vs : List Token}

@[simp] theorem tokensOf_nil : tokensOf ([] : List (Statement b)) = [] := rfl

@[simp] theorem tokensOf_cons (p : Statement b) (ps : List (Statement b)) :
    tokensOf (p :: ps) = p.tokens ++ tokensOf ps := rfl

@[simp] theorem tokensOf_append (ps qs : List (Statement b)) :
    tokensOf (ps ++ qs) = tokensOf ps ++ tokensOf qs := List.flatMap_append ..

/-! ## Tokens are statements in one way -/

theorem kindAt_of_typeOf {us : List Token} {t : Token} {type : FieldType} (h : TypeOf (t :: us) type) :
    Block.message.kindAt t.lexeme = .field := by
  cases h <;> rfl

/-- A statement begins with a token that tells its kind. -/
theorem Entry.DeclaredBy.start {x : Entry} (h : x.DeclaredBy ts) (hmem : x.kind ∈ b.kinds) :
    ∃ t us, ts = t :: us ∧ b.kindAt t.lexeme = x.kind := by
  cases x with
  | empty =>
    obtain ⟨p, rfl⟩ := h
    exact ⟨_, _, rfl, rfl⟩
  | skipped =>
    obtain ⟨hword, _⟩ : SkippedStmt ts := h
    refine ⟨_, _, rfl, ?_⟩
    rcases hword with hword | hword <;> rw [hword] <;> rfl
  | field f =>
    cases b with
    | message =>
      cases h with
      | single htype => exact ⟨_, _, rfl, kindAt_of_typeOf htype⟩
      | repeated => exact ⟨_, _, rfl, rfl⟩
    | schema => simp [Entry.kind] at hmem
    | service => simp [Entry.kind] at hmem
  | rpc r =>
    cases b with
    | service =>
      cases h
      exact ⟨_, _, rfl, rfl⟩
    | schema => simp [Entry.kind] at hmem
    | message => simp [Entry.kind] at hmem
  | _ =>
    cases h
    all_goals exact ⟨_, _, rfl, rfl⟩

/-- What a production reads behind a first token of one lexeme is cut off in one way. -/
theorem unique_of_locates {α : Type} (R : List Token → α → Prop) {p : Token → Scan Bytes α}
    {l : Lexeme} {n : Nat} (hhead : ∀ us a, R us a → ∃ t vs, us = t :: vs ∧ t.lexeme = l)
    (h : ∀ t : Token, t.lexeme = l → Locates .part n (p t) fun ts a => R (t :: ts) a) (t : Token) :
    Unique n fun ts a => R (t :: ts) a := by
  intro us us' a a' hn ha ha' hp
  obtain ⟨_, _, e, ht⟩ := hhead _ _ ha
  cases e
  exact (h t ht).unique rfl us us' a a' hn ha ha' hp

/-- Behind its first token, a statement of one kind is no front of another, and declares one thing. -/
theorem unique_entry (t : Token) (k : StatementKind) (n : Nat) :
    Unique n fun ts (x : Entry) => x.kind = k ∧ x.DeclaredBy (t :: ts) := by
  rintro us us' x x' hn ⟨hk, hx⟩ ⟨hk', hx'⟩ hp
  have hkinds := hk.trans hk'.symm
  clear hk hk'
  -- two entries of one kind, whose values are left to compare
  cases x <;> cases x' <;> cases hkinds
  case empty.empty =>
    obtain ⟨_, e⟩ := hx
    obtain ⟨_, e'⟩ := hx'
    cases e
    cases e'
    exact ⟨rfl, rfl⟩
  case skipped.skipped =>
    cases hx with
    | intro _ hin =>
      cases hx' with
      | intro _ hin' =>
        obtain ⟨e, _⟩ := (locates_skipStatement (σ := Bytes) n).unique rfl _ _ () () hn
          ⟨_, _, rfl, hin⟩ ⟨_, _, rfl, hin'⟩ hp
        exact ⟨e, rfl⟩
  case package.package ss ss' =>
    obtain ⟨rfl, rfl⟩ := unique_of_locates PackageStmt (fun _ _ => PackageStmt.head)
      (fun _ => locates_package) t us us' ss ss' hn hx hx' hp
    exact ⟨rfl, rfl⟩
  case importDecl.importDecl i i' =>
    obtain ⟨rfl, rfl⟩ := unique_of_locates ImportStmt (fun _ _ => ImportStmt.head)
      (fun _ => locates_importDecl) t us us' i i' hn hx hx' hp
    exact ⟨rfl, rfl⟩
  case option.option o o' =>
    obtain ⟨rfl, rfl⟩ := unique_of_locates OptionStmt (fun _ _ => OptionStmt.head)
      (fun _ => locates_optionDecl) t us us' o o' hn hx hx' hp
    exact ⟨rfl, rfl⟩
  case message.message m m' =>
    obtain ⟨rfl, rfl⟩ := unique_of_locates (fun ts m => MessageDecl ts m ∧ True)
      (fun _ _ h => h.1.head) (fun _ => locates_messageWith (locates_messageBody n)) t us us' m m' hn
      ⟨hx, trivial⟩ ⟨hx', trivial⟩ hp
    exact ⟨rfl, rfl⟩
  case service.service s s' =>
    obtain ⟨rfl, rfl⟩ := unique_of_locates ServiceDecl (fun _ _ => ServiceDecl.head)
      (fun _ => locates_service) t us us' s s' hn hx hx' hp
    exact ⟨rfl, rfl⟩
  case field.field f f' =>
    obtain ⟨rfl, rfl⟩ := (locatesFrom_field (σ := Bytes) t).unique rfl us us' f f' hn ⟨hx, trivial⟩
      ⟨hx', trivial⟩ hp
    exact ⟨rfl, rfl⟩
  case rpc.rpc r r' =>
    obtain ⟨rfl, rfl⟩ := unique_of_locates RpcDecl (fun _ _ => RpcDecl.head)
      (fun _ => locates_rpc) t us us' r r' hn hx hx' hp
    exact ⟨rfl, rfl⟩

/-- A statement is cut off in one way. -/
theorem Statement.cut {p q : Statement b} (e : p.tokens ++ us = q.tokens ++ vs) : p = q ∧ us = vs := by
  obtain ⟨t, ts, hp, hkind⟩ := p.declared.start p.kind_mem
  obtain ⟨t', ts', hq, hkind'⟩ := q.declared.start q.kind_mem
  rw [hp, hq, List.cons_append, List.cons_append] at e
  obtain ⟨rfl, hcut⟩ := List.cons.inj e
  obtain ⟨hts, hentry, hrest⟩ := (unique_entry t p.entry.kind _).split (Nat.lt_succ_self ts.length)
    ⟨rfl, hp ▸ p.declared⟩ ⟨hkind'.symm.trans hkind, hq ▸ q.declared⟩ hcut
  exact ⟨Statement.ext (by rw [hp, hq, hts]) hentry, hrest⟩

/-- Tokens are the statements of a block in one way at most. -/
theorem tokensOf_injective : Function.Injective (tokensOf (b := b)) := by
  intro ps
  induction ps with
  | nil =>
    intro qs e
    cases qs with
    | nil => rfl
    | cons q qs =>
      obtain ⟨t, ts, hq, _⟩ := q.declared.start q.kind_mem
      simp [hq] at e
  | cons p ps ih =>
    intro qs e
    cases qs with
    | nil =>
      obtain ⟨t, ts, hp, _⟩ := p.declared.start p.kind_mem
      simp [hp] at e
    | cons q qs =>
      simp only [tokensOf_cons] at e
      obtain ⟨rfl, hrest⟩ := Statement.cut e
      rw [ih hrest]

/-! ## What statements declare together -/

namespace Entry

def package? : Entry → Option (List String)
  | package ss => some ss
  | _ => none

def importDecl? : Entry → Option ImportDecl
  | importDecl i => some i
  | _ => none

def option? : Entry → Option OptionDecl
  | option o => some o
  | _ => none

def message? : Entry → Option Message
  | message m => some m
  | _ => none

def service? : Entry → Option Service
  | service s => some s
  | _ => none

def field? : Entry → Option Field
  | field f => some f
  | _ => none

def rpc? : Entry → Option Rpc
  | rpc r => some r
  | _ => none

end Entry

/-- What the statements of one kind declare, in their order. -/
def entriesOf (k : StatementKind) (ps : List (Statement b)) : List Entry :=
  (ps.map Statement.entry).filter (·.kind = k)

def messageBodyOf (ps : List (Statement .message)) : MessageBody where
  fields := (entriesOf .field ps).filterMap Entry.field?
  nested := (entriesOf .message ps).filterMap Entry.message?
  options := (entriesOf .option ps).filterMap Entry.option?

def serviceBodyOf (ps : List (Statement .service)) : ServiceBody where
  rpcs := (entriesOf .rpc ps).filterMap Entry.rpc?
  options := (entriesOf .option ps).filterMap Entry.option?

def packagesOf (ps : List (Statement .schema)) : List (List String) :=
  (entriesOf .package ps).filterMap Entry.package?

def bodyOf (ps : List (Statement .schema)) : Body where
  package := (packagesOf ps).head?
  imports := (entriesOf .importDecl ps).filterMap Entry.importDecl?
  options := (entriesOf .option ps).filterMap Entry.option?
  messages := (entriesOf .message ps).filterMap Entry.message?
  services := (entriesOf .service ps).filterMap Entry.service?

theorem items_tokensOf (ps : List (Statement .message)) : Items (tokensOf ps) (messageBodyOf ps) := by
  induction ps with
  | nil => exact .nil
  | cons p ps ih =>
    obtain ⟨us, x, hmem, h⟩ := p
    cases x with
    | empty =>
      obtain ⟨y, rfl⟩ := h
      exact .semi ih
    | skipped => exact .skipped h ih
    | option o => exact .option h ih
    | message m => exact .nest h ih
    | field f => exact .field h ih
    | _ => simp [Entry.kind] at hmem

theorem serviceItems_tokensOf (ps : List (Statement .service)) :
    ServiceItems (tokensOf ps) (serviceBodyOf ps) := by
  induction ps with
  | nil => exact .nil
  | cons p ps ih =>
    obtain ⟨us, x, hmem, h⟩ := p
    cases x with
    | empty =>
      obtain ⟨y, rfl⟩ := h
      exact .semi ih
    | option o => exact .option h ih
    | rpc r => exact .rpc h ih
    | _ => simp [Entry.kind] at hmem

theorem statements_tokensOf (ps : List (Statement .schema)) (hone : (packagesOf ps).length ≤ 1) :
    Statements (tokensOf ps) (bodyOf ps) := by
  induction ps with
  | nil => exact .nil
  | cons p ps ih =>
    obtain ⟨us, x, hmem, h⟩ := p
    cases x with
    | empty =>
      obtain ⟨y, rfl⟩ := h
      exact .semi (ih hone)
    | package ss =>
      have hnone : packagesOf ps = [] := by
        have hlen : (packagesOf ps).length + 1 ≤ 1 := hone
        exact List.eq_nil_of_length_eq_zero (by omega)
      refine .package h (ih (by simp [hnone])) ?_
      simp [bodyOf, hnone]
    | importDecl i => exact .importDecl h (ih hone)
    | option o => exact .option h (ih hone)
    | message m => exact .message h (ih hone)
    | service s => exact .service h (ih hone)
    | _ => simp [Entry.kind] at hmem

/-- The items of a message are a sequence of statements, which declare what the body holds. -/
theorem items_iff {c : MessageBody} :
    Items us c ↔ ∃ ps : List (Statement .message), tokensOf ps = us ∧ messageBodyOf ps = c := by
  constructor
  · intro h
    induction h with
    | nil => exact ⟨[], rfl, rfl⟩
    | @semi us c x _ ih =>
      obtain ⟨ps, rfl, rfl⟩ := ih
      exact ⟨⟨[⟨.punct .semi, x⟩], .empty, by simp [Entry.kind], x, rfl⟩ :: ps, rfl, rfl⟩
    | @message us vs name inner c p p₁ p₂ p₃ hinner _ _ ih =>
      obtain ⟨ps, rfl, rfl⟩ := ih
      have hm := @MessageDecl.intro us name inner p p₁ p₂ p₃ hinner
      exact ⟨⟨_, .message _, by simp [Entry.kind], hm⟩ :: ps, by simp, rfl⟩
    | option ho _ ih =>
      obtain ⟨ps, rfl, rfl⟩ := ih
      exact ⟨⟨_, .option _, by simp [Entry.kind], ho⟩ :: ps, rfl, rfl⟩
    | skipped hs _ ih =>
      obtain ⟨ps, rfl, rfl⟩ := ih
      exact ⟨⟨_, .skipped, by simp [Entry.kind], hs⟩ :: ps, rfl, rfl⟩
    | field hf _ ih =>
      obtain ⟨ps, rfl, rfl⟩ := ih
      exact ⟨⟨_, .field _, by simp [Entry.kind], hf⟩ :: ps, rfl, rfl⟩
  · rintro ⟨ps, rfl, rfl⟩
    exact items_tokensOf ps

/-- The same for the items of a service. -/
theorem serviceItems_iff {c : ServiceBody} :
    ServiceItems us c ↔ ∃ ps : List (Statement .service), tokensOf ps = us ∧ serviceBodyOf ps = c := by
  constructor
  · intro h
    induction h with
    | nil => exact ⟨[], rfl, rfl⟩
    | @semi us c x _ ih =>
      obtain ⟨ps, rfl, rfl⟩ := ih
      exact ⟨⟨[⟨.punct .semi, x⟩], .empty, by simp [Entry.kind], x, rfl⟩ :: ps, rfl, rfl⟩
    | option ho _ ih =>
      obtain ⟨ps, rfl, rfl⟩ := ih
      exact ⟨⟨_, .option _, by simp [Entry.kind], ho⟩ :: ps, rfl, rfl⟩
    | rpc hr _ ih =>
      obtain ⟨ps, rfl, rfl⟩ := ih
      exact ⟨⟨_, .rpc _, by simp [Entry.kind], hr⟩ :: ps, rfl, rfl⟩
  · rintro ⟨ps, rfl, rfl⟩
    exact serviceItems_tokensOf ps

/-- The same for the statements of a schema, at most one of which names a package. -/
theorem statements_iff {c : Body} :
    Statements us c ↔ ∃ ps : List (Statement .schema),
      tokensOf ps = us ∧ (packagesOf ps).length ≤ 1 ∧ bodyOf ps = c := by
  constructor
  · intro h
    induction h with
    | nil => exact ⟨[], rfl, by simp [packagesOf, entriesOf], rfl⟩
    | @semi us c x _ ih =>
      obtain ⟨ps, rfl, hone, rfl⟩ := ih
      exact ⟨⟨[⟨.punct .semi, x⟩], .empty, by simp [Entry.kind], x, rfl⟩ :: ps, rfl, hone, rfl⟩
    | package hp _ hnone ih =>
      obtain ⟨ps, rfl, _, rfl⟩ := ih
      have hnil : packagesOf ps = [] := List.head?_eq_none_iff.1 hnone
      refine ⟨⟨_, .package _, by simp [Entry.kind], hp⟩ :: ps, rfl, ?_, rfl⟩
      show (packagesOf ps).length + 1 ≤ 1
      simp [hnil]
    | importDecl hi _ ih =>
      obtain ⟨ps, rfl, hone, rfl⟩ := ih
      exact ⟨⟨_, .importDecl _, by simp [Entry.kind], hi⟩ :: ps, rfl, hone, rfl⟩
    | option ho _ ih =>
      obtain ⟨ps, rfl, hone, rfl⟩ := ih
      exact ⟨⟨_, .option _, by simp [Entry.kind], ho⟩ :: ps, rfl, hone, rfl⟩
    | message hm _ ih =>
      obtain ⟨ps, rfl, hone, rfl⟩ := ih
      exact ⟨⟨_, .message _, by simp [Entry.kind], hm⟩ :: ps, rfl, hone, rfl⟩
    | service hs _ ih =>
      obtain ⟨ps, rfl, hone, rfl⟩ := ih
      exact ⟨⟨_, .service _, by simp [Entry.kind], hs⟩ :: ps, rfl, hone, rfl⟩
  · rintro ⟨ps, rfl, hone, rfl⟩
    exact statements_tokensOf ps hone

end Syntactic
end ProtoSchema
