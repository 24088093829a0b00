import ProtoSchema.Proofs.Syntactic.FirstError

/-!
# ProtoSchema.Proofs.Syntactic.Braces

The braces of accepted sources. Statements about reserved names and extensions are read up to their
semicolon, whatever stands there, braces included; the tokens outside of them have balanced braces
(`braces_balanced`). `mark` tells the two apart without a parser: a statement begins at the start of a
source and behind each semicolon or brace.

`Sealed` is the property of token lists by which the grammar is passed through: they begin and end
between statements, and their braces are balanced.
-/

namespace ProtoSchema
namespace Syntactic

open Scan ProtoSchema.Parser

/-! ## Balanced braces -/

def opened (ts : List Token) : Nat := ts.countP (·.lexeme = .punct .lbrace)

def closed (ts : List Token) : Nat := ts.countP (·.lexeme = .punct .rbrace)

/-- No brace is closed before it is opened, and in the end all are closed. -/
structure Balanced (ts : List Token) : Prop where
  fronts : ∀ us, us <+: ts → closed us ≤ opened us
  total : closed ts = opened ts

variable {us vs ts : List Token} {t : Token}

@[simp] theorem opened_nil : opened [] = 0 := rfl

@[simp] theorem closed_nil : closed [] = 0 := rfl

@[simp] theorem opened_append (us vs : List Token) :
    opened (us ++ vs) = opened us + opened vs := by simp [opened]

@[simp] theorem closed_append (us vs : List Token) :
    closed (us ++ vs) = closed us + closed vs := by simp [closed]

@[simp] theorem opened_cons (t : Token) (ts : List Token) :
    opened (t :: ts) = opened ts + if t.lexeme = .punct .lbrace then 1 else 0 := by
  simp [opened, List.countP_cons]

@[simp] theorem closed_cons (t : Token) (ts : List Token) :
    closed (t :: ts) = closed ts + if t.lexeme = .punct .rbrace then 1 else 0 := by
  simp [closed, List.countP_cons]

theorem balanced_nil : Balanced [] := by
  refine ⟨?_, rfl⟩
  intro us hu
  rw [List.prefix_nil.1 hu]
  simp

/-- A front of two lists in a row. -/
theorem front_append (h : ts <+: us ++ vs) : ts <+: us ∨ ∃ ws, ws <+: vs ∧ ts = us ++ ws := by
  rcases List.prefix_or_prefix_of_prefix h (List.prefix_append us vs) with hu | ⟨ws, rfl⟩
  · exact .inl hu
  · exact .inr ⟨ws, (List.prefix_append_right_inj us).1 h, rfl⟩

theorem Balanced.append (hu : Balanced us) (hv : Balanced vs) : Balanced (us ++ vs) := by
  refine ⟨?_, by simp [hu.total, hv.total]⟩
  intro ts h
  rcases front_append h with h | ⟨ws, hw, rfl⟩
  · exact hu.fronts ts h
  · have := hv.fronts ws hw
    have := hu.total
    simp
    omega

/-- Tokens without braces. -/
def NoBrace (ts : List Token) : Prop :=
  ∀ t ∈ ts, t.lexeme ≠ .punct .lbrace ∧ t.lexeme ≠ .punct .rbrace

theorem NoBrace.counts (h : NoBrace ts) : opened ts = 0 ∧ closed ts = 0 := by
  constructor
  · simpa [opened] using fun t ht => (h t ht).1
  · simpa [closed] using fun t ht => (h t ht).2

theorem NoBrace.balanced (h : NoBrace ts) : Balanced ts := by
  refine ⟨?_, by rw [h.counts.1, h.counts.2]⟩
  intro us hu
  have hus : NoBrace us := fun t ht => h t (hu.subset ht)
  rw [hus.counts.2]
  exact Nat.zero_le _

theorem Balanced.block {l r : Token} (hl : l.lexeme = .punct .lbrace)
    (hr : r.lexeme = .punct .rbrace) (h : Balanced us) : Balanced (l :: (us ++ [r])) := by
  refine ⟨?_, by simp [hl, hr, h.total]⟩
  intro ts hts
  rcases List.prefix_cons_iff.1 hts with rfl | ⟨inner, rfl, hinner⟩
  · simp
  rcases front_append hinner with hu | ⟨ws, hw, rfl⟩
  · have := h.fronts inner hu
    simp [hl]
    omega
  · have hws : closed ws ≤ 1 := by
      rcases List.prefix_cons_iff.1 hw with rfl | ⟨us, rfl, hus⟩
      · simp
      · rw [List.prefix_nil.1 hus]
        simp [hr]
    have := h.total
    simp [hl]
    omega

/-! ## Statements that are skipped -/

/-- Where a token stands: at the beginning of a statement, behind it, or inside a statement that is
skipped. -/
inductive Place where
  | start
  | inside
  | skipped

/-- The place behind a token that is not skipped. -/
def behind (t : Token) : Place :=
  match t.lexeme with
  | .punct .semi | .punct .lbrace | .punct .rbrace => .start
  | _ => .inside

/-- Tokens, each with whether a statement that it belongs to is skipped. -/
def mark : Place → List Token → List (Token × Bool)
  | _, [] => []
  | .start, t :: ts =>
    if isSkipped t then (t, true) :: mark .skipped ts else (t, false) :: mark (behind t) ts
  | .inside, t :: ts => (t, false) :: mark (behind t) ts
  | .skipped, t :: ts =>
    (t, true) :: mark (if t.lexeme = .punct .semi then .start else .skipped) ts

/-- The marked tokens, or the others. -/
def choose (skipped : Bool) (ms : List (Token × Bool)) : List Token :=
  (ms.filter (·.2 == skipped)).map Prod.fst

/-- The tokens of the statements that are skipped. -/
def skippedTokens (ts : List Token) : List Token := choose true (mark .start ts)

/-- The tokens outside of the statements that are skipped. -/
def keptTokens (ts : List Token) : List Token := choose false (mark .start ts)

theorem choose_append (b : Bool) (ms ns : List (Token × Bool)) :
    choose b (ms ++ ns) = choose b ms ++ choose b ns := by simp [choose]

theorem map_fst_mark (p : Place) (ts : List Token) : (mark p ts).map Prod.fst = ts := by
  fun_induction mark p ts with
  | case1 => rfl
  | case2 => simp_all
  | case3 => simp_all
  | case4 => simp_all
  | case5 => simp_all

theorem mark_front (p : Place) (us vs : List Token) : mark p us <+: mark p (us ++ vs) := by
  induction us generalizing p with
  | nil => cases p <;> simp [mark]
  | cons t us ih =>
    cases p with
    | start =>
      simp only [List.cons_append, mark]
      split
      · exact List.cons_prefix_cons.2 ⟨rfl, ih _⟩
      · exact List.cons_prefix_cons.2 ⟨rfl, ih _⟩
    | inside => exact List.cons_prefix_cons.2 ⟨rfl, ih _⟩
    | skipped => exact List.cons_prefix_cons.2 ⟨rfl, ih _⟩

theorem countP_choose (q : Token → Bool) (ms : List (Token × Bool)) :
    (ms.map Prod.fst).countP q = (choose false ms).countP q + (choose true ms).countP q := by
  induction ms with
  | nil => rfl
  | cons m ms ih =>
    obtain ⟨t, _ | _⟩ := m
    · simp only [choose] at ih ⊢
      simp [List.countP_cons, ih]
      omega
    · simp only [choose] at ih ⊢
      simp [List.countP_cons, ih]
      omega

/-- If no brace is skipped, those outside of what is skipped are all there are. -/
theorem Balanced.of_kept (hk : Balanced (keptTokens ts)) (hs : NoBrace (skippedTokens ts)) :
    Balanced ts := by
  have counts {us : List Token} (hu : us <+: ts) : keptTokens us <+: keptTokens ts ∧
      opened us = opened (keptTokens us) ∧ closed us = closed (keptTokens us) := by
    obtain ⟨vs, rfl⟩ := hu
    have hfront := mark_front .start us vs
    have hno : NoBrace (skippedTokens us) := fun t ht =>
      hs t (((hfront.filter _).map _).subset ht)
    have hmark := map_fst_mark .start us
    have ho := countP_choose (fun t => t.lexeme = .punct .lbrace) (mark .start us)
    have hc := countP_choose (fun t => t.lexeme = .punct .rbrace) (mark .start us)
    rw [hmark] at ho hc
    refine ⟨(hfront.filter _).map _, ?_, ?_⟩
    · exact ho.trans (congrArg (_ + ·) hno.counts.1)
    · exact hc.trans (congrArg (_ + ·) hno.counts.2)
  constructor
  · intro us hu
    obtain ⟨hfront, ho, hc⟩ := counts hu
    rw [ho, hc]
    exact hk.fronts _ hfront
  · obtain ⟨_, ho, hc⟩ := counts (List.prefix_refl ts)
    rw [ho, hc]
    exact hk.total

/-! ## The grammar -/

/-- Tokens from the beginning of a statement to the end of one, with balanced braces. -/
structure Sealed (us : List Token) : Prop where
  mark_append : ∀ vs, mark .start (us ++ vs) = mark .start us ++ mark .start vs
  balanced : Balanced (keptTokens us)

theorem sealed_nil : Sealed [] := ⟨fun _ => rfl, balanced_nil⟩

theorem Sealed.append (hu : Sealed us) (hv : Sealed vs) : Sealed (us ++ vs) := by
  constructor
  · intro ws
    rw [List.append_assoc, hu.mark_append, hv.mark_append, hu.mark_append, List.append_assoc]
  · rw [keptTokens, hu.mark_append, choose_append]
    exact hu.balanced.append hv.balanced

theorem sealed_semi (p : Position) : Sealed [⟨.punct .semi, p⟩] := by
  constructor
  · intro vs
    rfl
  · refine NoBrace.balanced ?_
    intro t ht
    obtain rfl : t = ⟨.punct .semi, p⟩ := by simpa [keptTokens, choose, mark, isSkipped] using ht
    simp

/-- A token that neither ends a statement nor begins a block. -/
def Plain (t : Token) : Prop := behind t = .inside

theorem noBrace_of_plain (h : ∀ u ∈ us, Plain u) : NoBrace us := by
  intro t ht
  have hplain := h t ht
  constructor
  · intro e
    simp [Plain, behind, e] at hplain
  · intro e
    simp [Plain, behind, e] at hplain

/-- Plain tokens inside a statement. -/
theorem mark_plain (h : ∀ u ∈ us, Plain u) (vs : List Token) :
    mark .inside (us ++ vs) = us.map (·, false) ++ mark .inside vs := by
  induction us with
  | nil => rfl
  | cons u us ih =>
    have hu : behind u = .inside := h u (by simp)
    simp only [List.cons_append, mark, hu, List.map_cons]
    rw [ih fun v hv => h v (by simp [hv])]

theorem mark_opening (ht : isSkipped t = false) (h : ∀ u ∈ t :: us, Plain u) (vs : List Token) :
    mark .start (t :: us ++ vs) = (t :: us).map (·, false) ++ mark .inside vs := by
  have hb : behind t = .inside := h t (by simp)
  simp only [List.cons_append, mark, ht, Bool.false_eq_true, if_false, hb, List.map_cons]
  rw [mark_plain fun u hu => h u (by simp [hu])]

theorem choose_map (us : List Token) : choose false (us.map (·, false)) = us := by
  simp [choose, List.filter_map, Function.comp_def]

/-- A statement that ends with a semicolon. -/
theorem sealed_statement (t : Token) (us : List Token) (ht : isSkipped t = false)
    (h : ∀ u ∈ t :: us, Plain u) (p : Position) : Sealed (t :: us ++ [⟨.punct .semi, p⟩]) := by
  have hmark (vs : List Token) : mark .start (t :: us ++ ⟨.punct .semi, p⟩ :: vs) =
      (t :: us ++ [(⟨.punct .semi, p⟩ : Token)]).map (·, false) ++ mark .start vs := by
    rw [mark_opening ht h, List.map_append, List.append_assoc]
    rfl
  constructor
  · intro vs
    rw [List.append_assoc, List.singleton_append, hmark, hmark]
    simp [mark]
  · rw [keptTokens, hmark, mark, List.append_nil, choose_map]
    exact (noBrace_of_plain h).balanced.append (NoBrace.balanced (by simp [NoBrace]))

/-- A statement that ends with a block. -/
theorem sealed_block (t : Token) (us : List Token) (ht : isSkipped t = false)
    (h : ∀ u ∈ t :: us, Plain u) (hv : Sealed vs) (p q : Position) :
    Sealed (t :: us ++ ⟨.punct .lbrace, p⟩ :: (vs ++ [⟨.punct .rbrace, q⟩])) := by
  have hmark (ws : List Token) :
      mark .start (t :: us ++ ⟨.punct .lbrace, p⟩ :: (vs ++ ⟨.punct .rbrace, q⟩ :: ws)) =
        (t :: us).map (·, false) ++ (⟨.punct .lbrace, p⟩, false) ::
          (mark .start vs ++ (⟨.punct .rbrace, q⟩, false) :: mark .start ws) := by
    rw [mark_opening ht h]
    simp only [mark, behind, hv.mark_append, isSkipped]
    rfl
  have hempty := hmark []
  constructor
  · intro ws
    rw [hempty]
    simpa [mark] using hmark ws
  · rw [keptTokens, hempty, choose_append, choose_map]
    refine (noBrace_of_plain h).balanced.append ?_
    have := hv.balanced.block (l := ⟨.punct .lbrace, p⟩) (r := ⟨.punct .rbrace, q⟩) rfl rfl
    simpa [keptTokens, choose, mark] using this

/-- A statement that is skipped. -/
theorem SkippedStmt.sealed (h : SkippedStmt us) : Sealed us := by
  cases h with
  | @intro t us p ht hus =>
    have hskipped : isSkipped t = true := isSkipped_iff.2 ht
    have hmark (vs : List Token) : mark .start (t :: (us ++ ⟨.punct .semi, p⟩ :: vs)) =
        (t :: (us ++ [⟨.punct .semi, p⟩])).map (·, true) ++ mark .start vs := by
      simp only [mark, hskipped, if_true, List.map_cons, List.cons_append]
      congr 1
      induction us with
      | nil => rfl
      | cons u us ih =>
        have hu : u.lexeme ≠ .punct .semi := hus u (by simp)
        simp only [List.cons_append, mark, if_neg hu, List.map_cons]
        rw [ih fun v hv => hus v (by simp [hv])]
    constructor
    · intro vs
      have := hmark []
      rw [mark, List.append_nil] at this
      rw [this, ← hmark vs]
      simp
    · have : keptTokens (t :: (us ++ [⟨.punct .semi, p⟩])) = [] := by
        rw [keptTokens, hmark []]
        simp [choose, mark, List.filter_map, Function.comp_def]
      rw [this]
      exact balanced_nil

theorem IsReference.plain {l : Lexeme} {ss : List String} (h : IsReference l ss) (p : Position) :
    Plain ⟨l, p⟩ := by
  cases h <;> rfl

theorem IsOptionValue.plain {l : Lexeme} {v : OptionValue} (h : IsOptionValue l v) (p : Position) :
    Plain ⟨l, p⟩ := by
  cases h with
  | text => rfl
  | number => rfl
  | reference h => exact h.plain p

theorem OptionStmt.sealed {o : OptionDecl} (h : OptionStmt us o) : Sealed us := by
  cases h with
  | @intro l v _ _ p p₁ p₂ p₃ p₄ hr hv =>
    refine sealed_statement ⟨.keyword .optionWord, p⟩ [⟨l, p₁⟩, ⟨.punct .equals, p₂⟩, ⟨v, p₃⟩] rfl
      ?_ p₄
    simp only [List.forall_mem_cons]
    exact ⟨rfl, hr.plain p₁, rfl, hv.plain p₃, by simp⟩

theorem ImportStmt.sealed {i : ImportDecl} (h : ImportStmt us i) : Sealed us := by
  cases h with
  | @plain path p p₁ p₂ =>
    refine sealed_statement ⟨.keyword .importWord, p⟩ [⟨.text path, p₁⟩] rfl ?_ p₂
    simp [Plain, behind]
  | @weak path p p₁ p₂ p₃ =>
    refine sealed_statement ⟨.keyword .importWord, p⟩ [⟨.keyword .weakWord, p₁⟩, ⟨.text path, p₂⟩]
      rfl ?_ p₃
    simp [Plain, behind]
  | @shared path p p₁ p₂ p₃ =>
    refine sealed_statement ⟨.keyword .importWord, p⟩
      [⟨.keyword .publicWord, p₁⟩, ⟨.text path, p₂⟩] rfl ?_ p₃
    simp [Plain, behind]

theorem PackageStmt.sealed {ss : List String} (h : PackageStmt us ss) : Sealed us := by
  cases h with
  | @intro l _ p p₁ p₂ hr =>
    refine sealed_statement ⟨.keyword .packageWord, p⟩ [⟨l, p₁⟩] rfl ?_ p₂
    simp only [List.forall_mem_cons]
    exact ⟨rfl, hr.plain p₁, by simp⟩

theorem TypeOf.plain {type : FieldType} (h : TypeOf us type) : ∀ u ∈ us, Plain u := by
  induction h with
  | scalar => simp [Plain, behind]
  | named => simp [Plain, behind]
  | dotted => simp [Plain, behind]
  | map _ _ ihk ihv =>
    simp only [List.forall_mem_cons, List.forall_mem_append]
    exact ⟨rfl, rfl, ihk, rfl, ihv, rfl, by simp⟩

theorem FieldRest.plain {name : String} {n : Nat} {p : Position} (h : FieldRest us name n p) :
    ∃ init q, us = init ++ [⟨.punct .semi, q⟩] ∧ ∀ u ∈ init, Plain u := by
  cases h with
  | @intro l _ _ p₁ p₂ _ p₄ hn =>
    refine ⟨[⟨l, p₁⟩, ⟨.punct .equals, p₂⟩, ⟨.number n, p⟩], p₄, rfl, ?_⟩
    simp only [List.forall_mem_cons]
    exact ⟨by cases hn <;> rfl, rfl, rfl, by simp⟩

theorem FieldStmt.sealed {f : Field} (h : FieldStmt us f) : Sealed us := by
  obtain ⟨t, ts, e, _, _, _, _, hskip, _⟩ := h.head
  have hskip : isSkipped t = false := by simpa using hskip
  cases h with
  | single htype hrest =>
    obtain ⟨init, q, rfl, hinit⟩ := hrest.plain
    cases e
    rw [← List.append_assoc, ← List.cons_append]
    refine sealed_statement _ _ hskip ?_ q
    intro u hu
    rw [← List.cons_append] at hu
    rcases List.mem_append.1 hu with hu | hu
    · exact htype.plain u hu
    · exact hinit u hu
  | repeated htype hrest =>
    obtain ⟨init, q, rfl, hinit⟩ := hrest.plain
    cases e
    rw [← List.append_assoc, ← List.cons_append]
    refine sealed_statement _ _ hskip ?_ q
    rw [List.forall_mem_cons, List.forall_mem_append]
    exact ⟨rfl, htype.plain, hinit⟩

theorem Items.sealed {b : MessageBody} (h : Items us b) : Sealed us := by
  induction h with
  | nil => exact sealed_nil
  | semi _ ih => exact (sealed_semi _).append ih
  | @message us vs name _ _ p p₁ p₂ p₃ _ _ ihin ih =>
    have hblock := sealed_block ⟨.keyword .messageWord, p⟩ [⟨.ident name, p₁⟩] rfl
      (by simp [Plain, behind]) ihin p₂ p₃
    simpa using hblock.append ih
  | option ho _ ih => exact ho.sealed.append ih
  | skipped hs _ ih => exact hs.sealed.append ih
  | field hf _ ih => exact hf.sealed.append ih

theorem MessageDecl.sealed {m : Message} (h : MessageDecl us m) : Sealed us := by
  cases h with
  | @intro us name _ p p₁ p₂ p₃ hi =>
    exact sealed_block ⟨.keyword .messageWord, p⟩ [⟨.ident name, p₁⟩] rfl
      (by simp [Plain, behind]) hi.sealed p₂ p₃

theorem MoreParams.plain {ps : List String} (h : MoreParams us ps) : ∀ u ∈ us, Plain u := by
  induction h with
  | nil => simp
  | cons hr _ ih =>
    simp only [List.forall_mem_cons]
    exact ⟨rfl, hr.plain _, ih⟩

theorem RpcItems.sealed (h : RpcItems us) : Sealed us := by
  induction h with
  | nil => exact sealed_nil
  | semi _ ih => exact (sealed_semi _).append ih
  | option ho _ ih => exact ho.sealed.append ih

theorem RpcDecl.sealed {r : Rpc} (h : RpcDecl us r) : Sealed us := by
  cases h with
  | @intro us vs name l r _ _ _ p p₁ p₂ p₃ p₄ p₅ p₆ p₇ p₈ hp hm hr he =>
    let header : List Token := ⟨.ident name, p₁⟩ :: ⟨.punct .lparen, p₂⟩ :: ⟨l, p₃⟩ :: (us ++
      [⟨.punct .rparen, p₄⟩, ⟨.ident "returns", p₅⟩, ⟨.punct .lparen, p₆⟩, ⟨r, p₇⟩,
        ⟨.punct .rparen, p₈⟩])
    have hheader : ∀ u ∈ ⟨.ident "rpc", p⟩ :: header, Plain u := by
      simp only [header, List.forall_mem_cons, List.forall_mem_append]
      exact ⟨rfl, rfl, rfl, hp.plain _, hm.plain, rfl, rfl, rfl, hr.plain _, rfl, by simp⟩
    cases he with
    | @semi q =>
      have := sealed_statement ⟨.ident "rpc", p⟩ header rfl hheader q
      simpa [header] using this
    | @block ws q q₁ hi =>
      have := sealed_block ⟨.ident "rpc", p⟩ header rfl hheader hi.sealed q q₁
      simpa [header] using this

theorem ServiceItems.sealed {b : ServiceBody} (h : ServiceItems us b) : Sealed us := by
  induction h with
  | nil => exact sealed_nil
  | semi _ ih => exact (sealed_semi _).append ih
  | option ho _ ih => exact ho.sealed.append ih
  | rpc hr _ ih => exact hr.sealed.append ih

theorem ServiceDecl.sealed {s : Service} (h : ServiceDecl us s) : Sealed us := by
  cases h with
  | @intro us name _ p p₁ p₂ p₃ hi =>
    exact sealed_block ⟨.keyword .serviceWord, p⟩ [⟨.ident name, p₁⟩] rfl
      (by simp [Plain, behind]) hi.sealed p₂ p₃

theorem Statements.sealed {b : Body} (h : Statements us b) : Sealed us := by
  induction h with
  | nil => exact sealed_nil
  | semi _ ih => exact (sealed_semi _).append ih
  | package hp _ _ ih => exact hp.sealed.append ih
  | importDecl hi _ ih => exact hi.sealed.append ih
  | option ho _ ih => exact ho.sealed.append ih
  | message hm _ ih => exact hm.sealed.append ih
  | service hs _ ih => exact hs.sealed.append ih

theorem Derives.sealed {source : Option String} {d : Document} (h : Derives source us d) :
    Sealed us := by
  cases h with
  | @intro us dialect _ p p₁ p₂ p₃ hs =>
    have hfirst := sealed_statement ⟨.keyword .syntaxWord, p⟩
      [⟨.punct .equals, p₁⟩, ⟨.text dialect.word, p₂⟩] rfl (by simp [Plain, behind]) p₃
    simpa using hfirst.append hs.sealed

/-! ## Accepted sources -/

variable {σ : Type} [ByteInput σ] {s : σ} {source : Option String} {d : Document}

theorem derives_plainTokens (h : Document.ofInput s source = .ok d) :
    Derives source (plainTokens s) d := by
  obtain ⟨us, s', y, hd, _⟩ := ofInput_iff_derives.1 h
  have hrun := (run_token s).symm.trans ((run_eq_iff progresses_token).2 y)
  obtain rfl : plainTokens s = us := congrArg Run.items hrun
  exact hd

theorem countP_punct_filter (q : Punct) (us : List Token) :
    (us.filter (!·.isComment)).countP (·.lexeme = .punct q) = us.countP (·.lexeme = .punct q) := by
  rw [List.countP_filter]
  refine List.countP_congr fun t _ => ?_
  by_cases ht : t.lexeme = .punct q
  · simp [Token.isComment, Lexeme.kind, ht]
  · simp [ht]

/-- Comments are no braces. -/
theorem Balanced.of_plain (h : Balanced (ts.filter (!·.isComment))) : Balanced ts := by
  constructor
  · intro us hu
    have := h.fronts _ (hu.filter _)
    rwa [opened, closed, countP_punct_filter, countP_punct_filter] at this
  · have := h.total
    rwa [opened, closed, countP_punct_filter, countP_punct_filter] at this

/-- In an accepted source, the braces outside of skipped statements are balanced; if no brace stands in
such a statement, all braces are. -/
theorem braces_balanced (h : Document.ofInput s source = .ok d) :
    Balanced (keptTokens (plainTokens s)) ∧
      (NoBrace (skippedTokens (plainTokens s)) → Balanced (Lexer.tokens s).items) := by
  have hkept := (derives_plainTokens h).sealed.balanced
  refine ⟨hkept, ?_⟩
  intro hskipped
  exact (hkept.of_kept hskipped).of_plain

/-- A message with a statement that is skipped, in which a brace is opened and none is closed. -/
def openedInside : String := "syntax = 'proto3'; message M \x7b reserved \x7b ; \x7d"

theorem ofText_openedInside : Document.ofText openedInside none =
    .ok ⟨.proto3, [], [], [], [⟨"M", [], [], [], ⟨1, 20⟩⟩], [], none⟩ :=
  ofText_of_toOption (by decide +kernel)

/-- In the second message the statement that is skipped has no brace in it. -/
theorem braces_balanced_sample :
    let s := Bytes.ofList (Utf8.encode openedInside.toList)
    let t := Bytes.ofList (Utf8.encode "syntax = 'proto3'; message M \x7b reserved 1; \x7d".toList)
    Balanced (keptTokens (plainTokens s)) ∧ Balanced (keptTokens (plainTokens t)) ∧
      Balanced (Lexer.tokens t).items := by
  intro s t
  have hread : Document.ofInput t none =
      .ok ⟨.proto3, [], [], [], [⟨"M", [], [], [], ⟨1, 20⟩⟩], [], none⟩ :=
    ofText_of_toOption (by decide +kernel)
  have hnone : NoBrace (skippedTokens (plainTokens t)) := by
    unfold NoBrace
    decide +kernel
  obtain ⟨hkept, hall⟩ := braces_balanced hread
  exact ⟨(braces_balanced ofText_openedInside).1, hkept, hall hnone⟩

/-- Braces in a skipped statement need not be balanced. -/
theorem braces_not_balanced : ¬ ∀ (text : String) (d : Document), Document.ofText text none = .ok d →
    Balanced (Lexer.tokens (Bytes.ofList (Utf8.encode text.toList))).items := by
  intro h
  have htotal := (h _ _ ofText_openedInside).total
  revert htotal
  decide +kernel

end Syntactic
end ProtoSchema
