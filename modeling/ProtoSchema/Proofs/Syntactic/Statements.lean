import ProtoSchema.Proofs.Document.Valid
import ProtoSchema.Proofs.Syntactic.Grammar
import ProtoSchema.Proofs.Syntactic.Recognizer

/-!
# ProtoSchema.Proofs.Syntactic.Statements

The productions without a body recognize what the syntactic grammar derives: options, imports,
packages, types and fields. A production that is entered by a token recognizes what may follow it.
-/

namespace ProtoSchema
namespace Syntactic

open Scan ProtoSchema.Parser

variable {σ β : Type} [TokenSource σ] [LawfulTokenSource σ] {n : Nat}

/-! ## Terminals -/

theorem identOf?_eq_some {t : Token} {m : String} : identOf? t = some m ↔ t.lexeme = .ident m := by
  unfold identOf?
  split <;> simp_all

theorem nameOf?_eq_some {t : Token} {m : String} : nameOf? t = some m ↔ IsName t.lexeme m := by
  obtain ⟨l, p⟩ := t
  constructor
  · intro h
    cases l with
    | ident => cases h; exact .ident _
    | keyword => cases h; exact .keyword _
    | _ => cases h
  · intro h
    cases h <;> rfl

theorem segmentsOf?_eq_some {t : Token} {ss : List String} :
    segmentsOf? t = some ss ↔ IsReference t.lexeme ss := by
  obtain ⟨l, p⟩ := t
  constructor
  · intro h
    cases l with
    | ident => cases h; exact .ident _
    | dotted => cases h; exact .dotted _
    | _ => cases h
  · intro h
    cases h <;> rfl

theorem optionValueOf?_eq_some {t : Token} {v : OptionValue} :
    optionValueOf? t = some v ↔ IsOptionValue t.lexeme v := by
  obtain ⟨l, p⟩ := t
  constructor
  · intro h
    cases l with
    | text => cases h; exact .text _
    | number => cases h; exact .number _
    | ident => cases h; exact .reference (.ident _)
    | dotted => cases h; exact .reference (.dotted _)
    | _ => cases h
  · intro h
    cases h with
    | text => rfl
    | number => rfl
    | reference hr => cases hr <;> rfl

namespace Lang

/-- A punctuation mark and behind it a word of `G`. -/
@[simp] abbrev mark (q : Punct) (G : Lang β) : Lang β :=
  fun ts b => ∃ x us, ts = ⟨.punct q, x⟩ :: us ∧ G us b

@[simp] abbrev keyword (k : Keyword) (G : Lang β) : Lang β :=
  fun ts b => ∃ x us, ts = ⟨.keyword k, x⟩ :: us ∧ G us b

@[simp] abbrev ident (K : String → Lang β) : Lang β :=
  fun ts b => ∃ m x us, ts = ⟨.ident m, x⟩ :: us ∧ K m us b

@[simp] abbrev name (K : String → Lang β) : Lang β :=
  fun ts b => ∃ l m x us, ts = ⟨l, x⟩ :: us ∧ IsName l m ∧ K m us b

@[simp] abbrev segments (K : List String → Lang β) : Lang β :=
  fun ts b => ∃ l ss x us, ts = ⟨l, x⟩ :: us ∧ IsReference l ss ∧ K ss us b

@[simp] abbrev reference (K : String → Lang β) : Lang β :=
  segments fun ss => K (".".intercalate ss)

@[simp] abbrev number (K : Nat × Position → Lang β) : Lang β :=
  fun ts b => ∃ m x us, ts = ⟨.number m, x⟩ :: us ∧ K (m, x) us b

/-- One of two punctuation marks and behind it a word of the language that it chooses. -/
@[simp] abbrev either (p q : Punct) (K : Bool → Lang β) : Lang β :=
  fun ts b => ∃ x us, (ts = ⟨.punct p, x⟩ :: us ∧ K true us b) ∨
    (ts = ⟨.punct q, x⟩ :: us ∧ K false us b)

end Lang

section Words

variable {ts : List Token} {b : β} {G : Lang β} {K : String → Lang β}

theorem taken_mark {q : Punct} :
    Lang.taken (fun t => if t.lexeme = .punct q then some () else none) (fun _ => G) ts b ↔
      Lang.mark q G ts b := by
  constructor
  · rintro ⟨⟨l, x⟩, us, _, rfl, ht, hb⟩
    simp only [ite_eq_left_iff, reduceCtorEq, imp_false, Decidable.not_not] at ht
    subst ht
    exact ⟨x, us, rfl, hb⟩
  · rintro ⟨x, us, rfl, hb⟩
    exact ⟨_, us, (), rfl, by simp, hb⟩

theorem taken_keyword {k : Keyword} :
    Lang.taken (fun t => if t.lexeme = .keyword k then some () else none) (fun _ => G) ts b ↔
      Lang.keyword k G ts b := by
  constructor
  · rintro ⟨⟨l, x⟩, us, _, rfl, ht, hb⟩
    simp only [ite_eq_left_iff, reduceCtorEq, imp_false, Decidable.not_not] at ht
    subst ht
    exact ⟨x, us, rfl, hb⟩
  · rintro ⟨x, us, rfl, hb⟩
    exact ⟨_, us, (), rfl, by simp, hb⟩

theorem taken_ident : Lang.taken identOf? K ts b ↔ Lang.ident K ts b := by
  constructor
  · rintro ⟨⟨l, x⟩, us, m, rfl, ht, hb⟩
    cases identOf?_eq_some.1 ht
    exact ⟨m, x, us, rfl, hb⟩
  · rintro ⟨m, x, us, rfl, hb⟩
    exact ⟨_, us, m, rfl, rfl, hb⟩

theorem taken_name : Lang.taken nameOf? K ts b ↔ Lang.name K ts b := by
  constructor
  · rintro ⟨⟨l, x⟩, us, m, rfl, ht, hb⟩
    exact ⟨l, m, x, us, rfl, nameOf?_eq_some.1 ht, hb⟩
  · rintro ⟨l, m, x, us, rfl, ht, hb⟩
    exact ⟨_, us, m, rfl, nameOf?_eq_some.2 ht, hb⟩

theorem taken_segments {K : List String → Lang β} : Lang.taken segmentsOf? K ts b ↔ Lang.segments K ts b := by
  constructor
  · rintro ⟨⟨l, x⟩, us, ss, rfl, ht, hb⟩
    exact ⟨l, ss, x, us, rfl, segmentsOf?_eq_some.1 ht, hb⟩
  · rintro ⟨l, ss, x, us, rfl, ht, hb⟩
    exact ⟨_, us, ss, rfl, segmentsOf?_eq_some.2 ht, hb⟩

theorem taken_number {K : Nat × Position → Lang β} :
    Lang.taken (fun t => match t.lexeme with | .number n => some (n, t.position) | _ => none) K ts b ↔
      Lang.number K ts b := by
  constructor
  · rintro ⟨⟨l, x⟩, us, m, rfl, ht, hb⟩
    cases l with
    | number m => cases ht; exact ⟨m, x, us, rfl, hb⟩
    | _ => cases ht
  · rintro ⟨m, x, us, rfl, hb⟩
    exact ⟨_, us, (m, x), rfl, rfl, hb⟩

theorem taken_either {p q : Punct} (hpq : p ≠ q) {K : Bool → Lang β} :
    Lang.taken (fun t => if t.lexeme = .punct p then some true
      else if t.lexeme = .punct q then some false else none) K ts b ↔ Lang.either p q K ts b := by
  constructor
  · rintro ⟨⟨l, x⟩, us, first, rfl, ht, hb⟩
    simp only at ht
    split at ht
    · next hl => cases hl; cases ht; exact ⟨x, us, .inl ⟨rfl, hb⟩⟩
    · split at ht
      · next hl => cases hl; cases ht; exact ⟨x, us, .inr ⟨rfl, hb⟩⟩
      · cases ht
  · rintro ⟨x, us, ⟨rfl, hb⟩ | ⟨rfl, hb⟩⟩
    · exact ⟨_, us, true, rfl, by simp, hb⟩
    · exact ⟨_, us, false, rfl, by simp [hpq.symm], hb⟩

end Words

section Terminals

variable {p : Scan σ β} {f : String → Scan σ β} {G : Lang β} {K : String → Lang β}

/-- The budget of what follows a mark may be smaller by one. -/
theorem recognizes_punct_bind_succ (q : Punct) (h : Recognizes n p G) :
    Recognizes (n + 1) (punct q >>= fun _ => p) (.mark q G) :=
  (recognizes_accept_bind fun _ => h).congr fun _ _ => taken_mark

theorem recognizes_punct_bind (q : Punct) (h : Recognizes n p G) :
    Recognizes n (punct q >>= fun _ => p) (.mark q G) :=
  (recognizes_punct_bind_succ q h).step

theorem recognizes_keyword_bind (k : Keyword) (h : Recognizes n p G) :
    Recognizes n (keyword k >>= fun _ => p) (.keyword k G) :=
  (recognizes_accept_bind fun _ => h).step.congr fun _ _ => taken_keyword

theorem recognizes_ident_bind (h : ∀ m, Recognizes n (f m) (K m)) :
    Recognizes n (ident >>= f) (.ident K) :=
  (recognizes_accept_bind h).step.congr fun _ _ => taken_ident

theorem recognizes_name_bind (what : String) (h : ∀ m, Recognizes n (f m) (K m)) :
    Recognizes n (name what >>= f) (.name K) :=
  (recognizes_accept_bind h).step.congr fun _ _ => taken_name

theorem recognizes_segments_bind {f : List String → Scan σ β} {K : List String → Lang β}
    (h : ∀ ss, Recognizes n (f ss) (K ss)) : Recognizes n (segments >>= f) (.segments K) :=
  (recognizes_accept_bind h).step.congr fun _ _ => taken_segments

omit [LawfulTokenSource σ] in
theorem reference_bind_eq :
    reference >>= f = segments (σ := σ) >>= fun ss => f (".".intercalate ss) := by
  unfold reference
  simp only [bind_assoc, pure_bind]

theorem recognizes_reference_bind (h : ∀ m, Recognizes n (f m) (K m)) :
    Recognizes n (reference >>= f) (.reference K) := by
  rw [reference_bind_eq]
  exact recognizes_segments_bind fun ss => h (".".intercalate ss)

theorem recognizes_number_bind {f : Nat × Position → Scan σ β} {K : Nat × Position → Lang β}
    (h : ∀ m, Recognizes n (f m) (K m)) : Recognizes n (number >>= f) (.number K) :=
  (recognizes_accept_bind h).step.congr fun _ _ => taken_number

theorem recognizes_either_bind {p q : Punct} (hpq : p ≠ q) {f : Bool → Scan σ β}
    {K : Bool → Lang β} (h : ∀ first, Recognizes n (f first) (K first)) :
    Recognizes (n + 1) (either p q >>= f) (.either p q K) :=
  (recognizes_accept_bind h).congr fun _ _ => taken_either hpq

end Terminals

/-! ## Options, packages and imports -/

section Simple

variable {p : Position} {ts : List Token}

theorem optionStmt_iff {o : OptionDecl} :
    Lang.reference (fun name => .mark .equals (.taken optionValueOf? fun value => .mark .semi
      (.one (⟨name, value, p⟩ : OptionDecl)))) ts o ↔ OptionStmt (⟨.keyword .optionWord, p⟩ :: ts) o := by
  constructor
  · rintro ⟨l, ss, p₁, _, rfl, hl, p₂, _, rfl, ⟨v, p₃⟩, _, value, rfl, hv, p₄, _, rfl, rfl, rfl⟩
    exact .intro hl (optionValueOf?_eq_some.1 hv)
  · rintro ⟨hl, hv⟩
    exact ⟨_, _, _, _, rfl, hl, _, _, rfl, _, _, _, rfl, optionValueOf?_eq_some.2 hv, _, _, rfl, rfl,
      rfl⟩

theorem packageStmt_iff {ss : List String} :
    Lang.segments (fun ss => .mark .semi (.one ss)) ts ss ↔
      PackageStmt (⟨.keyword .packageWord, p⟩ :: ts) ss := by
  constructor
  · rintro ⟨l, ss, p₁, _, rfl, hl, p₂, _, rfl, rfl, rfl⟩
    exact .intro hl
  · rintro ⟨hl⟩
    exact ⟨_, _, _, _, rfl, hl, _, _, rfl, rfl, rfl⟩

/-- What is behind the path `t` of an import. -/
def ImportPath (kind : ImportKind) (p : Position) (t : Token) : Lang ImportDecl :=
  fun ts i => ∃ path x, t.lexeme = .text path ∧ ts = [⟨.punct .semi, x⟩] ∧ i = ⟨path, kind, p⟩

theorem importPath_iff {kind : ImportKind} {t : Token} {path : String} (hl : t.lexeme = .text path)
    {i : ImportDecl} :
    Lang.mark .semi (.one (⟨path, kind, p⟩ : ImportDecl)) ts i ↔ ImportPath kind p t ts i := by
  constructor
  · rintro ⟨x, _, rfl, rfl, rfl⟩
    exact ⟨path, x, hl, rfl, rfl⟩
  · rintro ⟨_, x, e, rfl, rfl⟩
    cases hl.symm.trans e
    exact ⟨x, _, rfl, rfl, rfl⟩

theorem importPath_empty {kind : ImportKind} {t : Token} (hl : ∀ path, t.lexeme ≠ .text path)
    {i : ImportDecl} : ¬ ImportPath kind p t ts i := by
  rintro ⟨path, x, e, _⟩
  exact hl path e

theorem importStmt_iff {i : ImportDecl} :
    Lang.token (fun t => .cases (importKindOf t = .plain)
      (.seq (.one t) (ImportPath (importKindOf t) p)) (.token (ImportPath (importKindOf t) p))) ts i ↔
        ImportStmt (⟨.keyword .importWord, p⟩ :: ts) i := by
  constructor
  · rintro ⟨⟨l, y⟩, _, rfl, ⟨hk, _, _, _, rfl, ⟨rfl, rfl⟩, path, x, hl, rfl, rfl⟩ |
      ⟨hk, ⟨_, z⟩, _, rfl, path, x, hl, rfl, rfl⟩⟩
    · cases hl
      exact .plain
    · cases hl
      unfold importKindOf at hk ⊢
      split at hk
      · next hl => cases hl; exact .shared
      · next hl => cases hl; exact .weak
      · exact absurd rfl hk
  · intro h
    cases h with
    | plain =>
      exact ⟨_, _, rfl, .inl ⟨rfl, _, [], _, rfl, ⟨rfl, rfl⟩, _, _, rfl, rfl, rfl⟩⟩
    | weak =>
      exact ⟨_, _, rfl, .inr ⟨by simp [importKindOf], _, _, rfl, _, _, rfl, rfl, rfl⟩⟩
    | shared =>
      exact ⟨_, _, rfl, .inr ⟨by simp [importKindOf], _, _, rfl, _, _, rfl, rfl, rfl⟩⟩

end Simple

theorem recognizes_optionDecl {start : Token} (hstart : start.lexeme = .keyword .optionWord) :
    Recognizes n (optionDecl start : Scan σ OptionDecl) fun ts o => OptionStmt (start :: ts) o := by
  obtain ⟨l, p⟩ := start
  cases hstart
  exact (recognizes_reference_bind fun name => recognizes_punct_bind .equals
    (recognizes_accept_bind fun value => recognizes_punct_bind .semi
      (recognizes_pure (⟨name, value, p⟩ : OptionDecl))).step).congr fun _ _ => optionStmt_iff

theorem recognizes_package {start : Token} (hstart : start.lexeme = .keyword .packageWord) :
    Recognizes n (package : Scan σ (List String)) fun ts ss => PackageStmt (start :: ts) ss := by
  obtain ⟨l, p⟩ := start
  cases hstart
  exact (recognizes_segments_bind fun ss => recognizes_punct_bind .semi
    (recognizes_pure ss)).congr fun _ _ => packageStmt_iff

/-- The path of an import and what is behind it. -/
theorem recognizes_importPath (kind : ImportKind) (p : Position) (t : Token) : Recognizes n
    (match t.lexeme with
      | .text path => do
        punct .semi
        pure ⟨path, kind, p⟩
      | _ => refuseToken (.phrase "import path string") t : Scan σ ImportDecl)
    (ImportPath kind p t) := by
  split
  · next path hl =>
    exact (recognizes_punct_bind .semi (recognizes_pure _)).congr fun _ _ => importPath_iff hl
  · next hl =>
    exact (recognizes_none fun s i s' h => by cases h).congr fun _ _ =>
      (iff_false_intro (importPath_empty hl)).symm

theorem recognizes_importDecl {start : Token} (hstart : start.lexeme = .keyword .importWord) :
    Recognizes n (importDecl start : Scan σ ImportDecl) fun ts i => ImportStmt (start :: ts) i := by
  obtain ⟨l, p⟩ := start
  cases hstart
  have path (t : Token) := recognizes_importPath (σ := σ) (n := n) (importKindOf t) p
  exact (recognizes_require_bind fun t => recognizes_ite
    (fun _ => recognizes_bind (recognizes_pure t) (path t))
    (fun _ => (recognizes_require_bind (path t)).step)).step.congr fun _ _ => importStmt_iff

/-! ## Fields -/

section Fields

variable {K : FieldType → Prop} {p : Position} {start : Token} {ts : List Token} {type : FieldType}

/-- The types that begin with the token `t` and satisfy `K`. -/
abbrev TypeFrom (K : FieldType → Prop) (t : Token) : Lang FieldType :=
  fun ts type => TypeOf (t :: ts) type ∧ K type

theorem typeFrom_ident_iff {m : String} (hK : K (.named m)) :
    Lang.one (.named m) ts type ↔ TypeFrom K ⟨.ident m, p⟩ ts type := by
  constructor
  · rintro ⟨rfl, rfl⟩
    exact ⟨.named, hK⟩
  · rintro ⟨h, _⟩
    cases h
    exact ⟨rfl, rfl⟩

theorem typeFrom_dotted_iff {ss : List String} (hK : K (.dotted ss)) :
    Lang.one (.dotted ss) ts type ↔ TypeFrom K ⟨.dotted ss, p⟩ ts type := by
  constructor
  · rintro ⟨rfl, rfl⟩
    exact ⟨.dotted, hK⟩
  · rintro ⟨h, _⟩
    cases h
    exact ⟨rfl, rfl⟩

theorem typeFrom_scalar_iff {s : Scalar} (hK : K (.scalar s)) :
    Lang.one (.scalar s) ts type ↔ TypeFrom K ⟨.keyword (.scalar s), p⟩ ts type := by
  constructor
  · rintro ⟨rfl, rfl⟩
    exact ⟨.scalar, hK⟩
  · rintro ⟨h, _⟩
    cases h
    exact ⟨rfl, rfl⟩

/-- A map is read after its key has been checked. -/
theorem typeFrom_map_iff {C : FieldType → Prop}
    (hK : ∀ key value, K (.map key value) ↔ C key ∧ K key ∧ K value) :
    Lang.mark .langle (.token fun k => .seq (TypeFrom K k) fun key => .cases (C key)
      (.mark .comma (.token fun v => .seq (TypeFrom K v) fun value =>
        .mark .rangle (.one (.map key value)))) .empty) ts type ↔
      TypeFrom K ⟨.keyword .mapWord, p⟩ ts type := by
  constructor
  · rintro ⟨x, _, rfl, k, _, rfl, key, us, _, rfl, ⟨hk, hkK⟩, ⟨hkey, y, _, rfl, v, _, rfl, value, vs,
      _, rfl, ⟨hv, hvK⟩, z, _, rfl, rfl, rfl⟩ | ⟨_, h⟩⟩
    · exact ⟨.map hk hv, (hK key value).2 ⟨hkey, hkK, hvK⟩⟩
    · exact h.elim
  · rintro ⟨h, hval⟩
    cases h with
    | map hk hv =>
      obtain ⟨k, us, rfl, _⟩ := hk.head
      obtain ⟨v, vs, rfl, _⟩ := hv.head
      obtain ⟨hkey, hkK, hvK⟩ := (hK _ _).1 hval
      exact ⟨_, _, rfl, k, _, rfl, _, us, _, rfl, ⟨hk, hkK⟩, .inl ⟨hkey, _, _, rfl, v, _, rfl, _, vs,
        _, rfl, ⟨hv, hvK⟩, _, _, rfl, rfl, rfl⟩⟩

/-- What follows the type of a field, with the place of the number. -/
abbrev BehindType (type : FieldType) (repeated : Bool) :
    Lang (FieldType × String × Nat × Position × Bool) :=
  .name fun name => .mark .equals (.number fun m => .mark .semi
    (.one (type, name, m.1, m.2, repeated)))

/-- What follows the token `t` that begins the type of a field. -/
abbrev TypedField (K : FieldType → Prop) (t : Token) (repeated : Bool) :
    Lang (FieldType × String × Nat × Position × Bool) :=
  .seq (TypeFrom K t) fun type => BehindType type repeated

/-- What follows the first token of a field. -/
abbrev FieldSyntax (K : FieldType → Prop) (start : Token) :
    Lang (FieldType × String × Nat × Position × Bool) :=
  .cases (start.lexeme = .keyword .repeatedWord) (.token fun t => TypedField K t true)
    (TypedField K start false)

theorem fieldStmt_iff {f : Field} : Lang.seq (FieldSyntax K start) (fun r =>
    .one (⟨r.1, r.2.1, r.2.2.1, r.2.2.2.2, start.position⟩ : Field)) ts f ↔
      FieldStmt (start :: ts) f ∧ K f.type := by
  constructor
  · rintro ⟨_, _, _, rfl, ⟨hs, t, _, rfl, type, us, _, rfl, ⟨ht, hK⟩, l, name, _, _, rfl, hl, _, _, rfl,
      m, y, _, rfl, _, _, rfl, rfl, rfl⟩ | ⟨hs, type, us, _, rfl, ⟨ht, hK⟩, l, name, _, _, rfl, hl, _,
      _, rfl, m, y, _, rfl, _, _, rfl, rfl, rfl⟩, rfl, rfl⟩
    · obtain ⟨l, p⟩ := start
      cases hs
      rw [List.append_nil]
      exact ⟨.repeated ht (.intro hl), hK⟩
    · rw [List.append_nil]
      exact ⟨.single ht (.intro hl), hK⟩
  · rintro ⟨h, hK⟩
    cases h with
    | @single _ us vs type name m x ht hr =>
      cases hr with
      | intro hl =>
        refine ⟨_, _, [], (List.append_nil _).symm, .inr ⟨?_, type, us, _, rfl, ⟨ht, hK⟩, _, _, _, _,
          rfl, hl, _, _, rfl, m, x, _, rfl, _, _, rfl, rfl, rfl⟩, rfl, rfl⟩
        obtain ⟨t, _, e, hh⟩ := ht.head
        cases e
        intro hs
        simp [hs] at hh
    | @repeated us vs type name m p x ht hr =>
      cases hr with
      | intro hl =>
        obtain ⟨t, us, rfl, _⟩ := ht.head
        exact ⟨_, _, [], (List.append_nil _).symm, .inl ⟨rfl, t, _, rfl, type, us, _, rfl, ⟨ht, hK⟩, _,
          _, _, _, rfl, hl, _, _, rfl, m, x, _, rfl, _, _, rfl, rfl, rfl⟩, rfl, rfl⟩

end Fields

theorem recognizes_mapTypeWith {type : Token → Scan σ FieldType} {p : Position}
    (h : ∀ t, Recognizes n (type t) (TypeFrom FieldType.KeysValid t)) :
    Recognizes (n + 1) (mapTypeWith type)
      (TypeFrom FieldType.KeysValid ⟨.keyword .mapWord, p⟩) := by
  exact (recognizes_punct_bind_succ .langle (recognizes_require_bind fun k =>
    recognizes_bind (h k) fun key => recognizes_ite
      (fun _ => recognizes_punct_bind .comma (recognizes_require_bind fun v =>
        recognizes_bind (h v) fun value => recognizes_punct_bind .rangle
          (recognizes_pure (FieldType.map key value))).step)
      fun _ => recognizes_refuse _ _).step).congr fun ts type =>
    typeFrom_map_iff fun key value => by rw [FieldType.isKey_iff]; rfl

theorem recognizes_fieldType (n : Nat) (t : Token) :
    Recognizes n (fieldType n t : Scan σ FieldType) (TypeFrom FieldType.KeysValid t) := by
  induction n generalizing t with
  | zero => exact recognizes_zero
  | succ n ih =>
    obtain ⟨l, p⟩ := t
    -- a token that begins no type
    have none (h : ∀ ts type, ¬ TypeOf (⟨l, p⟩ :: ts) type) :
        Recognizes (n + 1) (refuseToken (.phrase "field type") ⟨l, p⟩ : Scan σ FieldType)
          (TypeFrom FieldType.KeysValid ⟨l, p⟩) :=
      (recognizes_none fun s a s' h => by cases h).congr fun ts type => by simp [h ts type]
    cases l with
    | ident m => exact (recognizes_pure (FieldType.named m)).congr fun _ _ => typeFrom_ident_iff trivial
    | dotted ss =>
      exact (recognizes_pure (FieldType.dotted ss)).congr fun _ _ => typeFrom_dotted_iff trivial
    | keyword k =>
      cases k with
      | scalar s =>
        exact (recognizes_pure (FieldType.scalar s)).congr fun _ _ => typeFrom_scalar_iff trivial
      | mapWord => exact recognizes_mapTypeWith ih
      | _ => exact none fun ts type h => by cases h
    | _ => exact none fun ts type h => by cases h

/-- A field behind its label. -/
theorem recognizes_typedField (t : Token) (repeated : Bool) : Recognizes n
    (do
      let type ← fieldType n t
      let name ← name "field name"
      punct .equals
      let (m, x) ← number
      punct .semi
      pure (type, name, m, x, repeated) :
        Scan σ (FieldType × String × Nat × Position × Bool))
    (TypedField FieldType.KeysValid t repeated) :=
  recognizes_bind (recognizes_fieldType n t) fun type =>
    recognizes_name_bind "field name" fun name => recognizes_punct_bind .equals
      (recognizes_number_bind fun m => recognizes_punct_bind .semi
        (recognizes_pure (type, name, m.1, m.2, repeated)))

theorem recognizes_fieldSyntax (start : Token) :
    Recognizes n (fieldSyntax n start : Scan σ (FieldType × String × Nat × Position × Bool))
      (FieldSyntax FieldType.KeysValid start) := by
  by_cases hstart : start.lexeme = .keyword .repeatedWord
  · unfold fieldSyntax
    simp only [hstart, if_true, beq_self_eq_true]
    exact (recognizes_require_bind fun t => recognizes_typedField t true).step.congr
      fun ts r => by simp [FieldSyntax, hstart]
  · have hb : (start.lexeme == .keyword .repeatedWord) = false := by simpa using hstart
    unfold fieldSyntax
    simp only [hb, Bool.false_eq_true, if_false, pure_bind]
    exact (recognizes_typedField start false).congr fun ts r => by simp [FieldSyntax, hstart]

theorem recognizes_field (start : Token) :
    Recognizes n (field n start : Scan σ Field) fun ts f => FieldStmt (start :: ts) f ∧ f.Valid := by
  unfold field
  refine (recognizes_bind (recognizes_adaptExcept (recognizes_fieldSyntax start)) fun r =>
    recognizes_ite (fun _ => recognizes_pure
        (⟨r.1, r.2.1, r.2.2.1, r.2.2.2.2, start.position⟩ : Field))
      (fun _ => recognizes_refuse (.numberOutOfRange r.2.2.1) r.2.2.2.1)).congr fun ts f => ?_
  constructor
  · rintro ⟨⟨type, name, m, x, repeated⟩, us, vs, rfl, hr, ⟨⟨hone, hmax⟩, rfl, rfl⟩ | ⟨_, h⟩⟩
    · obtain ⟨hstmt, hkeys⟩ := fieldStmt_iff.1 ⟨_, us, [], rfl, hr, rfl, rfl⟩
      simp only [maxFieldNumber] at hone hmax
      exact ⟨hstmt, by simp only; omega, hkeys⟩
    · exact h.elim
  · rintro ⟨hstmt, hrange, hkeys⟩
    obtain ⟨⟨type, name, m, x, repeated⟩, us, vs, rfl, hr, rfl, rfl⟩ :=
      fieldStmt_iff.2 ⟨hstmt, hkeys⟩
    simp only at hrange
    exact ⟨_, us, [], rfl, hr, .inl ⟨by simp only [maxFieldNumber]; omega, rfl, rfl⟩⟩

/-! ## Statements that are forgotten -/

/-- The tokens up to the first semicolon. -/
def Skipped : Lang Unit :=
  fun ts _ => ∃ us x, ts = us ++ [⟨.punct .semi, x⟩] ∧ ∀ u ∈ us, u.lexeme ≠ .punct .semi

theorem skipped_iff {ts : List Token} {u : Unit} :
    Lang.token (fun t => .cases (t.lexeme = .punct .semi) (.one ()) Skipped) ts u ↔ Skipped ts u := by
  constructor
  · rintro ⟨⟨l, x⟩, _, rfl, ⟨hl, rfl, _⟩ | ⟨hl, us, y, rfl, hu⟩⟩
    · cases hl
      exact ⟨[], x, rfl, by simp⟩
    · refine ⟨⟨l, x⟩ :: us, y, rfl, ?_⟩
      intro u hmem
      rcases List.mem_cons.1 hmem with rfl | hmem
      · exact hl
      · exact hu u hmem
  · rintro ⟨us, x, rfl, hu⟩
    cases us with
    | nil => exact ⟨_, [], rfl, .inl ⟨rfl, rfl, rfl⟩⟩
    | cons u us =>
      exact ⟨u, _, rfl, .inr ⟨hu u (by simp), us, x, rfl, fun v hv => hu v (by simp [hv])⟩⟩

theorem recognizes_skipStatement (n : Nat) :
    Recognizes n (skipStatement n : Scan σ Unit) Skipped := by
  induction n with
  | zero => exact recognizes_zero
  | succ n ih =>
    unfold skipStatement
    exact (recognizes_require_bind fun t => recognizes_ite (fun _ => recognizes_pure ())
      (fun _ => ih)).congr fun _ _ => skipped_iff

/-! ## The first statement -/

theorem ofWord?_eq_some {w : String} {d : Dialect} : Dialect.ofWord? w = some d ↔ w = d.word := by
  constructor
  · intro h
    have := List.find?_some h
    simpa using (beq_iff_eq.1 this).symm
  · rintro rfl
    cases d <;> decide

/-- What is behind the name of a dialect, if it is the name of one. -/
def DialectRest (r : String × Position) : Lang Dialect :=
  fun ts d => r.1 = d.word ∧ ∃ x, ts = [⟨.punct .semi, x⟩]

theorem dialectRest_iff {r : String × Position} {d : Dialect} (h : Dialect.ofWord? r.1 = some d)
    {ts : List Token} {d' : Dialect} :
    Lang.mark .semi (.one d) ts d' ↔ DialectRest r ts d' := by
  constructor
  · rintro ⟨x, _, rfl, rfl, rfl⟩
    exact ⟨ofWord?_eq_some.1 h, x, rfl⟩
  · rintro ⟨e, x, rfl⟩
    rw [ofWord?_eq_some.2 e] at h
    cases h
    exact ⟨x, _, rfl, rfl, rfl⟩

theorem dialectRest_empty {r : String × Position} (h : Dialect.ofWord? r.1 = none) {ts : List Token}
    {d : Dialect} : ¬ DialectRest r ts d := by
  rintro ⟨e, _⟩
  rw [ofWord?_eq_some.2 e] at h
  cases h

theorem recognizes_knownDialect (r : String × Position) : Recognizes n
    (match Dialect.ofWord? r.1 with
      | some d => do
        punct .semi
        pure d
      | none => refuse (.unknownDialect r.1) r.2 : Scan σ Dialect)
    (DialectRest r) := by
  cases h : Dialect.ofWord? r.1 with
  | some d =>
    exact (recognizes_punct_bind .semi (recognizes_pure d)).congr fun _ _ => dialectRest_iff h
  | none =>
    exact (recognizes_refuse _ _).congr fun _ _ => (iff_false_intro (dialectRest_empty h)).symm

/-- The string of a token, with its place. -/
def textOf? (t : Token) : Option (String × Position) :=
  match t.lexeme with
  | .text s => some (s, t.position)
  | _ => none

/-- The statement that names the dialect. -/
def DialectStmt : Lang Dialect := fun ts d => ∃ p p₁ p₂ p₃,
  ts = [⟨.keyword .syntaxWord, p⟩, ⟨.punct .equals, p₁⟩, ⟨.text d.word, p₂⟩, ⟨.punct .semi, p₃⟩]

theorem dialectStmt_iff {ts : List Token} {d : Dialect} :
    Lang.keyword .syntaxWord (.mark .equals (.taken textOf? DialectRest)) ts d ↔ DialectStmt ts d := by
  constructor
  · rintro ⟨p, _, rfl, p₁, _, rfl, ⟨l, p₂⟩, _, r, rfl, hl, hr, p₃, rfl⟩
    cases l with
    | text s =>
      cases hl
      simp only at hr
      exact ⟨p, p₁, p₂, p₃, by rw [hr]⟩
    | _ => cases hl
  · rintro ⟨p, p₁, p₂, p₃, rfl⟩
    exact ⟨_, _, rfl, _, _, rfl, _, _, (d.word, p₂), rfl, rfl, rfl, _, rfl⟩

theorem recognizes_dialect : Recognizes n (dialect : Scan σ Dialect) DialectStmt :=
  (recognizes_keyword_bind .syntaxWord (recognizes_punct_bind .equals
    (recognizes_accept_bind recognizes_knownDialect).step)).congr fun _ _ => dialectStmt_iff

end Syntactic
end ProtoSchema
