import ProtoSchema.Proofs.Lexical.Trivia
import ProtoSchema.Proofs.Printing.Spelling
import ProtoSchema.Proofs.Streams

/-!
# ProtoSchema.Proofs.Printing.Types

The text of a type is undone by the parser of types, whatever input follows it (`fieldType_text`). A type
with a key that no map may have is refused at the first such key (`BadKey`), at any depth.

Both go by induction: over the type, and over the way to the bad key. A map is read in two halves, up to
the check of its key and from there on (`mapValue`), so that each way to end is put together from what is
known of the key and of the value.
-/

namespace ProtoSchema

open Text

namespace FieldType

/-- How deep the maps of a type are nested. -/
def height : FieldType → Nat
  | map k v => max k.height v.height + 1
  | _ => 0

/-- The first key in the text of a type that no map may have, and the text before it. A key is checked
behind its text, after the maps inside it and before the value. -/
inductive BadKey : FieldType → String → FieldType → Prop where
  | inKey {k v key : FieldType} {front : String} :
      BadKey k front key → BadKey (map k v) ("map<" ++ front) key
  | here {k v : FieldType} : k.KeysValid → k.isKey = false → BadKey (map k v) "map<" k
  | inValue {k v key : FieldType} {front : String} :
      k.KeysValid → k.isKey = true → BadKey v front key →
      BadKey (map k v) ("map<" ++ k.text ++ ", " ++ front) key

variable {t key : FieldType} {front : String}

theorem exists_badKey (h : ¬ t.KeysValid) : ∃ front key, t.BadKey front key := by
  induction t with
  | scalar => exact absurd trivial h
  | named => exact absurd trivial h
  | dotted => exact absurd trivial h
  | map k v ihk ihv =>
    by_cases hk : k.KeysValid
    · by_cases hkey : k.isKey = true
      · have hv : ¬ v.KeysValid := fun hv => h ⟨k.isKey_iff.1 hkey, hk, hv⟩
        obtain ⟨front, key, hbad⟩ := ihv hv
        exact ⟨_, key, .inValue hk hkey hbad⟩
      · exact ⟨_, k, .here hk (Bool.eq_false_iff.2 hkey)⟩
    · obtain ⟨front, key, hbad⟩ := ihk hk
      exact ⟨_, key, .inKey hbad⟩

/-- The bad key stands in the text. -/
theorem BadKey.text_eq (h : t.BadKey front key) : ∃ back, t.text = front ++ key.text ++ back := by
  induction h with
  | @inKey k v key front _ ih =>
    obtain ⟨back, hback⟩ := ih
    exact ⟨back ++ ", " ++ v.text ++ ">", by simp [text, hback, String.append_assoc]⟩
  | @here k v => exact ⟨", " ++ v.text ++ ">", by simp [text, String.append_assoc]⟩
  | @inValue k v key front _ _ _ ih =>
    obtain ⟨back, hback⟩ := ih
    exact ⟨back ++ ">", by simp [text, hback, String.append_assoc]⟩

end FieldType

namespace Printing

open Scan ProtoSchema.Parser Lexical

variable {rest w : List UInt8} {p : Position} {t k v key : FieldType} {front : String} {n budget : Nat}

/-! ## Bytes and places in a map -/

/-- The bytes behind the key of a map with the value `v`. -/
def behindKey (v : FieldType) (rest : List UInt8) : List UInt8 :=
  Punct.comma.byte :: 0x20 :: (bytes v.text ++ Punct.rangle.byte :: rest)

/-- The place of the key of a map that begins at `p`. -/
def keyPlace (p : Position) : Position :=
  (p.after (bytes Keyword.mapWord.word)).next Punct.langle.byte

/-- The place of the value of a map whose key ends before `p`. -/
def valuePlace (p : Position) : Position := (p.next Punct.comma.byte).next 0x20

theorem bytes_map (k v : FieldType) (rest : List UInt8) : bytes (FieldType.map k v).text ++ rest =
    bytes Keyword.mapWord.word ++ Punct.langle.byte :: (bytes k.text ++ behindKey v rest) := by
  have hopen : bytes "map<" = bytes Keyword.mapWord.word ++ [Punct.langle.byte] := by decide
  have hcomma : bytes ", " = [Punct.comma.byte, 0x20] := by decide
  have hclose : bytes ">" = [Punct.rangle.byte] := by decide
  simp only [FieldType.text, bytes_append, hopen, hcomma, hclose, behindKey]
  simp

theorem after_open (p : Position) : p.after (bytes "map<") = keyPlace p := by
  have hopen : bytes "map<" = bytes Keyword.mapWord.word ++ [Punct.langle.byte] := by decide
  rw [hopen, Position.after_append]
  rfl

theorem after_map (p : Position) (k v : FieldType) : p.after (bytes (FieldType.map k v).text) =
    ((valuePlace ((keyPlace p).after (bytes k.text))).after (bytes v.text)).next
      Punct.rangle.byte := by
  rw [← List.append_nil (bytes _), bytes_map]
  simp [behindKey, keyPlace, valuePlace, Position.after_append]

theorem after_key (p : Position) (k : FieldType) : p.after (bytes ("map<" ++ k.text ++ ", ")) =
    valuePlace ((keyPlace p).after (bytes k.text)) := by
  rw [bytes_append, bytes_append, Position.after_append, Position.after_append, after_open]
  rfl

theorem ends_behindKey (v : FieldType) (rest : List UInt8) : Ends (behindKey v rest) :=
  ends_punct .comma _

theorem height_le (t : FieldType) : t.height ≤ (bytes t.text).length := by
  induction t with
  | scalar => exact Nat.zero_le _
  | named => exact Nat.zero_le _
  | dotted => exact Nat.zero_le _
  | map k v ihk ihv =>
    have hlen := congrArg List.length (bytes_map k v [])
    simp only [behindKey, List.append_nil, List.length_append, List.length_cons,
      List.length_nil] at hlen
    simp only [FieldType.height]
    omega

/-! ## Tokens on bytes in memory -/

theorem token_reading {x : List UInt8} {l : Lexeme} (h : Reading x rest l) (hf : Fits x l)
    (hc : l.kind ≠ .comment) (hdot : rest.head? ≠ some Byte.dot) :
    token? (⟨x ++ rest, p⟩ : Bytes) = .ok (some ⟨l, p⟩) ⟨rest, p.after x⟩ := by
  have hnext := next_reading (w := []) (by simp) h hf hdot p
  exact token_of_next hnext (by simpa [Token.isComment] using hc)

/-- A blank before a token is passed over. -/
theorem token_space (bs : List UInt8) :
    token? (⟨0x20 :: bs, p⟩ : Bytes) = token? (⟨bs, p.next 0x20⟩ : Bytes) := by
  have hblank : ∀ b ∈ [0x20], Byte.isBlank b = true := by
    intro b hb
    rw [List.mem_singleton.1 hb]
    rfl
  exact first_congr _ (next_behind_blanks hblank bs p)

theorem require_token {what : Demand} {tok : Token} {s s' : Bytes} (h : token? s = .ok (some tok) s') :
    require what s = .ok tok s' := by
  unfold require
  rw [bind_ok h]
  rfl

theorem punct_byte (q : Punct) (bs : List UInt8) :
    punct q (⟨q.byte :: bs, p⟩ : Bytes) = .ok () ⟨bs, p.next q.byte⟩ := by
  have hblank : Byte.isBlank q.byte = false := by cases q <;> rfl
  have hlexeme : Lexer.lexeme q.byte p (⟨q.byte :: bs, p⟩ : Bytes) =
      .ok (.punct q) ⟨bs, p.next q.byte⟩ := lexeme_punct q
  have htoken : token? (⟨q.byte :: bs, p⟩ : Bytes) = .ok (some ⟨.punct q, p⟩) ⟨bs, p.next q.byte⟩ :=
    token_of_next (next_of_lexeme hblank hlexeme) rfl
  unfold punct accept
  rw [bind_ok (require_token htoken)]
  simp

/-! ## Types on bytes in memory -/

/-- The next token begins a type, which is read with the result `r` by any budget from `n` on; so many
bytes there are behind the token. -/
def Reads (n : Nat) (s : Bytes) (r : EStateM.Result Failure Bytes FieldType) : Prop :=
  ∃ l s₁, token? s = .ok (some ⟨l, s.position⟩) s₁ ∧ n ≤ s₁.rest.length ∧
    ∀ budget, n ≤ budget → fieldType budget ⟨l, s.position⟩ s₁ = r

/-- The rest of a map type behind its key. -/
def mapValue (type : Token → Scan Bytes FieldType) (key : FieldType) : Scan Bytes FieldType := do
  punct .comma
  let v ← require (.phrase "map value type")
  let value ← type v
  punct .rangle
  pure (.map key value)

theorem mapTypeWith_apply {type : Token → Scan Bytes FieldType} {tok : Token} {s : Bytes}
    (h : token? (⟨w, p.next Punct.langle.byte⟩ : Bytes) = .ok (some tok) s) :
    mapTypeWith type ⟨Punct.langle.byte :: w, p⟩ = (type tok >>= fun key =>
      if key.isKey = true then mapValue type key else refuse (.invalidKey key) tok.position) s := by
  unfold mapTypeWith
  rw [bind_ok (punct_byte .langle w), bind_ok (require_token h)]
  rfl

theorem mapValue_apply {type : Token → Scan Bytes FieldType} {tok : Token} {s : Bytes}
    (h : token? (⟨bytes v.text ++ Punct.rangle.byte :: rest, valuePlace p⟩ : Bytes) =
      .ok (some tok) s) :
    mapValue type key ⟨behindKey v rest, p⟩ =
      (type tok >>= fun value => punct .rangle >>= fun _ => pure (.map key value)) s := by
  unfold mapValue behindKey
  rw [bind_ok (punct_byte .comma _), bind_ok (require_token ((token_space _).trans h))]

section Halves

variable {e : Failure} {s : Bytes}

theorem Reads.key_error (h : Reads n ⟨w, p.next Punct.langle.byte⟩ (.error e s)) (hn : n ≤ budget) :
    mapTypeWith (fieldType budget) (⟨Punct.langle.byte :: w, p⟩ : Bytes) = .error e s := by
  obtain ⟨l, s₁, htoken, _, hread⟩ := h
  rw [mapTypeWith_apply htoken, bind_error (hread budget hn)]

theorem Reads.key_refused (h : Reads n ⟨w, p.next Punct.langle.byte⟩ (.ok key s)) (hn : n ≤ budget)
    (hkey : key.isKey = false) :
    mapTypeWith (fieldType budget) (⟨Punct.langle.byte :: w, p⟩ : Bytes) =
      .error (.refused ⟨.invalidKey key, p.next Punct.langle.byte⟩) s := by
  obtain ⟨l, s₁, htoken, _, hread⟩ := h
  rw [mapTypeWith_apply htoken, bind_ok (hread budget hn), if_neg (by simp [hkey])]
  rfl

theorem Reads.key_ok (h : Reads n ⟨w, p.next Punct.langle.byte⟩ (.ok key s)) (hn : n ≤ budget)
    (hkey : key.isKey = true) :
    mapTypeWith (fieldType budget) (⟨Punct.langle.byte :: w, p⟩ : Bytes) =
      mapValue (fieldType budget) key s := by
  obtain ⟨l, s₁, htoken, _, hread⟩ := h
  rw [mapTypeWith_apply htoken, bind_ok (hread budget hn), if_pos hkey]

theorem Reads.value_error
    (h : Reads n ⟨bytes v.text ++ Punct.rangle.byte :: rest, valuePlace p⟩ (.error e s))
    (hn : n ≤ budget) :
    mapValue (fieldType budget) key ⟨behindKey v rest, p⟩ = .error e s := by
  obtain ⟨l, s₁, htoken, _, hread⟩ := h
  rw [mapValue_apply htoken, bind_error (hread budget hn)]

theorem Reads.value_ok {q : Position}
    (h : Reads n ⟨bytes v.text ++ Punct.rangle.byte :: rest, valuePlace p⟩
      (.ok v ⟨Punct.rangle.byte :: rest, q⟩)) (hn : n ≤ budget) :
    mapValue (fieldType budget) key ⟨behindKey v rest, p⟩ =
      .ok (.map key v) ⟨rest, q.next Punct.rangle.byte⟩ := by
  obtain ⟨l, s₁, htoken, _, hread⟩ := h
  rw [mapValue_apply htoken, bind_ok (hread budget hn), bind_ok (punct_byte .rangle rest)]
  rfl

end Halves

/-- A type of one token. -/
theorem reads_token {x : List UInt8} {l : Lexeme} (h : Reading x rest l) (hf : Fits x l)
    (hc : l.kind ≠ .comment) (he : Ends rest)
    (htype : ∀ budget q (s : Bytes), fieldType budget ⟨l, q⟩ s = .ok t s) :
    Reads 0 ⟨x ++ rest, p⟩ (.ok t ⟨rest, p.after x⟩) :=
  ⟨l, _, token_reading h hf hc he.head_ne_dot, Nat.zero_le _, fun budget _ => htype budget _ _⟩

/-- A map is read as the rest behind its keyword is, which needs one round less. -/
theorem reads_map {r : EStateM.Result Failure Bytes FieldType}
    (h : ∀ budget, k.height ≤ budget → v.height ≤ budget →
      mapTypeWith (fieldType budget) ⟨Punct.langle.byte :: (bytes k.text ++ behindKey v rest),
        p.after (bytes Keyword.mapWord.word)⟩ = r) :
    Reads (FieldType.map k v).height ⟨bytes (FieldType.map k v).text ++ rest, p⟩ r := by
  have hk := height_le k
  have hv := height_le v
  rw [bytes_map]
  refine ⟨.keyword .mapWord, _, token_reading (reading_keyword .mapWord (ends_punct .langle _)) nofun
    nofun (ends_punct .langle _).head_ne_dot, ?_, ?_⟩
  · simp only [FieldType.height, behindKey, List.length_cons, List.length_append]
    omega
  · intro budget hn
    simp only [FieldType.height] at hn
    obtain ⟨budget, rfl⟩ : ∃ m, budget = m + 1 := ⟨budget - 1, by omega⟩
    exact h budget (by omega) (by omega)

/-- A type whose keys may be keys is read from its text, and exactly its text is taken. -/
theorem reads_text (ht : t.Named) (hk : t.KeysValid) (he : Ends rest) (p : Position) :
    Reads t.height ⟨bytes t.text ++ rest, p⟩ (.ok t ⟨rest, p.after (bytes t.text)⟩) := by
  induction t generalizing rest p with
  | scalar s =>
    refine reads_token (reading_keyword (.scalar s) he) nofun nofun he fun budget _ _ => ?_
    cases budget <;> rfl
  | named m =>
    refine reads_token (reading_ident ht he) nofun nofun he fun budget _ _ => ?_
    cases budget <;> rfl
  | dotted ss =>
    refine reads_token (reading_dotted ht he) nofun nofun he fun budget _ _ => ?_
    cases budget <;> rfl
  | map k v ihk ihv =>
    obtain ⟨hkey, hk, hv⟩ := hk
    have hreadKey := ihk ht.1 hk (ends_behindKey v rest) (keyPlace p)
    have hreadValue := ihv ht.2 hv (ends_punct .rangle rest)
      (valuePlace ((keyPlace p).after (bytes k.text)))
    rw [after_map]
    refine reads_map fun budget hnk hnv => ?_
    rw [Reads.key_ok hreadKey hnk (k.isKey_iff.2 hkey), hreadValue.value_ok hnv]

/-- A type is refused at its first bad key. -/
theorem reads_badKey (h : t.BadKey front key) (ht : t.Named) (he : Ends rest) (p : Position) :
    ∃ s, Reads t.height ⟨bytes t.text ++ rest, p⟩
      (.error (.refused ⟨.invalidKey key, p.after (bytes front)⟩) s) := by
  induction h generalizing rest p with
  | @inKey k v key front _ ih =>
    obtain ⟨s, hread⟩ := ih ht.1 (ends_behindKey v rest) (keyPlace p)
    rw [bytes_append, Position.after_append, after_open]
    exact ⟨s, reads_map fun budget hnk _ => Reads.key_error hread hnk⟩
  | @here k v hk hkey =>
    have hread := reads_text ht.1 hk (ends_behindKey v rest) (keyPlace p)
    rw [after_open]
    exact ⟨_, reads_map fun budget hnk _ => Reads.key_refused hread hnk hkey⟩
  | @inValue k v key front hk hkey _ ih =>
    have hreadKey := reads_text ht.1 hk (ends_behindKey v rest) (keyPlace p)
    obtain ⟨s, hreadValue⟩ := ih ht.2 (ends_punct .rangle rest)
      (valuePlace ((keyPlace p).after (bytes k.text)))
    rw [bytes_append, Position.after_append, after_key]
    refine ⟨s, reads_map fun budget hnk hnv => ?_⟩
    rw [Reads.key_ok hreadKey hnk hkey, hreadValue.value_error hnv]

/-! ## Types on cursors -/

/-- What is read from bytes in memory is read from a cursor on a stream that ends with these bytes. -/
theorem Reads.ending {c : Cursor} {s : Bytes} {r : EStateM.Result Failure Bytes FieldType}
    (h : Reads n s r) (hr : Cursor.ending.Rel [] c s) :
    ∃ start c₁, token? c = .ok (some start) c₁ ∧
      Cursor.ending.tokens.Ends (fun _ => none) (budgeted (fieldType · start) c₁) r := by
  obtain ⟨l, s₁, htoken, hn, hread⟩ := h
  generalize hc : token? c = o
  cases Cursor.ending.couples_token.ends_of_eq hr hc htoken with
  | lost hlost => exact hlost.elim
  | @ok _ c₁ _ hr =>
    have hends := Cursor.ending.ends_fieldType ⟨l, s.position⟩ hr
    have hbudget : budgeted (fieldType · ⟨l, s.position⟩) s₁ = r := hread _ (Nat.le_succ_of_le hn)
    rw [hbudget] at hends
    exact ⟨_, c₁, rfl, hends⟩

/-- The text of a type is undone by the parser of types, whatever input follows it, as long as no name
goes on there and however the bytes come in: the token that is taken begins the same type again, and
exactly what follows the text is left. A type in which a map has a key that no map may have, at any depth,
is refused by the rule on keys, at the first such key. -/
theorem fieldType_text (ht : t.Named) (he : Ends rest) {c : Cursor}
    (hend : c.stream.ending = .exhausted) (hc : c.offered = bytes t.text ++ rest) :
    ∃ start c₁, token? c = .ok (some start) c₁ ∧
      (t.KeysValid → ∃ c', budgeted (fieldType · start) c₁ = .ok t c' ∧ c'.offered = rest ∧
        c'.position = c.position.after (bytes t.text)) ∧
      (¬ t.KeysValid → ∃ front key back e c', t.BadKey front key ∧
        t.text = front ++ key.text ++ back ∧
        budgeted (fieldType · start) c₁ = .error (.refused e) c' ∧
        e = ⟨.invalidKey key, c.position.after (bytes front)⟩ ∧ e.cause.layer = .semantic) := by
  have hview : Faithful.view c = ⟨bytes t.text ++ rest, c.position⟩ := by
    show (⟨c.offered, c.position⟩ : Bytes) = _
    rw [hc]
  have hrel : Cursor.ending.Rel [] c ⟨bytes t.text ++ rest, c.position⟩ :=
    ⟨hview ▸ Faithful.coupling_rel c, hend⟩
  by_cases hk : t.KeysValid
  · obtain ⟨start, c₁, htoken, hends⟩ := (reads_text ht hk he c.position).ending hrel
    refine ⟨start, c₁, htoken, fun _ => ?_, fun h => absurd hk h⟩
    generalize budgeted (fieldType · start) c₁ = r at hends
    cases hends with
    | ok hr =>
      have hview' := hr.1.1.1
      exact ⟨_, rfl, (congrArg Bytes.rest hview').symm, (congrArg Bytes.position hview').symm⟩
    | lost hlost => exact hlost.elim
  · obtain ⟨front, key, hbad⟩ := FieldType.exists_badKey hk
    obtain ⟨back, hback⟩ := hbad.text_eq
    obtain ⟨s, hread⟩ := reads_badKey hbad ht he c.position
    obtain ⟨start, c₁, htoken, hends⟩ := hread.ending hrel
    refine ⟨start, c₁, htoken, fun h => absurd h hk, fun _ => ?_⟩
    generalize budgeted (fieldType · start) c₁ = r at hends
    cases hends with
    | error => exact ⟨front, key, back, _, _, hbad, hback, rfl, rfl, rfl⟩
    | lost hlost => exact hlost.elim

theorem fieldType_text_samples :
    (∃ c start c₁ c', c = Cursor.ofStream (.ofChunks [bytes "map<string, ma", bytes "p<Id, a.B>>> "]
        .exhausted) ∧
      token? c = .ok (some start) c₁ ∧ budgeted (fieldType · start) c₁ =
        .ok (.map (.scalar .string) (.map (.named "Id") (.dotted ["a", "B"]))) c' ∧
      c'.offered = bytes "> " ∧ c'.position = ⟨1, 26⟩) ∧
    ∃ c start c₁ c', c = Cursor.ofStream (.ofChunks [bytes "map<Id, map<flo", bytes "at, Id>>"]
        .exhausted) ∧
      token? c = .ok (some start) c₁ ∧ budgeted (fieldType · start) c₁ =
        .error (.refused ⟨.invalidKey (.scalar .float), ⟨1, 13⟩⟩) c' := by
  have hid : IsPlainName "Id" :=
    ⟨isIdentifier_of_all (by decide), ofWord?_eq_none_iff.1 (by decide)⟩
  constructor
  · have hdotted : IsDotted ["a", "B"] := by
      refine ⟨Nat.le_refl 2, ?_⟩
      simpa using ⟨isIdentifier_of_all (s := "a") (by decide), isIdentifier_of_all (s := "B") (by decide)⟩
    obtain ⟨start, c₁, htoken, hread, _⟩ := fieldType_text
      (t := .map (.scalar .string) (.map (.named "Id") (.dotted ["a", "B"])))
      ⟨trivial, hid, hdotted⟩ (ends_punct .rangle [0x20])
      (c := Cursor.ofStream (.ofChunks [bytes "map<string, ma", bytes "p<Id, a.B>>> "] .exhausted))
      rfl (by decide)
    obtain ⟨c', hok, hrest, hplace⟩ := hread (by simp [FieldType.KeysValid])
    exact ⟨_, start, c₁, c', rfl, htoken, hok, hrest, hplace⟩
  · obtain ⟨start, c₁, htoken, _, hread⟩ := fieldType_text
      (t := .map (.named "Id") (.map (.scalar .float) (.named "Id")))
      ⟨hid, trivial, hid⟩ (show Ends [] from nofun)
      (c := Cursor.ofStream (.ofChunks [bytes "map<Id, map<flo", bytes "at, Id>>"] .exhausted))
      rfl (by decide)
    obtain ⟨front, key, _, _, c', hbad, _, herror, rfl, _⟩ := hread (by simp [FieldType.KeysValid])
    have hfirst : front = "map<Id, map<" ∧ key = .scalar .float := by
      cases hbad with
      | inKey h => cases h
      | here _ hkey => cases hkey
      | inValue _ _ h =>
        cases h with
        | inKey h => cases h
        | here => exact ⟨by decide, rfl⟩
        | inValue _ hkey _ => cases hkey
    obtain ⟨rfl, rfl⟩ := hfirst
    exact ⟨_, start, c₁, c', rfl, htoken, herror⟩

end Printing
end ProtoSchema
