import ProtoSchema.Document.Clash

/-!
# ProtoSchema.Proofs.Document.Valid

The rules about declarations that the syntactic grammar leaves open: field numbers stay in range,
the fields of one message differ in number and in name, and map keys have a type that keys may
have. `Document.Valid` asks for them in every message at every depth.
-/

namespace ProtoSchema

/-- No map anywhere in a type has a key that is a map, bytes or a floating type. -/
def FieldType.KeysValid : FieldType → Prop
  | map k v =>
    (k ≠ .scalar .float ∧ k ≠ .scalar .double ∧ k ≠ .scalar .bytes ∧ ∀ a b, k ≠ .map a b) ∧
      k.KeysValid ∧ v.KeysValid
  | _ => True

structure Field.Valid (f : Field) : Prop where
  number_range : 1 ≤ f.number ∧ f.number ≤ 65535
  keys : f.type.KeysValid

/-- Fields that differ in number and in name. -/
structure Distinct (fs : List Field) : Prop where
  numbers : (fs.map Field.number).Nodup
  names : (fs.map Field.name).Nodup

/-- `P` holds of a message and of every message that is nested in it, at any depth. -/
inductive Message.Everywhere (P : Message → Prop) : Message → Prop where
  | intro {m : Message} : P m → (∀ c ∈ m.nested, Everywhere P c) → Everywhere P m

structure Message.Valid (m : Message) : Prop where
  fields : ∀ f ∈ m.fields, f.Valid
  distinct : Distinct m.fields

theorem Message.valid_iff {m : Message} :
    m.Valid ↔ (∀ f ∈ m.fields, f.Valid) ∧ Distinct m.fields :=
  ⟨fun h => ⟨h.fields, h.distinct⟩, fun h => ⟨h.1, h.2⟩⟩

def Document.Valid (d : Document) : Prop := ∀ m ∈ d.messages, m.Everywhere Message.Valid

theorem Message.Everywhere.mono {P Q : Message → Prop} (h : ∀ m, P m → Q m) {m : Message}
    (hm : m.Everywhere P) : m.Everywhere Q := by
  induction hm with
  | intro hp _ ih => exact .intro (h _ hp) ih

theorem Message.Everywhere.and {P Q R : Message → Prop} (h : ∀ m, P m → Q m → R m) {m : Message}
    (hp : m.Everywhere P) (hq : m.Everywhere Q) : m.Everywhere R := by
  induction hp with
  | intro hp _ ih =>
    obtain ⟨hq, hc⟩ := hq
    exact .intro (h _ hp hq) fun c hmem => ih c hmem (hc c hmem)

theorem Message.everywhere_iff {P : Message → Prop} {m : Message} :
    m.Everywhere P ↔ P m ∧ ∀ c ∈ m.nested, c.Everywhere P := by
  constructor
  · rintro ⟨hp, hc⟩
    exact ⟨hp, hc⟩
  · rintro ⟨hp, hc⟩
    exact .intro hp hc

/-! ## What is checked -/

theorem FieldType.isKey_iff (t : FieldType) :
    t.isKey = true ↔
      t ≠ .scalar .float ∧ t ≠ .scalar .double ∧ t ≠ .scalar .bytes ∧ ∀ a b, t ≠ .map a b := by
  cases t with
  | scalar s => cases s <;> simp [isKey]
  | _ => simp [isKey]

theorem Field.clash?_eq_none_iff {message : String} {earlier : List Field} {f : Field} :
    f.clash? message earlier = none ↔
      ∀ g ∈ earlier, g.number ≠ f.number ∧ g.name ≠ f.name := by
  unfold Field.clash?
  cases h : earlier.find? (·.number == f.number) with
  | some g =>
    have hg : g.number = f.number := by simpa using List.find?_some h
    simp only [reduceCtorEq, false_iff]
    intro hall
    exact (hall g (List.mem_of_find?_eq_some h)).1 hg
  | none =>
    have hnum : ∀ g ∈ earlier, g.number ≠ f.number := by simpa using h
    simp only [ite_eq_right_iff, reduceCtorEq, imp_false, List.any_eq_true, not_exists, not_and,
      beq_iff_eq]
    exact ⟨fun hname g hg => ⟨hnum g hg, hname g hg⟩, fun hall g hg => (hall g hg).2⟩

/-- Nothing clashes if all fields differ from those before them. -/
theorem firstClash?_eq_none_iff {message : String} {earlier fs : List Field} :
    firstClash? message earlier fs = none ↔
      (∀ f ∈ fs, ∀ g ∈ earlier, g.number ≠ f.number ∧ g.name ≠ f.name) ∧
        fs.Pairwise fun g f => g.number ≠ f.number ∧ g.name ≠ f.name := by
  induction fs generalizing earlier with
  | nil => simp [firstClash?]
  | cons f fs ih =>
    unfold firstClash?
    cases h : f.clash? message earlier with
    | some cause =>
      simp only [reduceCtorEq, false_iff, not_and]
      intro hall
      rw [Field.clash?_eq_none_iff.2 (hall f (by simp))] at h
      cases h
    | none =>
      have hf := Field.clash?_eq_none_iff.1 h
      simp only [ih, List.mem_append, List.pairwise_cons, List.mem_cons, List.not_mem_nil, or_false]
      constructor
      · rintro ⟨hall, hpair⟩
        refine ⟨?_, fun g hg => hall g hg f (.inr rfl), hpair⟩
        rintro g (rfl | hg) e he
        · exact hf e he
        · exact hall g hg e (.inl he)
      · rintro ⟨hall, hhead, hpair⟩
        refine ⟨?_, hpair⟩
        rintro g hg e (he | rfl)
        · exact hall g (.inr hg) e he
        · exact hhead g hg

theorem firstClash?_nil_eq_none_iff {message : String} {fs : List Field} :
    firstClash? message [] fs = none ↔ Distinct fs := by
  rw [firstClash?_eq_none_iff, List.pairwise_and_iff]
  constructor
  · rintro ⟨_, hnum, hname⟩
    exact ⟨List.pairwise_map.2 hnum, List.pairwise_map.2 hname⟩
  · rintro ⟨hnum, hname⟩
    exact ⟨by simp, List.pairwise_map.1 hnum, List.pairwise_map.1 hname⟩

/-! ## What breaks a rule -/

/-- The causes that are broken rules about declarations. -/
inductive Cause.IsRule : Cause → Prop where
  | number (n : Nat) : IsRule (.numberOutOfRange n)
  | key (t : FieldType) : IsRule (.invalidKey t)
  | sameNumber (n : Int) (message first second : String) :
      IsRule (.duplicateNumber n message first second)
  | sameName (name message : String) : IsRule (.duplicateName name message)

theorem Cause.IsRule.layer {c : Cause} (h : c.IsRule) : c.layer = .semantic := by
  cases h <;> rfl

theorem isRule_of_firstClash? {message : String} {earlier fs : List Field} {e : SourceError}
    (h : firstClash? message earlier fs = some e) : e.cause.IsRule := by
  induction fs generalizing earlier with
  | nil => cases h
  | cons f fs ih =>
    unfold firstClash? at h
    cases hf : f.clash? message earlier with
    | none =>
      rw [hf] at h
      exact ih h
    | some cause =>
      rw [hf] at h
      cases h
      unfold Field.clash? at hf
      split at hf
      · cases hf
        exact .sameNumber ..
      · split at hf <;> cases hf
        exact .sameName ..

end ProtoSchema
