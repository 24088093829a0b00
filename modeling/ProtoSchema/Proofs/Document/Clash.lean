import ProtoSchema.Document.Parser
import ProtoSchema.Proofs.Document.Valid

/-!
# ProtoSchema.Proofs.Document.Clash

Which field is refused. The search for a clash goes on as long as the fields that it has seen differ in
number and in name, so it stops at the first field that clashes with one before it
(`firstClash?_eq_some_iff`), and among the fields before that one at most one has its number. From this
`checkFields_first_clash` says exactly when fields are refused, which of them, and in which words.
-/

namespace ProtoSchema

/-- Two fields that may not stand in one message: they share their number or their name. -/
def Field.Clashes (g f : Field) : Prop := g.number = f.number ∨ g.name = f.name

variable {message : String} {earlier front back fs : List Field} {f g : Field} {cause : Cause}
  {e : SourceError} {i j : Nat}

theorem Field.not_clashes_iff : ¬ g.Clashes f ↔ g.number ≠ f.number ∧ g.name ≠ f.name :=
  not_or

/-- The complaint about the number comes first. -/
theorem Field.clash?_eq_some (h : f.clash? message earlier = some cause) :
    (∃ g ∈ earlier, g.number = f.number ∧ cause = .duplicateNumber f.number message g.name f.name) ∨
      (∀ g ∈ earlier, g.number ≠ f.number) ∧ (∃ g ∈ earlier, g.name = f.name) ∧
        cause = .duplicateName f.name message := by
  unfold Field.clash? at h
  cases hfind : earlier.find? (·.number == f.number) with
  | some g =>
    rw [hfind] at h
    have hnumber : g.number = f.number := by simpa using List.find?_some hfind
    exact .inl ⟨g, List.mem_of_find?_eq_some hfind, hnumber, (Option.some.inj h).symm⟩
  | none =>
    rw [hfind] at h
    simp only [Option.ite_none_right_eq_some, List.any_eq_true, beq_iff_eq, Option.some.injEq] at h
    exact .inr ⟨by simpa using hfind, h.1, h.2.symm⟩

/-- The search passes the fields in front that clash with none before them, and stops at the first that
does. -/
theorem firstClash?_eq_some_iff :
    firstClash? message earlier fs = some e ↔
      ∃ front f back, fs = front ++ f :: back ∧ firstClash? message earlier front = none ∧
        ∃ cause, f.clash? message (earlier ++ front) = some cause ∧ e = ⟨cause, f.position⟩ := by
  induction fs generalizing earlier with
  | nil => simp [firstClash?]
  | cons f fs ih =>
    rw [firstClash?]
    cases h : f.clash? message earlier with
    | some cause =>
      constructor
      · rintro ⟨⟩
        exact ⟨[], f, fs, rfl, rfl, cause, by rwa [List.append_nil], rfl⟩
      · rintro ⟨front, f', back, hfs, hnone, cause', hclash, rfl⟩
        cases front with
        | nil =>
          obtain ⟨rfl, rfl⟩ := List.cons.inj hfs
          rw [List.append_nil, h] at hclash
          rw [Option.some.inj hclash]
        | cons g front =>
          obtain ⟨rfl, rfl⟩ := List.cons.inj hfs
          rw [firstClash?, h] at hnone
          cases hnone
    | none =>
      simp only [ih]
      constructor
      · rintro ⟨front, f', back, rfl, hnone, hclash⟩
        refine ⟨f :: front, f', back, rfl, ?_, ?_⟩
        · rw [firstClash?, h]
          exact hnone
        · simpa using hclash
      · rintro ⟨front, f', back, hfs, hnone, cause, hclash, he⟩
        cases front with
        | nil =>
          obtain ⟨rfl, rfl⟩ := List.cons.inj hfs
          rw [List.append_nil, h] at hclash
          cases hclash
        | cons g front =>
          obtain ⟨rfl, rfl⟩ := List.cons.inj hfs
          rw [firstClash?, h] at hnone
          exact ⟨front, f', back, rfl, hnone, cause, by simpa using hclash, he⟩

/-- Distinct fields at two positions do not clash. -/
theorem Distinct.not_clashes (h : Distinct fs) (hne : i ≠ j) (hi : fs[i]? = some g)
    (hj : fs[j]? = some f) : ¬ g.Clashes f := by
  have hlt : i < fs.length := (List.getElem?_eq_some_iff.1 hi).1
  have differ {β : Type} {key : Field → β} (hkeys : (fs.map key).Nodup) : key g ≠ key f := by
    refine fun heq => hne ((List.getElem?_inj (by rwa [List.length_map]) hkeys).1 ?_)
    rw [List.getElem?_map, List.getElem?_map, hi, hj, Option.map_some, Option.map_some, heq]
  exact Field.not_clashes_iff.2 ⟨differ h.numbers, differ h.names⟩

/-- Of distinct fields one at most has a given number. -/
theorem Distinct.index_unique (h : Distinct fs) (hi : fs[i]? = some g) (hj : fs[j]? = some f)
    (hnumber : g.number = f.number) : i = j :=
  Decidable.byContradiction fun hne => h.not_clashes hne hi hj (.inl hnumber)

/-- The error `e` is about the field `f` at the index `j` of the fields `fs` of a message: the first that
clashes with one before it. A clash of numbers is named before a clash of names, and with it the one
field before that has the number. -/
structure ReportsFirst (message : String) (fs : List Field) (j : Nat) (f : Field) (e : SourceError) :
    Prop where
  field : fs[j]? = some f
  clashes : ∃ i < j, ∃ g, fs[i]? = some g ∧ g.Clashes f
  first : ∀ (i j' : Nat) (g h : Field), i < j' → j' < j → fs[i]? = some g → fs[j']? = some h →
    ¬ g.Clashes h
  position : e.position = f.position
  layer : e.cause.layer = .semantic
  cause :
    (∃ i < j, ∃ g, fs[i]? = some g ∧ g.number = f.number ∧
      (∀ i' < j, ∀ g', fs[i']? = some g' → g'.number = f.number → i' = i) ∧
      e.cause = .duplicateNumber f.number message g.name f.name) ∨
    (∀ i < j, ∀ g, fs[i]? = some g → g.number ≠ f.number) ∧ e.cause = .duplicateName f.name message

/-- The fields in front of the one that is refused. -/
theorem getElem?_front (h : i < front.length) :
    (front ++ f :: back)[i]? = front[i]? :=
  List.getElem?_append_left h

theorem reportsFirst_of_clash (hfront : Distinct front)
    (h : f.clash? message front = some cause) :
    ReportsFirst message (front ++ f :: back) front.length f ⟨cause, f.position⟩ := by
  -- every field that is compared stands in front
  have before {g : Field} (hg : g ∈ front) :
      ∃ i < front.length, (front ++ f :: back)[i]? = some g := by
    obtain ⟨i, hi, rfl⟩ := List.mem_iff_getElem.1 hg
    exact ⟨i, hi, by rw [getElem?_front hi, List.getElem?_eq_getElem hi]⟩
  have first : ∀ (i j' : Nat) (g h : Field), i < j' → j' < front.length →
      (front ++ f :: back)[i]? = some g → (front ++ f :: back)[j']? = some h → ¬ g.Clashes h := by
    intro i j' g h hij hj hg hh
    rw [getElem?_front (by omega)] at hg hh
    exact hfront.not_clashes (by omega) hg hh
  rcases Field.clash?_eq_some h with ⟨g, hg, hnumber, rfl⟩ | ⟨hnumber, ⟨g, hg, hname⟩, rfl⟩
  · obtain ⟨i, hi, hget⟩ := before hg
    refine ⟨by simp, ⟨i, hi, g, hget, .inl hnumber⟩, first, rfl, rfl,
      .inl ⟨i, hi, g, hget, hnumber, fun i' hi' g' hget' hnumber' => ?_, rfl⟩⟩
    rw [getElem?_front hi] at hget
    rw [getElem?_front hi'] at hget'
    exact hfront.index_unique hget' hget (hnumber'.trans hnumber.symm)
  · obtain ⟨i, hi, hget⟩ := before hg
    refine ⟨by simp, ⟨i, hi, g, hget, .inr hname⟩, first, rfl, rfl,
      .inr ⟨fun i' hi' g' hget' => ?_, rfl⟩⟩
    rw [getElem?_front hi'] at hget'
    exact hnumber g' (List.mem_of_getElem? hget')

/-- The fields of a message are refused exactly if two of them, at different positions, share their number
or their name. The error is the rule about declarations that the first field breaks which clashes with one
before it, at the place of that field; nothing is read from the input. -/
theorem checkFields_first_clash {σ : Type} [TokenSource σ] (message : String) (fs : List Field) (s : σ) :
    ((∃ x s', (Parser.checkFields message fs : Scan σ Unit) s = .error x s') ↔
        ∃ (i j : Nat) (g f : Field), i ≠ j ∧ fs[i]? = some g ∧ fs[j]? = some f ∧ g.Clashes f) ∧
      ∀ x s', (Parser.checkFields message fs : Scan σ Unit) s = .error x s' →
        s' = s ∧ ∃ e j f, x = .refused e ∧ ReportsFirst message fs j f e := by
  cases h : firstClash? message [] fs with
  | none =>
    have hok : (Parser.checkFields message fs : Scan σ Unit) s = .ok () s := by
      rw [Parser.checkFields, h]
      rfl
    have hdistinct := firstClash?_nil_eq_none_iff.1 h
    rw [hok]
    refine ⟨⟨nofun, ?_⟩, nofun⟩
    rintro ⟨i, j, g, f, hne, hi, hj, hclash⟩
    exact (hdistinct.not_clashes hne hi hj hclash).elim
  | some e =>
    have herror : (Parser.checkFields message fs : Scan σ Unit) s = .error (.refused e) s := by
      rw [Parser.checkFields, h]
      rfl
    obtain ⟨front, f, back, rfl, hfront, cause, hclash, rfl⟩ := firstClash?_eq_some_iff.1 h
    rw [List.nil_append] at hclash
    have hreports := @reportsFirst_of_clash _ _ back _ _ (firstClash?_nil_eq_none_iff.1 hfront) hclash
    rw [herror]
    refine ⟨⟨fun _ => ?_, fun _ => ⟨_, _, rfl⟩⟩, ?_⟩
    · obtain ⟨i, hi, g, hget, hc⟩ := hreports.clashes
      exact ⟨i, _, g, f, Nat.ne_of_lt hi, hget, hreports.field, hc⟩
    · rintro x s' ⟨⟩
      exact ⟨rfl, _, _, _, rfl, hreports⟩

/-- The third field shares its name with the first and its number with the second. -/
example :
    (firstClash? "M" [] [⟨.named "T", "a", 1, false, ⟨1, 1⟩⟩, ⟨.named "T", "b", 2, false, ⟨2, 1⟩⟩,
      ⟨.named "T", "a", 2, false, ⟨3, 1⟩⟩, ⟨.named "T", "b", 1, false, ⟨4, 1⟩⟩]) =
      some ⟨.duplicateNumber 2 "M" "b" "a", ⟨3, 1⟩⟩ := by decide

end ProtoSchema
