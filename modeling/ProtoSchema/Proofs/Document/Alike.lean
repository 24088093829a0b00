import Mathlib.Data.List.Forall2
import ProtoSchema.Document.Clash
import ProtoSchema.Proofs.Document.Unplaced

/-!
# ProtoSchema.Proofs.Document.Alike

What is the same but for places. Of tokens, failures and fields the places are related by `R`, which is
any relation; documents are alike whatever their places and their sources are. Whether fields clash does
not depend on places, and the clash stands at the same field (`clash_alike`).
-/

namespace ProtoSchema

variable {R : Position → Position → Prop}

/-- The same lexeme at related places. -/
structure Token.Alike (R : Position → Position → Prop) (t u : Token) : Prop where
  lexeme : t.lexeme = u.lexeme
  position : R t.position u.position

/-- Failures of one kind and one message, at related places. -/
inductive Failure.Alike (R : Position → Position → Prop) : Failure → Failure → Prop where
  | refused {c c' : Cause} {x y : Position} :
      c.layer = c'.layer → c.message = c'.message → R x y →
      Alike R (.refused ⟨c, x⟩) (.refused ⟨c', y⟩)
  | numberTooLong (n : Nat) : Alike R (.numberTooLong n) (.numberTooLong n)
  | windowTooSmall (n : Nat) : Alike R (.windowTooSmall n) (.windowTooSmall n)

/-- Fields that are the same but for related places. -/
structure Field.Alike (R : Position → Position → Prop) (f g : Field) : Prop where
  unplaced : f.unplaced = g.unplaced
  position : R f.position g.position

/-- Documents that are the same but for places and for the name of the source. -/
def Document.Alike (d d' : Document) : Prop :=
  { d.unplaced with source := none } = { d'.unplaced with source := none }

/-- Documents that are alike, or failures of one kind and one message. -/
inductive Document.SameResult : Except Failure Document → Except Failure Document → Prop where
  | ok {d d' : Document} : d.Alike d' → SameResult (.ok d) (.ok d')
  | error {e e' : Failure} : Failure.Alike (fun _ _ => True) e e' → SameResult (.error e) (.error e')

theorem Token.Alike.describe {t u : Token} (h : t.Alike R u) : t.describe = u.describe := by
  rw [Token.describe, Token.describe, h.lexeme]

theorem Failure.Alike.same {c : Cause} {x y : Position} (h : R x y) :
    Failure.Alike R (.refused ⟨c, x⟩) (.refused ⟨c, y⟩) :=
  .refused rfl rfl h

theorem Failure.Alike.inField {e e' : Failure} (h : e.Alike R e') : e.inField.Alike R e'.inField := by
  cases h with
  | @refused c c' x y hl hm hr =>
    have hfield : (Cause.invalidField c).message = (Cause.invalidField c').message :=
      congrArg ("invalid message field: " ++ ·) hm
    unfold Failure.inField
    simp only [← hl]
    split
    · exact .refused rfl hfield hr
    · exact .refused hl hm hr
  | numberTooLong n => exact .numberTooLong n
  | windowTooSmall n => exact .windowTooSmall n

theorem Field.Alike.name_eq {f g : Field} (h : f.Alike R g) : f.name = g.name := by
  have := congrArg Field.name h.unplaced
  exact this

theorem Field.Alike.number_eq {f g : Field} (h : f.Alike R g) : f.number = g.number := by
  have := congrArg Field.number h.unplaced
  exact this

theorem map_unplaced_of_alike {fs gs : List Field} (h : List.Forall₂ (Field.Alike R) fs gs) :
    fs.map Field.unplaced = gs.map Field.unplaced := by
  induction h with
  | nil => rfl
  | cons hfg _ ih => rw [List.map_cons, List.map_cons, hfg.unplaced, ih]

/-- What a field clashes with does not depend on places. -/
theorem clash?_alike {message : String} {es es' : List Field} {f g : Field}
    (hes : List.Forall₂ (Field.Alike R) es es') (h : f.Alike R g) :
    f.clash? message es = g.clash? message es' := by
  have hfind (n : Int) : Option.Rel (fun e e' => e.name = e'.name) (es.find? (·.number == n))
      (es'.find? (·.number == n)) := by
    induction hes with
    | nil => exact .none
    | cons he _ ih =>
      rw [List.find?_cons, List.find?_cons, he.number_eq]
      split
      · exact .some he.name_eq
      · exact ih
  have hany (n : String) : es.any (·.name == n) = es'.any (·.name == n) := by
    clear hfind
    induction hes with
    | nil => rfl
    | cons he _ ih => rw [List.any_cons, List.any_cons, he.name_eq, ih]
  have hfind := hfind f.number
  unfold Field.clash?
  rw [← h.name_eq, ← h.number_eq, ← hany]
  generalize es.find? (·.number == f.number) = o at hfind ⊢
  generalize es'.find? (·.number == f.number) = o' at hfind ⊢
  cases hfind with
  | none => rfl
  | some hname => simp only [hname]

/-- Fields that are alike clash alike. -/
theorem clash_alike (message : String) {es es' fs gs : List Field}
    (hes : List.Forall₂ (Field.Alike R) es es') (h : List.Forall₂ (Field.Alike R) fs gs) :
    Option.Rel (fun e e' : SourceError => e.cause = e'.cause ∧ R e.position e'.position)
      (firstClash? message es fs) (firstClash? message es' gs) := by
  induction h generalizing es es' with
  | nil => exact .none
  | cons hfg _ ih =>
    rw [firstClash?, firstClash?, clash?_alike hes hfg]
    split
    · exact .some ⟨rfl, hfg.position⟩
    · exact ih (List.rel_append hes (.cons hfg .nil))

end ProtoSchema
