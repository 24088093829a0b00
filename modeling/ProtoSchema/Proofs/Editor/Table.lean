import Mathlib.Data.List.Nodup
import ProtoSchema.Editor.Table

/-!
# ProtoSchema.Proofs.Editor.Table

What is found in a table after an entry has been put in or erased, and that each name keeps one entry.
-/

namespace ProtoSchema
namespace Table

variable {α : Type} {name other : String} {a : α} {t : Table α}

@[simp] theorem names_nil : names ([] : Table α) = [] := rfl

@[simp] theorem names_cons (p : String × α) (t : Table α) : names (p :: t) = p.1 :: names t := rfl

@[simp] theorem find?_nil : find? ([] : Table α) name = none := rfl

theorem find?_cons (p : String × α) (t : Table α) :
    find? (p :: t) name = if name = p.1 then some p.2 else find? t name := by
  obtain ⟨n, a⟩ := p
  rw [find?, List.lookup_cons]
  by_cases h : name = n
  · simp [h]
  · simp [h, beq_eq_false_iff_ne.2 h, find?]

theorem find?_put : (t.put name a).find? other = if other = name then some a else t.find? other := by
  induction t with
  | nil => exact find?_cons (name, a) []
  | cons p t ih =>
    obtain ⟨n, b⟩ := p
    by_cases hn : n = name
    · subst hn
      simp only [put, if_true, find?_cons]
      by_cases ho : other = n <;> simp [ho]
    · simp only [put, if_neg hn, find?_cons, ih]
      by_cases ho : other = n
      · simp [ho, hn]
      · simp [ho]

theorem find?_erase : (t.erase name).find? other = if other = name then none else t.find? other := by
  induction t with
  | nil => simp [erase]
  | cons p t ih =>
    obtain ⟨n, b⟩ := p
    rw [erase] at ih
    by_cases hn : n = name
    · subst hn
      simp only [erase, List.filter_cons, bne_self_eq_false, Bool.false_eq_true, if_false, ih,
        find?_cons]
      by_cases ho : other = n <;> simp [ho]
    · simp only [erase, List.filter_cons, bne_iff_ne.2 hn, if_true, find?_cons, ih]
      by_cases ho : other = n
      · simp [ho, hn]
      · simp [ho]

theorem mem_names_iff : name ∈ t.names ↔ (t.find? name).isSome := by
  induction t with
  | nil => simp
  | cons p t ih =>
    by_cases h : name = p.1
    · simp [find?_cons, h]
    · simp [find?_cons, h, ih]

/-- A name that is new stands behind the others. -/
theorem names_put : (t.put name a).names = if name ∈ t.names then t.names else t.names ++ [name] := by
  induction t with
  | nil => simp [put]
  | cons p t ih =>
    by_cases hp : p.1 = name
    · simp [put, hp]
    · simp only [put, if_neg hp, names_cons, ih, List.mem_cons, Ne.symm hp, false_or]
      split <;> simp

theorem names_erase : (t.erase name).names = t.names.filter (· != name) := by
  simp only [names, erase, List.filter_map]
  rfl

theorem nodup_put (h : t.names.Nodup) : (t.put name a).names.Nodup := by
  rw [names_put]
  split
  · exact h
  · exact h.append (List.nodup_singleton _) (by simpa)

theorem nodup_erase (h : t.names.Nodup) : (t.erase name).names.Nodup := by
  rw [names_erase]
  exact h.filter _

end Table
end ProtoSchema
