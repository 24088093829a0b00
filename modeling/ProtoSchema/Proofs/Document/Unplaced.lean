import ProtoSchema.Proofs.Document.Valid

/-!
# ProtoSchema.Proofs.Document.Unplaced

Documents without regard to places: `unplaced` puts everything that is declared at the first place.
The rules about declarations do not depend on places.
-/

namespace ProtoSchema

def ImportDecl.unplaced (i : ImportDecl) : ImportDecl := { i with position := .first }

def OptionDecl.unplaced (o : OptionDecl) : OptionDecl := { o with position := .first }

def Field.unplaced (f : Field) : Field := { f with position := .first }

def Rpc.unplaced (r : Rpc) : Rpc := { r with position := .first }

mutual

def Message.unplaced : Message → Message
  | ⟨name, fields, nested, options, _⟩ =>
    ⟨name, fields.map Field.unplaced, Message.unplacedAll nested, options.map OptionDecl.unplaced,
      .first⟩

def Message.unplacedAll : List Message → List Message
  | [] => []
  | m :: ms => m.unplaced :: Message.unplacedAll ms

end

def Service.unplaced (s : Service) : Service :=
  ⟨s.name, s.rpcs.map Rpc.unplaced, s.options.map OptionDecl.unplaced, .first⟩

def Document.unplaced (d : Document) : Document :=
  { d with
    imports := d.imports.map ImportDecl.unplaced
    options := d.options.map OptionDecl.unplaced
    messages := d.messages.map Message.unplaced
    services := d.services.map Service.unplaced }

theorem Message.unplacedAll_eq_map (ms : List Message) :
    Message.unplacedAll ms = ms.map Message.unplaced := by
  induction ms with
  | nil => rfl
  | cons m ms ih => rw [Message.unplacedAll, ih, List.map_cons]

theorem Message.unplaced_eq (m : Message) :
    m.unplaced = ⟨m.name, m.fields.map Field.unplaced, m.nested.map Message.unplaced,
      m.options.map OptionDecl.unplaced, .first⟩ := by
  cases m with
  | mk name fields nested options position =>
    rw [Message.unplaced, Message.unplacedAll_eq_map]

/-! ## Validity -/

theorem Field.valid_unplaced {f : Field} : f.unplaced.Valid ↔ f.Valid := by
  constructor
  · rintro ⟨hrange, hkeys⟩
    exact ⟨hrange, hkeys⟩
  · rintro ⟨hrange, hkeys⟩
    exact ⟨hrange, hkeys⟩

theorem distinct_unplaced {fs : List Field} : Distinct (fs.map Field.unplaced) ↔ Distinct fs := by
  have hnum : (fs.map Field.unplaced).map Field.number = fs.map Field.number := by
    rw [List.map_map]
    rfl
  have hname : (fs.map Field.unplaced).map Field.name = fs.map Field.name := by
    rw [List.map_map]
    rfl
  constructor
  · rintro ⟨h₁, h₂⟩
    exact ⟨hnum ▸ h₁, hname ▸ h₂⟩
  · rintro ⟨h₁, h₂⟩
    exact ⟨hnum.symm ▸ h₁, hname.symm ▸ h₂⟩

theorem Message.valid_unplaced {m : Message} : m.unplaced.Valid ↔ m.Valid := by
  have hfields : m.unplaced.fields = m.fields.map Field.unplaced := by rw [m.unplaced_eq]
  constructor
  · rintro ⟨hf, hd⟩
    rw [hfields] at hf hd
    exact ⟨fun f hmem => Field.valid_unplaced.1 (hf _ (List.mem_map_of_mem hmem)),
      distinct_unplaced.1 hd⟩
  · rintro ⟨hf, hd⟩
    refine ⟨?_, by rw [hfields]; exact distinct_unplaced.2 hd⟩
    rw [hfields]
    exact List.forall_mem_map.2 fun f hmem => Field.valid_unplaced.2 (hf f hmem)

theorem Message.everywhere_valid_unplaced {m : Message} :
    m.unplaced.Everywhere Message.Valid ↔ m.Everywhere Message.Valid := by
  have hnested (m : Message) : m.unplaced.nested = m.nested.map Message.unplaced := by
    rw [m.unplaced_eq]
  constructor
  · intro h
    generalize hn : m.unplaced = n at h
    induction h generalizing m with
    | intro hp _ ih =>
      subst hn
      refine .intro (Message.valid_unplaced.1 hp) fun c hc => ?_
      refine ih c.unplaced ?_ rfl
      rw [hnested]
      exact List.mem_map_of_mem hc
  · intro h
    induction h with
    | @intro m hp _ ih =>
      refine .intro (Message.valid_unplaced.2 hp) ?_
      rw [hnested]
      intro c hc
      obtain ⟨e, he, rfl⟩ := List.mem_map.1 hc
      exact ih e he

theorem Document.valid_unplaced {d : Document} : d.unplaced.Valid ↔ d.Valid := by
  simp only [Document.Valid, Document.unplaced, List.forall_mem_map,
    Message.everywhere_valid_unplaced]

end ProtoSchema
