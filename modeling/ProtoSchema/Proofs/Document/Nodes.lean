import Mathlib.Data.List.Perm.Basic
import ProtoSchema.Document
import ProtoSchema.Proofs.Lexical.Order

/-!
# ProtoSchema.Proofs.Document.Nodes

A document as a tree. Its nodes are the declarations that have places; documents, messages and services
hold nodes in several lists, each in source order. `Document.nodes` are the nodes at every depth,
`InOrder` says that the nodes of a list stand one behind another with everything inside them.
-/

namespace ProtoSchema

inductive Node where
  | importDecl (i : ImportDecl)
  | option (o : OptionDecl)
  | message (m : Message)
  | field (f : Field)
  | service (s : Service)
  | rpc (r : Rpc)

mutual

/-- The nodes inside a message, at every depth. -/
def Message.inside : Message → List Node
  | ⟨_, fields, nested, options, _⟩ =>
    options.map .option ++ (fields.map .field ++ Message.allInside nested)

/-- Messages and the nodes inside them. -/
def Message.allInside : List Message → List Node
  | [] => []
  | m :: ms => .message m :: (m.inside ++ Message.allInside ms)

end

/-- The first token of a type. -/
def FieldType.opening : FieldType → Lexeme
  | scalar s => .keyword (.scalar s)
  | named n => .ident n
  | dotted ss => .dotted ss
  | map _ _ => .keyword .mapWord

namespace Node

def position : Node → Position
  | importDecl i => i.position
  | option o => o.position
  | message m => m.position
  | field f => f.position
  | service s => s.position
  | rpc r => r.position

/-- The first token of a node: its keyword; for a field the word `repeated`, or its type without it. -/
def opening : Node → Lexeme
  | importDecl _ => .keyword .importWord
  | option _ => .keyword .optionWord
  | message _ => .keyword .messageWord
  | field f => if f.repeated then .keyword .repeatedWord else f.type.opening
  | service _ => .keyword .serviceWord
  | rpc _ => .ident "rpc"

/-- The first token of a node, at its place. -/
def start (n : Node) : Token := ⟨n.opening, n.position⟩

/-- The lists of nodes that a node holds. -/
def lists : Node → List (List Node)
  | message m => [m.options.map .option, m.fields.map .field, m.nested.map .message]
  | service s => [s.options.map .option, s.rpcs.map .rpc]
  | _ => []

/-- The nodes inside a node, at every depth. -/
def inside : Node → List Node
  | message m => m.inside
  | service s => s.options.map .option ++ s.rpcs.map .rpc
  | _ => []

/-- A node and the nodes inside it. -/
def family (n : Node) : List Node := n :: n.inside

end Node

/-- All nodes of some lists, at every depth. -/
def nodesOf (ls : List (List Node)) : List Node := ls.flatten.flatMap Node.family

namespace Document

/-- The lists of nodes that a document holds. -/
def lists (d : Document) : List (List Node) :=
  [d.imports.map .importDecl, d.options.map .option, d.messages.map .message,
    d.services.map .service]

/-- The nodes of a document, at every depth. -/
def nodes (d : Document) : List Node := nodesOf d.lists

end Document

/-- Each node stands before the nodes behind it, with everything inside it. -/
def InOrder (ns : List Node) : Prop :=
  ns.Pairwise fun a b => ∀ n ∈ a.family, n.position < b.position

theorem Message.allInside_eq (ms : List Message) :
    Message.allInside ms = (ms.map Node.message).flatMap Node.family := by
  induction ms with
  | nil => rfl
  | cons m ms ih => simp [Message.allInside, Node.family, Node.inside, ih]

/-- What is inside a node are the nodes of its lists. -/
theorem Node.inside_eq (n : Node) : n.inside = nodesOf n.lists := by
  have alone {α : Type} (f : α → Node) (h : ∀ a, (f a).inside = []) (as : List α) :
      (as.map f).flatMap Node.family = as.map f := by
    induction as with
    | nil => rfl
    | cons a as ih => simp [family, h, ih]
  cases n with
  | message m =>
    obtain ⟨_, fields, nested, options, _⟩ := m
    simp [inside, lists, nodesOf, Message.inside, Message.allInside_eq, List.flatMap_append,
      alone .option fun _ => rfl, alone .field fun _ => rfl]
  | service s =>
    simp [inside, lists, nodesOf, List.flatMap_append, alone .option fun _ => rfl,
      alone .rpc fun _ => rfl]
  | _ => rfl

/-! ## A node more -/

/-- The lists `ls'` are `ls` with the node `n` in front of one of them. -/
inductive Grown (n : Node) : List (List Node) → List (List Node) → Prop where
  | here {l : List Node} {ls : List (List Node)} : Grown n (l :: ls) ((n :: l) :: ls)
  | there {l : List Node} {ls ls' : List (List Node)} : Grown n ls ls' → Grown n (l :: ls) (l :: ls')

namespace Grown

variable {n : Node} {ls ls' : List (List Node)}

theorem perm (h : Grown n ls ls') : (nodesOf ls').Perm (n.family ++ nodesOf ls) := by
  induction h with
  | here => simp [nodesOf]
  | @there l ls ls' _ ih =>
    simp only [nodesOf, List.flatten_cons, List.flatMap_append] at ih ⊢
    exact (ih.append_left _).trans (List.perm_append_comm_assoc _ _ _)

theorem mem_iff (h : Grown n ls ls') {m : Node} :
    m ∈ nodesOf ls' ↔ m = n ∨ m ∈ nodesOf n.lists ∨ m ∈ nodesOf ls := by
  rw [h.perm.mem_iff, Node.family, n.inside_eq]
  simp

theorem lists (h : Grown n ls ls') {l : List Node} (hl : l ∈ ls') :
    l ∈ ls ∨ ∃ k ∈ ls, l = n :: k := by
  induction h with
  | here =>
    rcases List.mem_cons.1 hl with rfl | hl
    · exact .inr ⟨_, List.mem_cons_self, rfl⟩
    · exact .inl (List.mem_cons_of_mem _ hl)
  | there _ ih =>
    rcases List.mem_cons.1 hl with rfl | hl
    · exact .inl List.mem_cons_self
    · rcases ih hl with hl | ⟨k, hk, rfl⟩
      · exact .inl (List.mem_cons_of_mem _ hl)
      · exact .inr ⟨k, List.mem_cons_of_mem _ hk, rfl⟩

end Grown

theorem nodesOf_eq_nil {ls : List (List Node)} (h : ∀ l ∈ ls, l = []) : nodesOf ls = [] := by
  rw [nodesOf, List.flatten_eq_nil_iff.2 h, List.flatMap_nil]

theorem mem_nodesOf {ls : List (List Node)} {l : List Node} {n : Node} (hl : l ∈ ls) (hn : n ∈ l) :
    n ∈ nodesOf ls :=
  List.mem_flatMap.2 ⟨n, List.mem_flatten.2 ⟨l, hl, hn⟩, List.mem_cons_self⟩

end ProtoSchema
