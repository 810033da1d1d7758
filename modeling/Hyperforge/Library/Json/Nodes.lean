import Hyperforge.Library.Json

/-!
# The nodes of a tree

The trees within a tree, itself among them (`Json.Tree.nodes`), of which a part of the tree
has fewer.
-/

namespace Json

variable {F : Type}

mutual

/-- The trees within a tree. -/
def Tree.nodes : Tree F → List (Tree F)
  | .arr items => .arr items :: itemsNodes items
  | .obj members => .obj members :: membersNodes members
  | x => [x]

def itemsNodes : List (Tree F) → List (Tree F)
  | [] => []
  | x :: xs => x.nodes ++ itemsNodes xs

def membersNodes : List (Str × Tree F) → List (Tree F)
  | [] => []
  | (_, x) :: ms => x.nodes ++ membersNodes ms

end

/-- What a tree consists of. -/
inductive Tree.Part : Tree F → Tree F → Prop
  | item {items : List (Tree F)} {x : Tree F} (h : x ∈ items) : Part x (.arr items)
  | member {members : List (Str × Tree F)} {m : Str × Tree F} (h : m ∈ members) :
    Part m.2 (.obj members)

theorem nodes_sublist_itemsNodes {items : List (Tree F)} {x : Tree F} (h : x ∈ items) :
    x.nodes.Sublist (itemsNodes items) := by
  induction items with
  | nil => exact absurd h List.not_mem_nil
  | cons y ys ih =>
    rw [itemsNodes]
    rcases List.mem_cons.1 h with rfl | h
    · exact List.sublist_append_left _ _
    · exact (ih h).trans (List.sublist_append_right _ _)

theorem nodes_sublist_membersNodes {members : List (Str × Tree F)} {m : Str × Tree F}
    (h : m ∈ members) : m.2.nodes.Sublist (membersNodes members) := by
  induction members with
  | nil => exact absurd h List.not_mem_nil
  | cons n ns ih =>
    rw [membersNodes]
    rcases List.mem_cons.1 h with rfl | h
    · exact List.sublist_append_left _ _
    · exact (ih h).trans (List.sublist_append_right _ _)

namespace Tree

@[simp]
theorem mem_nodes_self (x : Tree F) : x ∈ x.nodes := by
  cases x <;> simp [nodes]

/-- The nodes of a part are nodes of the tree, other than the tree itself. -/
theorem Part.nodes_sublist {x y : Tree F} (h : x.Part y) : x.nodes.Sublist y.nodes.tail := by
  cases h with
  | item h => exact nodes_sublist_itemsNodes h
  | member h => exact nodes_sublist_membersNodes h

theorem Part.nodes_subset {x y : Tree F} (h : x.Part y) : x.nodes ⊆ y.nodes := fun _ hz =>
  List.mem_of_mem_tail (h.nodes_sublist.subset hz)

theorem Part.length_lt {x y : Tree F} (h : x.Part y) : x.nodes.length < y.nodes.length := by
  have hle := h.nodes_sublist.length_le
  have hpos := List.length_pos_of_mem (mem_nodes_self y)
  rw [List.length_tail] at hle
  omega

mutual

/-- The nodes of a node are nodes of the tree. -/
theorem nodes_sublist : ∀ {x y : Tree F}, x ∈ y.nodes → x.nodes.Sublist y.nodes
  | x, .arr items, h => by
    rw [nodes] at h ⊢
    rcases List.mem_cons.1 h with rfl | h
    · rw [nodes]
    · exact (items_sublist h).cons _
  | x, .obj members, h => by
    rw [nodes] at h ⊢
    rcases List.mem_cons.1 h with rfl | h
    · rw [nodes]
    · exact (members_sublist h).cons _
  | x, .null, h => by rw [List.mem_singleton.1 h]
  | x, .bool b, h => by rw [List.mem_singleton.1 h]
  | x, .int i, h => by rw [List.mem_singleton.1 h]
  | x, .float f, h => by rw [List.mem_singleton.1 h]
  | x, .str s, h => by rw [List.mem_singleton.1 h]

theorem items_sublist : ∀ {x : Tree F} {ys : List (Tree F)}, x ∈ itemsNodes ys →
    x.nodes.Sublist (itemsNodes ys)
  | _, [], h => absurd h List.not_mem_nil
  | x, y :: ys, h => by
    rw [itemsNodes] at h ⊢
    rcases List.mem_append.1 h with h | h
    · exact (nodes_sublist h).trans (List.sublist_append_left _ _)
    · exact (items_sublist h).trans (List.sublist_append_right _ _)

theorem members_sublist : ∀ {x : Tree F} {ms : List (Str × Tree F)}, x ∈ membersNodes ms →
    x.nodes.Sublist (membersNodes ms)
  | _, [], h => absurd h List.not_mem_nil
  | x, (k, y) :: ms, h => by
    rw [membersNodes] at h ⊢
    rcases List.mem_append.1 h with h | h
    · exact (nodes_sublist h).trans (List.sublist_append_left _ _)
    · exact (members_sublist h).trans (List.sublist_append_right _ _)

end

end Tree

end Json
