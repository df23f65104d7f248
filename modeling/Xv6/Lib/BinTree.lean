/-
Binary trees, their in-order traversal and their red-black colourings.

A tree is read three ways. `inorder` is the list of its labels, left subtree
first. `views` is the same walk, each node seen with its parent and its two
subtrees, which is what a traversal that reports a node's neighbours writes.
`blackCounts` is, for each path from the root to an empty subtree, the number of
black nodes on it.

The red-black invariants are stated over any colouring `black : α → Bool`: a red
node has no red child, an empty subtree counting as black (`RedOk`), and every
path holds the same number `n` of black nodes (`BlackHeight`). Both are
decidable, so a checker of them can be run against them on small trees.
-/
import Mathlib.Data.List.GetD

set_option autoImplicit false

/-- A binary tree with a label on each node. -/
inductive BinTree (α : Type) where
  | nil : BinTree α
  | node (l : BinTree α) (a : α) (r : BinTree α) : BinTree α
  deriving DecidableEq, Repr

namespace BinTree

/-- A node seen in place: its parent's label (`none` at the root), its subtrees
and its own label. -/
structure View (α : Type) where
  parent : Option α
  left : BinTree α
  label : α
  right : BinTree α
  deriving DecidableEq, Repr

variable {α : Type}

/-- The number of nodes. -/
def size : BinTree α → Nat
  | nil => 0
  | node l _ r => size l + 1 + size r

/-- The labels, left subtree first, then the node, then the right subtree. -/
def inorder : BinTree α → List α
  | nil => []
  | node l a r => inorder l ++ a :: inorder r

/-- The in-order walk, each node with its parent `p` and its subtrees. -/
def views (p : Option α) : BinTree α → List (View α)
  | nil => []
  | node l a r => views (some a) l ++ ⟨p, l, a, r⟩ :: views (some a) r

@[simp] theorem size_nil : (nil : BinTree α).size = 0 := rfl

@[simp] theorem size_node (l : BinTree α) (a : α) (r : BinTree α) :
    (node l a r).size = l.size + 1 + r.size := rfl

@[simp] theorem views_nil (p : Option α) : (nil : BinTree α).views p = [] := rfl

@[simp] theorem views_node (p : Option α) (l : BinTree α) (a : α) (r : BinTree α) :
    (node l a r).views p = l.views (some a) ++ ⟨p, l, a, r⟩ :: r.views (some a) := rfl

theorem length_views (p : Option α) (t : BinTree α) : (t.views p).length = t.size := by
  induction t generalizing p with
  | nil => rfl
  | node l a r ihl ihr =>
    simp only [views_node, List.length_append, List.length_cons, ihl, ihr, size_node]
    omega

section Colour

variable (black : α → Bool)

/-- The colour of a child pointer: an empty subtree counts as black. -/
def rootBlack : BinTree α → Bool
  | nil => true
  | node _ a _ => black a

/-- No red node has a red child. -/
def RedOk : BinTree α → Prop
  | nil => True
  | node l a r =>
    (black a = false → rootBlack black l = true ∧ rootBlack black r = true) ∧
      RedOk l ∧ RedOk r

/-- The number of black nodes on each path from the root to an empty subtree,
left to right. -/
def blackCounts : BinTree α → List Nat
  | nil => [0]
  | node l a r => (blackCounts l ++ blackCounts r).map (· + if black a then 1 else 0)

/-- Every path from the root to an empty subtree holds `n` black nodes. -/
def BlackHeight (t : BinTree α) (n : Nat) : Prop := ∀ x ∈ blackCounts black t, x = n

instance decRedOk : (t : BinTree α) → Decidable (RedOk black t)
  | nil => isTrue trivial
  | node l a r =>
    haveI := decRedOk l
    haveI := decRedOk r
    inferInstanceAs (Decidable ((black a = false → _ ∧ _) ∧ RedOk black l ∧ RedOk black r))

instance (t : BinTree α) (n : Nat) : Decidable (BlackHeight black t n) :=
  inferInstanceAs (Decidable (∀ x ∈ blackCounts black t, x = n))

@[simp] theorem redOk_nil : RedOk black (nil : BinTree α) := trivial

theorem redOk_node {l r : BinTree α} {a : α} :
    RedOk black (node l a r) ↔
      (black a = false → rootBlack black l = true ∧ rootBlack black r = true) ∧
        RedOk black l ∧ RedOk black r := Iff.rfl

theorem blackCounts_ne_nil (t : BinTree α) : blackCounts black t ≠ [] := by
  cases t with
  | nil => simp [blackCounts]
  | node l a r =>
    have hl : blackCounts black l ≠ [] := blackCounts_ne_nil l
    simp [blackCounts, hl]

/-- A property of every path of a node: of every path of either subtree, with
the node's own colour added. -/
theorem forall_blackCounts_node {l r : BinTree α} {a : α} {P : Nat → Prop} :
    (∀ x ∈ blackCounts black (node l a r), P x) ↔
      (∀ x ∈ blackCounts black l, P (x + if black a then 1 else 0)) ∧
        ∀ x ∈ blackCounts black r, P (x + if black a then 1 else 0) := by
  simp only [blackCounts, List.forall_mem_map, List.forall_mem_append]

@[simp] theorem blackHeight_nil {n : Nat} : BlackHeight black (nil : BinTree α) n ↔ n = 0 := by
  simp [BlackHeight, blackCounts, eq_comm]

end Colour

end BinTree
