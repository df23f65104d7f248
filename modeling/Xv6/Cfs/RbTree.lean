/-
The red-black tree of runnable processes, as `proc.c` checks it and
`sysproc.c` reports it.

The scheduler keeps its runnable processes in a red-black tree threaded through
`struct proc` by the fields `l`, `r`, `p` and `color`. Here the tree is a
`BinTree` of the fields the two functions read; a node's parent pointer is
the node above it, so `collect_rb_tree_nodes` is handed it as an argument.

`treebalanced` decides the colour invariants of `BinTree`. The recursion under
it, `check_rb_tree_properties`, shares one reference count among all leaves,
`-1` standing for "not set yet". From a start count `k ≥ 0`, or with the
reference already set, it returns 1 exactly when the invariants hold, and it
leaves `k` plus the black height in the reference. A negative start count can
make the first leaf's count `-1`, which the next leaf takes for "not set": the
check then passes a tree whose paths differ (`check_rb_tree_properties_neg`).

`collect_rb_tree_nodes` writes one `rb_node_info` per node, in order. Its bound
is tested on entry only: once the left recursion has filled the buffer, the node
itself is still written, past `max_nodes`, and `sys_gettreenodes` copies out
more entries than the user buffer was checked for.
-/
import Xv6.Lib.BinTree
import Mathlib.Logic.Function.Basic

set_option autoImplicit false

namespace Xv6.Cfs

open BinTree

/-- enum procColor. -/
inductive procColor where
  | RED
  | BLACK
  deriving DecidableEq, Repr

open procColor

/-- The fields of a `struct proc` the tree code reads. `vruntime` is a double in
the source; nothing here computes with it. -/
structure proc (V : Type) where
  pid : Int
  vruntime : V
  color : procColor
  deriving DecidableEq, Repr

variable {V : Type}

/-- The colouring the invariants are stated for. -/
def isBlack (p : proc V) : Bool := p.color == BLACK

/-- A child pointer that is not null and names a red node. -/
def isRedChild : BinTree (proc V) → Bool
  | nil => false
  | node _ p _ => p.color == RED

def check_rb_tree_properties : BinTree (proc V) → Int → Int → Bool × Int
  | nil, black_count, path_black_count =>
    -- a leaf: the first one sets the reference count, every later one compares with it
    if path_black_count = -1 then (true, black_count)
    else if black_count ≠ path_black_count then (false, path_black_count)
    else (true, path_black_count)
  | node l p r, black_count, path_black_count =>
    if p.color = RED ∧ (isRedChild l = true ∨ isRedChild r = true) then
      (false, path_black_count)
    else
      let black_count := if p.color = BLACK then black_count + 1 else black_count
      let (ok, path_black_count) := check_rb_tree_properties l black_count path_black_count
      if !ok then (false, path_black_count)
      else check_rb_tree_properties r black_count path_black_count

def treebalanced (root : BinTree (proc V)) : Bool :=
  let rootNotBlack : Bool := match root with
    | nil => false
    | node _ p _ => p.color ≠ BLACK
  if rootNotBlack then false else (check_rb_tree_properties root 0 (-1)).1

/-! ## The colour check -/

theorem isRedChild_eq (t : BinTree (proc V)) : isRedChild t = !rootBlack isBlack t := by
  cases t with
  | nil => rfl
  | node l p r => cases hc : p.color <;> simp [isRedChild, rootBlack, isBlack, hc]

/-- The red-red test of a node fails exactly when the node keeps `RedOk`'s own
condition. -/
theorem redRed_iff (l r : BinTree (proc V)) (p : proc V) :
    (p.color = RED ∧ (isRedChild l = true ∨ isRedChild r = true)) ↔
      ¬(isBlack p = false → rootBlack isBlack l = true ∧ rootBlack isBlack r = true) := by
  rw [isRedChild_eq, isRedChild_eq]
  cases hc : p.color <;> simp [isBlack, hc, or_iff_not_and_not]

/-- The count passed to the children, against the count of a path through the node. -/
theorem blackStep_add (p : proc V) (k : Int) (x : Nat) :
    (if p.color = BLACK then k + 1 else k) + x = k + ((x + if isBlack p then 1 else 0 : Nat) : Int) := by
  cases hc : p.color with
  | RED => simp [isBlack, hc]
  | BLACK =>
    simp [isBlack, hc]
    omega

/-- Every path of `t` reaches `ρ` from the start count `k` exactly when `t` has a
black height `n` and `ρ = k + n`. -/
theorem forall_add_eq_iff (t : BinTree (proc V)) (k ρ : Int) :
    (∀ x ∈ blackCounts isBlack t, k + x = ρ) ↔ ∃ n : Nat, BlackHeight isBlack t n ∧ ρ = k + n := by
  constructor
  · intro h
    obtain ⟨x, hx⟩ := List.exists_mem_of_ne_nil _ (blackCounts_ne_nil isBlack t)
    refine ⟨x, fun y hy => ?_, (h x hx).symm⟩
    have := h y hy
    have := h x hx
    omega
  · rintro ⟨n, hn, rfl⟩ x hx
    rw [hn x hx]

/-- The check from the start count `k` with the reference `ref`, when `k ≥ 0` or
the reference is set: it passes leaving `ρ` in the reference exactly when the
colours are right, every path reaches `ρ` from `k`, and `ρ` is the reference if
that was set. The induction carries the reference from the left subtree to the
right one. -/
theorem check_spec (t : BinTree (proc V)) {k ref : Int} (h : 0 ≤ k ∨ ref ≠ -1) (ρ : Int) :
    check_rb_tree_properties t k ref = (true, ρ) ↔
      RedOk isBlack t ∧ (∀ x ∈ blackCounts isBlack t, k + x = ρ) ∧ (ref ≠ -1 → ρ = ref) := by
  induction t generalizing k ref ρ with
  | nil =>
    by_cases href : ref = -1
    · simp [check_rb_tree_properties, href, blackCounts, eq_comm]
    · by_cases hk : k = ref
      · simp [check_rb_tree_properties, href, hk, blackCounts, eq_comm]
      · simp only [check_rb_tree_properties, href, if_false, ne_eq, hk, not_false_eq_true, if_true]
        simp [blackCounts]
        omega
  | node l p r ihl ihr =>
    rw [check_rb_tree_properties]
    by_cases hrr : p.color = RED ∧ (isRedChild l = true ∨ isRedChild r = true)
    · rw [if_pos hrr]
      have hbad : ¬RedOk isBlack (node l p r) := fun h => (redRed_iff l r p).mp hrr h.1
      simp [hbad]
    · rw [if_neg hrr]
      have hlocal := (not_congr (redRed_iff l r p)).mp hrr
      simp only [not_not] at hlocal
      have h' : 0 ≤ (if p.color = BLACK then k + 1 else k) ∨ ref ≠ -1 := by split <;> omega
      dsimp only
      rcases hq : check_rb_tree_properties l (if p.color = BLACK then k + 1 else k) ref with
        ⟨_ | _, ρ₁⟩
      · -- the left check fails, and the left subtree is what breaks the node
        simp only [Bool.not_false, if_true, Prod.mk.injEq, Bool.false_eq_true, false_and,
          false_iff, redOk_node, forall_blackCounts_node, ← blackStep_add]
        rintro ⟨⟨-, hl, -⟩, ⟨hlρ, -⟩, hρ⟩
        have := (ihl h' ρ).mpr ⟨hl, hlρ, hρ⟩
        rw [hq] at this
        simp at this
      · obtain ⟨hl, hlρ, hlref⟩ := (ihl h' ρ₁).mp hq
        have hρ₁ : ρ₁ ≠ -1 := by
          rcases h with hk | href
          · obtain ⟨x, hx⟩ := List.exists_mem_of_ne_nil _ (blackCounts_ne_nil isBlack l)
            have := hlρ x hx
            split at this <;> omega
          · rw [hlref href]
            exact href
        simp only [Bool.not_true, Bool.false_eq_true, if_false]
        rw [ihr (Or.inr hρ₁)]
        simp only [redOk_node, forall_blackCounts_node, ← blackStep_add]
        constructor
        · rintro ⟨hr, hrρ, hρ⟩
          obtain rfl := hρ hρ₁
          exact ⟨⟨hlocal, hl, hr⟩, ⟨hlρ, hrρ⟩, hlref⟩
        · rintro ⟨⟨-, -, hr⟩, ⟨hlρ', hrρ⟩, -⟩
          obtain ⟨x, hx⟩ := List.exists_mem_of_ne_nil _ (blackCounts_ne_nil isBlack l)
          have hρ : ρ = ρ₁ := by rw [← hlρ' x hx, hlρ x hx]
          exact ⟨hr, hrρ, fun _ => hρ⟩

/-- The check run as `treebalanced` runs it, from the count 0 with the reference
unset, passes exactly when the colours are right and the tree has a black
height. -/
theorem check_root_iff (root : BinTree (proc V)) :
    (check_rb_tree_properties root 0 (-1)).1 = true ↔
      RedOk isBlack root ∧ ∃ n : Nat, BlackHeight isBlack root n := by
  constructor
  · intro h
    have hρ : check_rb_tree_properties root 0 (-1) =
        (true, (check_rb_tree_properties root 0 (-1)).2) := Prod.ext h rfl
    obtain ⟨hok, hall, -⟩ := (check_spec root (Or.inl (Int.le_refl 0)) _).mp hρ
    obtain ⟨n, hn, -⟩ := (forall_add_eq_iff root 0 _).mp hall
    exact ⟨hok, n, hn⟩
  · rintro ⟨hok, n, hn⟩
    have hall := (forall_add_eq_iff root 0 (0 + n)).mpr ⟨n, hn, rfl⟩
    rw [(check_spec root (Or.inl (Int.le_refl 0)) _).mpr ⟨hok, hall, fun h => absurd rfl h⟩]

theorem treebalanced_decides (t : BinTree (proc V)) :
    (treebalanced t = true ↔
      rootBlack isBlack t = true ∧ RedOk isBlack t ∧ ∃ n : Nat, BlackHeight isBlack t n) ∧
    ∀ k ref ρ : Int, (0 ≤ k ∨ ref ≠ -1) →
      (check_rb_tree_properties t k ref = (true, ρ) ↔
        RedOk isBlack t ∧ ∃ n : Nat, BlackHeight isBlack t n ∧ ρ = k + n ∧ (ref ≠ -1 → ρ = ref)) := by
  constructor
  · -- the root test, then the check from 0 with the reference unset
    cases t with
    | nil => simpa [treebalanced, rootBlack] using check_root_iff (nil : BinTree (proc V))
    | node l p r =>
      cases hc : p.color <;> simp [treebalanced, rootBlack, isBlack, hc, check_root_iff]
  · intro k ref ρ h
    rw [check_spec t h, forall_add_eq_iff]
    constructor
    · rintro ⟨hok, ⟨n, hn, rfl⟩, href⟩
      exact ⟨hok, n, hn, rfl, href⟩
    · rintro ⟨hok, n, hn, rfl, href⟩
      exact ⟨hok, ⟨n, hn, rfl⟩, href⟩

theorem treebalanced_decides_two :
    treebalanced (node nil ⟨1, (), BLACK⟩ (node nil ⟨2, (), RED⟩ nil)) = true ∧
      check_rb_tree_properties (node nil (⟨1, (), BLACK⟩ : proc Unit) (node nil ⟨2, (), RED⟩ nil))
        0 (-1) = (true, 1) :=
  ⟨(treebalanced_decides _).1.mpr ⟨rfl, by decide, 1, by decide⟩,
    ((treebalanced_decides _).2 0 (-1) 1 (Or.inl (Int.le_refl 0))).mpr
      ⟨by decide, 1, by decide, rfl, fun h => absurd rfl h⟩⟩

/-- From the start count -1 the left leaf's count is -1, which the right leaf
takes for an unset reference: a red root with an empty left subtree and a black
right child passes, although its two paths hold 0 and 1 black nodes. -/
theorem check_rb_tree_properties_neg :
    check_rb_tree_properties (node nil (⟨1, (), RED⟩ : proc Unit) (node nil ⟨2, (), BLACK⟩ nil))
        (-1) (-1) = (true, 0) ∧
      ¬∃ n : Nat, BlackHeight isBlack
        (node nil (⟨1, (), RED⟩ : proc Unit) (node nil ⟨2, (), BLACK⟩ nil)) n := by
  refine ⟨by decide, ?_⟩
  rintro ⟨n, hn⟩
  have h0 := hn 0 (by decide)
  have h1 := hn 1 (by decide)
  omega

/-! ## Reporting the tree -/

/-- struct rb_node_info: what `sys_gettreenodes` reports of one node. -/
structure rb_node_info (V : Type) where
  pid : Int
  vruntime : V
  color : Int
  left_pid : Int
  right_pid : Int
  parent_pid : Int
  deriving DecidableEq, Repr

/-- The pid a pointer names, -1 for a null one. -/
def pidOf : Option (proc V) → Int
  | none => -1
  | some q => q.pid

/-- The node a child pointer names. -/
def rootOf : BinTree (proc V) → Option (proc V)
  | nil => none
  | node _ q _ => some q

/-- The entry `collect_rb_tree_nodes` writes for a node in place. -/
def nodeInfo (v : View (proc V)) : rb_node_info V where
  pid := v.label.pid
  vruntime := v.label.vruntime
  color := if v.label.color = RED then 0 else 1
  left_pid := pidOf (rootOf v.left)
  right_pid := pidOf (rootOf v.right)
  parent_pid := pidOf v.parent

/-- `parent` is the node's `p` pointer; `nodes` is the page the entries go to and
`index` the count `*index` the calls share. -/
def collect_rb_tree_nodes (max_nodes : Int) :
    Option (proc V) → BinTree (proc V) → (Nat → rb_node_info V) → Nat →
      (Nat → rb_node_info V) × Nat
  | _, nil, nodes, index => (nodes, index)
  | parent, node l p r, nodes, index =>
    if max_nodes ≤ index then (nodes, index)
    else
      let (nodes, index) := collect_rb_tree_nodes max_nodes (some p) l nodes index
      let nodes := Function.update nodes index (nodeInfo ⟨parent, l, p, r⟩)
      collect_rb_tree_nodes max_nodes (some p) r nodes (index + 1)

/-- `sys_gettreenodes` once `argint`, `argptr` and `kalloc` have passed:
`collect_rb_tree_nodes` fills the page from the root, whose parent pointer is
null, `copyout` copies its first `node_index` entries to the user buffer, and
`node_index` is returned. -/
def sys_gettreenodes (root : BinTree (proc V)) (max_nodes : Int) (page : Nat → rb_node_info V) :
    List (rb_node_info V) × Int :=
  let (nodes, node_index) := collect_rb_tree_nodes max_nodes none root page 0
  ((List.range node_index).map nodes, node_index)

section Collect

variable (max_nodes : Int)

@[simp] theorem collect_nil (parent : Option (proc V)) (nodes : Nat → rb_node_info V)
    (index : Nat) : collect_rb_tree_nodes max_nodes parent nil nodes index = (nodes, index) := rfl

/-- A node below the bound: the left subtree, the node at the index the left
subtree leaves, then the right subtree after it. -/
theorem collect_node {parent : Option (proc V)} {l r : BinTree (proc V)} {p : proc V}
    {nodes : Nat → rb_node_info V} {index : Nat} (h : ¬max_nodes ≤ index) :
    collect_rb_tree_nodes max_nodes parent (node l p r) nodes index =
      collect_rb_tree_nodes max_nodes (some p) r
        (Function.update (collect_rb_tree_nodes max_nodes (some p) l nodes index).1
          (collect_rb_tree_nodes max_nodes (some p) l nodes index).2 (nodeInfo ⟨parent, l, p, r⟩))
        ((collect_rb_tree_nodes max_nodes (some p) l nodes index).2 + 1) := by
  rw [collect_rb_tree_nodes, if_neg h]

/-- The shared index only grows. -/
theorem le_collect (parent : Option (proc V)) (t : BinTree (proc V)) (nodes : Nat → rb_node_info V)
    (index : Nat) : index ≤ (collect_rb_tree_nodes max_nodes parent t nodes index).2 := by
  induction t generalizing parent nodes index with
  | nil => exact Nat.le_refl _
  | node l p r ihl ihr =>
    by_cases h : max_nodes ≤ index
    · simp [collect_rb_tree_nodes, h]
    · rw [collect_node max_nodes h]
      have hl := ihl (some p) nodes index
      have hr := ihr (some p) (Function.update (collect_rb_tree_nodes max_nodes (some p) l nodes index).1
        (collect_rb_tree_nodes max_nodes (some p) l nodes index).2 (nodeInfo ⟨parent, l, p, r⟩))
        ((collect_rb_tree_nodes max_nodes (some p) l nodes index).2 + 1)
      omega

/-- Every entry is written at the shared index, so nothing below the start
index changes. -/
theorem collect_of_lt (parent : Option (proc V)) (t : BinTree (proc V)) (nodes : Nat → rb_node_info V)
    {index j : Nat} (hj : j < index) :
    (collect_rb_tree_nodes max_nodes parent t nodes index).1 j = nodes j := by
  induction t generalizing parent nodes index with
  | nil => rfl
  | node l p r ihl ihr =>
    by_cases h : max_nodes ≤ index
    · simp [collect_rb_tree_nodes, h]
    · rw [collect_node max_nodes h]
      have hl := le_collect max_nodes (some p) l nodes index
      rw [ihr _ _ (by omega), Function.update_of_ne (by omega), ihl _ _ hj]

/-- The walk stops short of the whole tree only at the bound: the index it
leaves is past every node or at least `max_nodes`. -/
theorem collect_reaches (parent : Option (proc V)) (t : BinTree (proc V))
    (nodes : Nat → rb_node_info V) (index : Nat) :
    index + t.size ≤ (collect_rb_tree_nodes max_nodes parent t nodes index).2 ∨
      max_nodes ≤ (collect_rb_tree_nodes max_nodes parent t nodes index).2 := by
  induction t generalizing parent nodes index with
  | nil => exact Or.inl (Nat.le_refl _)
  | node l p r ihl ihr =>
    by_cases h : max_nodes ≤ index
    · simp [collect_rb_tree_nodes, h]
    · rw [collect_node max_nodes h]
      have hl := ihl (some p) nodes index
      generalize collect_rb_tree_nodes max_nodes (some p) l nodes index = q at hl ⊢
      have hr := le_collect max_nodes (some p) r (Function.update q.1 q.2 (nodeInfo ⟨parent, l, p, r⟩))
        (q.2 + 1)
      rcases hl with hl | hl <;>
        rcases ihr (some p) (Function.update q.1 q.2 (nodeInfo ⟨parent, l, p, r⟩)) (q.2 + 1) with
          hr' | hr' <;> simp only [size_node] <;> omega

/-- With room for the whole subtree, the walk writes the entry of each node in
order from the start index, and leaves the index past them. -/
theorem collect_fits (parent : Option (proc V)) (t : BinTree (proc V)) (nodes : Nat → rb_node_info V)
    (index : Nat) (h : index + t.size ≤ max_nodes) :
    (collect_rb_tree_nodes max_nodes parent t nodes index).2 = index + t.size ∧
      ∀ j, index ≤ j → (collect_rb_tree_nodes max_nodes parent t nodes index).1 j =
        ((t.views parent).map nodeInfo).getD (j - index) (nodes j) := by
  induction t generalizing parent nodes index with
  | nil => simp
  | node l p r ihl ihr =>
    simp only [size_node] at h
    rw [collect_node max_nodes (by omega)]
    obtain ⟨hl2, hl1⟩ := ihl (some p) nodes index (by omega)
    generalize collect_rb_tree_nodes max_nodes (some p) l nodes index = q at hl2 hl1
    obtain ⟨hr2, hr1⟩ := ihr (some p) (Function.update q.1 q.2 (nodeInfo ⟨parent, l, p, r⟩))
      (q.2 + 1) (by omega)
    refine ⟨by rw [hr2, hl2, size_node]; omega, fun j hj => ?_⟩
    have hL : ((l.views (some p)).map nodeInfo).length = l.size := by
      rw [List.length_map, length_views]
    simp only [views_node, List.map_append, List.map_cons]
    rcases Nat.lt_trichotomy j q.2 with hlt | rfl | hgt
    · -- an entry of the left subtree
      rw [collect_of_lt max_nodes _ _ _ (by omega), Function.update_of_ne (by omega), hl1 j hj,
        List.getD_append _ _ _ _ (by omega)]
    · -- the node itself, at the index the left subtree leaves
      rw [collect_of_lt max_nodes _ _ _ (by omega), Function.update_self,
        List.getD_append_right _ _ _ _ (by omega), hL, hl2, show index + l.size - index - l.size = 0 by omega,
        List.getD_cons_zero]
    · -- an entry of the right subtree; the left walk left its slot as it was
      have hdef : ((l.views (some p)).map nodeInfo).getD (j - index) (nodes j) = nodes j :=
        List.getD_eq_default _ _ (by rw [hL]; omega)
      rw [hr1 j (by omega), Function.update_of_ne (by omega), hl1 j hj, hdef, hl2,
        List.getD_append_right _ _ _ _ (by omega), hL,
        show j - index - l.size = j - (index + l.size + 1) + 1 by omega, List.getD_cons_succ]

end Collect

/-- With `max_nodes` at least the number of nodes, as the repository's tests
call it, `sys_gettreenodes` copies out the entry of every node in order, each
with its own fields and the pids of its children and parent, and returns the
number of nodes. -/
theorem sys_gettreenodes_of_size_le (root : BinTree (proc V)) (page : Nat → rb_node_info V)
    {max_nodes : Int} (h : root.size ≤ max_nodes) :
    sys_gettreenodes root max_nodes page = ((root.views none).map nodeInfo, (root.size : Int)) := by
  obtain ⟨h2, h1⟩ := collect_fits max_nodes none root page 0 (by omega)
  simp only [Nat.zero_add, Nat.sub_zero] at h2 h1
  unfold sys_gettreenodes
  generalize collect_rb_tree_nodes max_nodes none root page 0 = q at h2 h1 ⊢
  obtain ⟨nodes, node_index⟩ := q
  subst h2
  dsimp only at h1 ⊢
  have hlen : ((root.views none).map nodeInfo).length = root.size := by
    rw [List.length_map, length_views]
  refine Prod.ext (List.ext_getElem (by rw [List.length_map, List.length_range, hlen]) ?_) rfl
  intro j hj _
  rw [List.getElem_map, List.getElem_range, h1 j (Nat.zero_le j), List.getD_eq_getElem]

/-- With `max_nodes ≤ 0` nothing is written or copied. -/
theorem sys_gettreenodes_of_nonpos (root : BinTree (proc V)) (page : Nat → rb_node_info V)
    {max_nodes : Int} (h : max_nodes ≤ 0) : sys_gettreenodes root max_nodes page = ([], 0) := by
  cases root with
  | nil => rfl
  | node l p r => simp [sys_gettreenodes, collect_rb_tree_nodes, h]

/-- The bound is tested on entry only. When the left subtree alone has
`max_nodes` nodes or more, the left walk stops at `max_nodes` or past it, and the
root is written there anyway: `sys_gettreenodes` returns more than `max_nodes`
and copies out, past the first `max_nodes` entries, the root's. -/
theorem sys_gettreenodes_overruns (l r : BinTree (proc V)) (p : proc V) (page : Nat → rb_node_info V)
    {max_nodes : Int} (hpos : 0 < max_nodes) (hl : max_nodes ≤ l.size) :
    max_nodes < (sys_gettreenodes (node l p r) max_nodes page).2 ∧
      ∃ j : Nat, max_nodes ≤ j ∧
        (sys_gettreenodes (node l p r) max_nodes page).1[j]? = some (nodeInfo ⟨none, l, p, r⟩) := by
  unfold sys_gettreenodes
  rw [collect_node max_nodes (by omega)]
  have hreach := collect_reaches max_nodes (some p) l page 0
  generalize collect_rb_tree_nodes max_nodes (some p) l page 0 = q at hreach ⊢
  have hq : max_nodes ≤ q.2 := by omega
  have hle := le_collect max_nodes (some p) r (Function.update q.1 q.2 (nodeInfo ⟨none, l, p, r⟩))
    (q.2 + 1)
  have hroot : (collect_rb_tree_nodes max_nodes (some p) r
      (Function.update q.1 q.2 (nodeInfo ⟨none, l, p, r⟩)) (q.2 + 1)).1 q.2 = nodeInfo ⟨none, l, p, r⟩ := by
    rw [collect_of_lt max_nodes _ _ _ (by omega), Function.update_self]
  refine ⟨by dsimp only; omega, q.2, hq, ?_⟩
  dsimp only
  rw [List.getElem?_map, List.getElem?_range (by omega), Option.map_some, hroot]

theorem sys_gettreenodes_overruns_one :
    (1 : Int) < (sys_gettreenodes (node (node nil ⟨2, (), RED⟩ nil) (⟨1, (), BLACK⟩ : proc Unit) nil)
      1 (fun _ => ⟨0, (), 0, 0, 0, 0⟩)).2 :=
  (sys_gettreenodes_overruns _ _ _ _ (by decide) (by decide)).1

/-- `gettreenodes(1, buf)` on a black root with one red left child: both entries
are copied out. -/
example :
    sys_gettreenodes (node (node nil ⟨2, (), RED⟩ nil) (⟨1, (), BLACK⟩ : proc Unit) nil) 1
      (fun _ => ⟨0, (), 0, 0, 0, 0⟩) = ([⟨2, (), 0, -1, -1, 1⟩, ⟨1, (), 1, 2, -1, -1⟩], 2) := by
  decide

end Xv6.Cfs
