import Mathlib.Data.List.Nodup
import Mathlib.Tactic

/-!
# Code trees in an arena

A binary code as a tree whose nodes live in a growing list and name their children by position.
Inserting a code word follows the existing nodes and appends the missing ones, so a node keeps its
position for good.
-/

namespace CodeTree

variable {σ : Type*}

/-- A node: its children by the next bit, and the symbol whose word ends here. -/
structure Node (σ : Type*) where
  zero : Option ℕ
  one : Option ℕ
  symbol : Option σ
  deriving DecidableEq, Repr

/-- A node without children and symbol. -/
def Node.empty : Node σ :=
  ⟨none, none, none⟩

/-- The child behind a bit. -/
def Node.child (node : Node σ) (bit : Bool) : Option ℕ :=
  if bit then node.one else node.zero

/-- Link a child. -/
def Node.link (node : Node σ) (bit : Bool) (next : ℕ) : Node σ :=
  if bit then { node with one := some next } else { node with zero := some next }

/-- Follow the bits from a node, appending the nodes that are missing; the node they end at. -/
def grow (tree : List (Node σ)) (node : ℕ) : List Bool → List (Node σ) × ℕ
  | [] => (tree, node)
  | bit :: bits =>
    match tree[node]?.bind (·.child bit) with
    | some next => grow tree next bits
    | none => grow (tree.modify node (·.link bit tree.length) ++ [.empty]) tree.length bits

/-- Enter a word for a symbol. -/
def insert (tree : List (Node σ)) (entry : List Bool × σ) : List (Node σ) :=
  let (tree, node) := grow tree 0 entry.1
  tree.modify node fun node => { node with symbol := some entry.2 }

/-- The tree of a code. -/
def build (code : List (List Bool × σ)) : List (Node σ) :=
  code.foldl insert [.empty]

/-- Follow the bits from a node as far as they are linked. -/
def walk (tree : List (Node σ)) (node : ℕ) : List Bool → Option ℕ
  | [] => some node
  | bit :: bits => (tree[node]?.bind (·.child bit)).bind (walk tree · bits)

end CodeTree
