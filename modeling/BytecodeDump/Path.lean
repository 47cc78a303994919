-- Where a prototype stands in the tree: the indices of the children from the root
-- down. Paths are ordered by their indices, a path before the paths below it.

namespace BytecodeDump

/-- The indices of the children that lead from the root to a prototype. -/
structure Path where
  indices : List Nat
  deriving DecidableEq, Repr

namespace Path

/-- The path of the root. -/
def root : Path := ⟨[]⟩

/-- The path of the child `index` of the prototype at `p`. -/
def child (p : Path) (index : Nat) : Path := ⟨p.indices ++ [index]⟩

/-- The path of the enclosing prototype; the root has none. -/
def parent? (p : Path) : Option Path :=
  if p.indices.isEmpty then none else some ⟨p.indices.dropLast⟩

/-- How deep the prototype is nested; the root is at 0. -/
def depth (p : Path) : Nat := p.indices.length

/-- The order of two paths: by the first index in which they differ, and a path
comes before the paths below it. -/
def compare (p q : Path) : Ordering := List.compareLex Ord.compare p.indices q.indices

/-- The path as text: the word for the root and then a point before each index. -/
def text (p : Path) : String :=
  p.indices.foldl (fun shown index => shown ++ "." ++ toString index) "main"

end Path

end BytecodeDump
