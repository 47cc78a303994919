-- Prototypes: the body of a compiled function and, below it, the prototypes of the
-- functions that it makes. The tree owns its prototypes, and a parent is known to its
-- children only as a path.
import BytecodeDump.Constant
import BytecodeDump.Debug
import BytecodeDump.Flags
import BytecodeDump.Instruction
import BytecodeDump.Upvalue

namespace BytecodeDump

/-- A function without the functions that it makes. -/
structure Body where
  flags : PrototypeFlags := ⟨0⟩
  /-- How many parameters have a name. -/
  args : UInt8 := 0
  /-- The size of the frame. -/
  maxSlot : UInt8 := 0
  debug : Option DebugInfo := none
  code : List Instruction := []
  upvalues : List Upvalue := []
  constants : List Constant := []
  numbers : List NumberConstant := []
  deriving DecidableEq

namespace Body

/-- The indices that the child constants name, in the order of the constants. -/
def childIndices (b : Body) : List Nat := b.constants.filterMap Constant.childIndex?

/-- Whether the function takes more arguments than it names. -/
def isVararg (b : Body) : Bool := b.flags.has PrototypeFlags.vararg

end Body

/-- A function, the path of its parent where that is known, and its children. -/
inductive Prototype where
  | node (body : Body) (parent : Option Path) (children : List Prototype)

namespace Prototype

def body : Prototype → Body
  | node body _ _ => body

/-- The path of the enclosing prototype, as far as it was noted. -/
def parent : Prototype → Option Path
  | node _ parent _ => parent

def children : Prototype → List Prototype
  | node _ _ children => children

/-- A function with nothing in it. -/
def empty : Prototype := node {} none []

/-! ## Equality -/

mutual

/-- Equality of two prototypes with all that is below them. -/
def decEq : (p q : Prototype) → Decidable (p = q)
  | node b₁ o₁ cs₁, node b₂ o₂ cs₂ =>
    if hb : b₁ = b₂ then
      if ho : o₁ = o₂ then
        match decEqList cs₁ cs₂ with
        | isTrue hc => isTrue (by rw [hb, ho, hc])
        | isFalse hc => isFalse (by intro h; injection h; contradiction)
      else isFalse (by intro h; injection h; contradiction)
    else isFalse (by intro h; injection h; contradiction)

/-- Equality of two lists of prototypes. -/
def decEqList : (ps qs : List Prototype) → Decidable (ps = qs)
  | [], [] => isTrue rfl
  | [], _ :: _ => isFalse (by intro h; injection h)
  | _ :: _, [] => isFalse (by intro h; injection h)
  | p :: ps, q :: qs =>
    match decEq p q with
    | isTrue hp =>
      match decEqList ps qs with
      | isTrue hs => isTrue (by rw [hp, hs])
      | isFalse hs => isFalse (by intro h; injection h; contradiction)
    | isFalse hp => isFalse (by intro h; injection h; contradiction)

end

instance : DecidableEq Prototype := decEq

/-! ## Children -/

/-- The child that a constant names. -/
def child? (p : Prototype) (k : Constant) : Option Prototype :=
  k.childIndex?.bind (p.children[·]?)

/-- The prototype with one more child, and the constant that names it. The constant
is not among the constants yet. -/
def addChild (p child : Prototype) : Prototype × Constant :=
  (node { p.body with flags := p.body.flags.insert PrototypeFlags.hasChildren } p.parent
      (p.children ++ [child]),
    .child p.children.length)

/-- The prototype with one child less; those after it move down. -/
def removeChild (p : Prototype) (index : Nat) : Prototype :=
  node p.body p.parent (p.children.eraseIdx index)

/-- The prototype with a changed body. -/
def mapBody (f : Body → Body) : Prototype → Prototype
  | node body parent children => node (f body) parent children

/-! ## The whole tree -/

/-- The prototype at a path below this one. -/
def at? : Prototype → List Nat → Option Prototype
  | p, [] => some p
  | p, index :: rest => p.children[index]?.bind (at? · rest)

/-- The tree with the prototype at a path changed; as it was if there is none. -/
def modifyAt (f : Prototype → Prototype) : List Nat → Prototype → Prototype
  | [], p => f p
  | index :: rest, node body parent children =>
    node body parent (children.modify index (modifyAt f rest))

mutual

/-- The prototypes of the tree with their paths, a prototype before its children. -/
def walk (path : Path) : Prototype → List (Path × Prototype)
  | node body parent children =>
    (path, node body parent children) :: walkList path 0 children

/-- The prototypes of the children from number `index` on. -/
def walkList (path : Path) (index : Nat) : List Prototype → List (Path × Prototype)
  | [] => []
  | p :: ps => walk (path.child index) p ++ walkList path (index + 1) ps

end

mutual

/-- Notes the path of the parent in every prototype below the one at `path`, and
`parent` in that one itself. -/
def link (parent : Option Path) (path : Path) : Prototype → Prototype
  | node body _ children => node body parent (linkList path 0 children)

/-- The children from number `index` on, linked to their parent at `path`. -/
def linkList (path : Path) (index : Nat) : List Prototype → List Prototype
  | [] => []
  | p :: ps => link (some path) (path.child index) p :: linkList path (index + 1) ps

end

mutual

/-- Takes out every debug block. -/
def strip : Prototype → Prototype
  | node body parent children => node { body with debug := none } parent (stripList children)

/-- Takes out every debug block of some trees. -/
def stripList : List Prototype → List Prototype
  | [] => []
  | p :: ps => strip p :: stripList ps

end

end Prototype

end BytecodeDump
