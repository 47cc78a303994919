-- What a dump does not show. No dump shows the parents that were noted, and the dump of a
-- stripped script shows neither the chunk name nor a debug block. Nothing of these is in
-- the bytes, and none of them decides whether the script is written or why it is not.
import BytecodeDump.Proofs.Stripping

namespace BytecodeDump

/-! ## Bodies -/

namespace Body

/-- Two bodies are the same but for their debug blocks, and these are the same if
debug blocks are shown. -/
structure Alike (shown : Bool) (b b' : Body) : Prop where
  others : b'.strip = b.strip
  debug : shown = true → b'.debug = b.debug

variable {table : OpcodeTable} {layout : Layout} {b b' : Body}

/-- Where there is no room for debug blocks, the record is the same without them, and so is
the fault. -/
theorem writeRecord_strip (h : layout.debug = false) (path : Path) (b : Body) :
    b.strip.writeRecord table layout path = b.writeRecord table layout path := by
  have hnone : ∀ c : Body, c.writeDebug layout path = .ok none := by
    intro c
    rw [writeDebug, h]
  rw [writeRecord, writeRecord, write, write, hnone, hnone]
  rfl

theorem Alike.eq_of_shown (h : b.Alike true b') : b' = b := by
  obtain ⟨hothers, hdebug⟩ := h
  calc b' = { b'.strip with debug := b'.debug } := rfl
    _ = { b.strip with debug := b.debug } := by rw [hothers, hdebug rfl]
    _ = b := rfl

theorem Alike.writeRecord_eq (h : b.Alike layout.debug b') (path : Path) :
    b'.writeRecord table layout path = b.writeRecord table layout path := by
  cases hdebug : layout.debug with
  | true =>
    rw [hdebug] at h
    rw [h.eq_of_shown]
  | false => rw [← writeRecord_strip hdebug, h.others, writeRecord_strip hdebug]

end Body

/-! ## Trees -/

namespace Prototype

/-- Two trees are the same but for the parents noted in them, and for the debug blocks if
these are not shown. -/
inductive Alike (shown : Bool) : Prototype → Prototype → Prop
  | node {b b' : Body} {parent parent' : Option Path} {children children' : List Prototype}
      (body : b.Alike shown b') (length : children'.length = children.length)
      (below : ∀ (k : Nat) (c c' : Prototype), children[k]? = some c → children'[k]? = some c' →
        Alike shown c c') :
      Alike shown (node b parent children) (node b' parent' children')

variable {table : OpcodeTable} {layout : Layout}

theorem Alike.write_eq {p p' : Prototype} (h : p.Alike layout.debug p') (path : Path) :
    p'.write table layout path = p.write table layout path := by
  induction h generalizing path with
  | @node b b' _ _ children children' body length below ih =>
    have hindices : b'.childIndices = b.childIndices := by
      rw [← b'.childIndices_strip, body.others, b.childIndices_strip]
    have horder : childOrder path b' children'.length = childOrder path b children.length := by
      rw [childOrder, childOrder, length, hindices]
    -- Child for child the forms are the same, the faults among them, and so is their order.
    have hbelow : writeList table layout path 0 children' =
        writeList table layout path 0 children := by
      apply List.ext_getElem?
      intro k
      rw [getElem?_writeList, getElem?_writeList]
      by_cases hk : k < children.length
      · have hc := List.getElem?_eq_getElem hk
        have hc' := List.getElem?_eq_getElem (length ▸ hk : k < children'.length)
        rw [hc, hc', Option.map_some, Option.map_some, ih k _ _ hc hc']
      · have hk' : ¬k < children'.length := length ▸ hk
        rw [List.getElem?_eq_none (Nat.not_lt.1 hk), List.getElem?_eq_none (Nat.not_lt.1 hk')]
    rw [write, write, horder, hbelow, body.writeRecord_eq path]

end Prototype

/-! ## The law -/

namespace Script

/-- Two scripts are the same in all that a dump shows: they may differ in the parents that
were noted and, if both are stripped, in the chunk name and the debug blocks. -/
structure Alike (s s' : Script) : Prop where
  version : s'.version = s.version
  flags : s'.flags = s.flags
  chunkName : s.hasDebug = true → s'.chunkName = s.chunkName
  root : s.root.Alike s.hasDebug s'.root

/-- Scripts that are alike in what a dump shows have the same dump, or are refused with the
same fault. -/
theorem hidden_parts_do_not_show {table : OpcodeTable} {s s' : Script} (h : s.Alike s') :
    encode table s' = encode table s := by
  have hdebug : s'.hasDebug = s.hasDebug := by rw [hasDebug, hasDebug, h.flags]
  have hlayout : s'.layout = s.layout := by rw [layout, layout, endian, endian, hdebug, h.flags]
  have hname : s'.writeChunkName = s.writeChunkName := by
    rw [writeChunkName, writeChunkName, hdebug]
    by_cases hshown : s.hasDebug
    · rw [h.chunkName hshown]
    · rw [if_neg hshown, if_neg hshown]
  rw [encode, encode, h.version, h.flags, hname, hlayout, h.root.write_eq .root]

/-- A stripped function that makes another one. -/
def plainScript : Script where
  chunkName := []
  root := .node { constants := [.child 0] } none [.node { maxSlot := 1 } none []]

/-- The same functions with a chunk name, a parent, and debug blocks of which one has a
line where there is no instruction. -/
def secretScript : Script where
  chunkName := [0x40, 0x61]
  root := .node { constants := [.child 0], debug := some { lines := [1] } } none
    [.node { maxSlot := 1, debug := some {} } (some .root) []]

theorem secretScript_shows_nothing : plainScript.Alike secretScript ∧
    encode bareTable secretScript = encode bareTable plainScript := by
  have hchild : (Prototype.node { maxSlot := 1 } none []).Alike false
      (.node { maxSlot := 1, debug := some {} } (some .root) []) :=
    .node ⟨rfl, nofun⟩ rfl nofun
  have halike : plainScript.Alike secretScript := by
    refine ⟨rfl, rfl, nofun, .node ⟨rfl, nofun⟩ rfl ?_⟩
    intro k c c' hc hc'
    cases k with
    | zero =>
      cases hc
      cases hc'
      exact hchild
    | succ k => cases hc
  exact ⟨halike, hidden_parts_do_not_show halike⟩

end Script

end BytecodeDump
