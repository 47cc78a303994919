-- A dump does not say how the children of a prototype were numbered: they stand in the
-- order of the constants that name them. So a script whose children were put into another
-- order has the same dump, and so has the script that a dump decodes to.
import BytecodeDump.Proofs.ReadBack
import BytecodeDump.Proofs.Subtree

namespace BytecodeDump

/-! ## Other numbers -/

namespace Constant

/-- The constant with the new number of the child that it names. -/
def renumber (number : Nat → Nat) : Constant → Constant
  | child index => child (number index)
  | k => k

theorem standsFor_renumber (number : Nat → Nat) (k : Constant) :
    StandsFor k (k.renumber number) := by
  cases k with
  | child index => exact .inr ⟨index, number index, rfl, rfl⟩
  | _ => exact .inl rfl

theorem childIndex_renumber (number : Nat → Nat) (k : Constant) :
    (k.renumber number).childIndex? = k.childIndex?.map number := by
  cases k <;> rfl

end Constant

namespace Body

/-- The body after its children were put into the order that lists their old numbers. -/
def renumber (order : List Nat) (b : Body) : Body :=
  { b with constants := b.constants.map (Constant.renumber order.idxOf) }

theorem standsFor_renumber (order : List Nat) (b : Body) :
    List.Forall₂ Constant.StandsFor b.constants (b.renumber order).constants := by
  refine List.forall₂_map_right_iff.2 (List.forall₂_same.2 fun k _ => ?_)
  exact Constant.standsFor_renumber order.idxOf k

theorem childIndices_renumber (order : List Nat) (b : Body) :
    (b.renumber order).childIndices = b.childIndices.map order.idxOf := by
  unfold childIndices renumber
  rw [List.filterMap_map, List.map_filterMap]
  exact List.filterMap_congr fun k _ => Constant.childIndex_renumber order.idxOf k

end Body

namespace Prototype

/-- The prototype with its children in the order that lists their old numbers, and its
constants with the new numbers. -/
def reorder (order : List Nat) : Prototype → Prototype
  | node b parent children => node (b.renumber order) parent (select children order)

theorem map_idxOf {order : List Nat} (h : order.Nodup) :
    order.map order.idxOf = List.range order.length := by
  apply List.ext_getElem
  · rw [List.length_map, List.length_range]
  · intro k hk _
    rw [List.getElem_map, List.getElem_range, h.idxOf_getElem]

/-- Under its new number a child is what it was under its old one. -/
theorem select_reorder {α : Type} {children : List α} {order indices : List Nat}
    (horder : order.Perm (List.range children.length))
    (hindices : ∀ index ∈ indices, index < children.length) :
    select (select children order) (indices.map order.idxOf) = select children indices := by
  have hrange : ∀ index ∈ order, index < children.length := by
    intro index hindex
    exact List.mem_range.1 (horder.mem_iff.1 hindex)
  have hget : ∀ index ∈ indices, (select children order)[order.idxOf index]? = children[index]? := by
    intro index hindex
    have hmem : index ∈ order := horder.mem_iff.2 (List.mem_range.2 (hindices index hindex))
    rw [getElem?_select hrange, List.getElem?_idxOf hmem, Option.bind_some]
  rw [select, List.filterMap_map]
  exact List.filterMap_congr hget

variable {table : OpcodeTable} {layout : Layout}

theorem reorder_fits {p : Prototype} {order : List Nat}
    (horder : order.Perm (List.range p.children.length)) (h : p.Fits table layout) :
    (p.reorder order).Fits table layout ∧ (p.reorder order).written layout = p.written layout := by
  obtain ⟨b, parent, children⟩ := p
  obtain ⟨named, below, hrecord⟩ := fits_node.1 h
  replace horder : order.Perm (List.range children.length) := horder
  have hstands := b.standsFor_renumber order
  refine ⟨fits_node.2 ⟨?_, ?_, Body.recordFits_of_standsFor hstands hrecord⟩, ?_⟩
  · rw [Body.childIndices_renumber, length_select horder,
      ← map_idxOf (horder.nodup_iff.2 List.nodup_range)]
    exact (named.trans horder.symm).map order.idxOf
  · intro c hc
    exact below c (mem_of_mem_select hc)
  · have hselect : select (select children order) (b.childIndices.map order.idxOf) =
        select children b.childIndices :=
      select_reorder horder fun index hindex => List.mem_range.1 (named.mem_iff.1 hindex)
    have hrecord : (b.renumber order).record layout = b.record layout :=
      Body.record_of_standsFor hstands
    rw [reorder, written_node, written_node, Body.childIndices_renumber, hselect, hrecord]

/-! ## One prototype of a tree -/

/-- A change of one prototype that shows in no record below it shows in none of the tree. -/
theorem modifyAt_fits {f : Prototype → Prototype} {path : List Nat} {p q : Prototype}
    (hat : p.at? path = some q)
    (hf : q.Fits table layout → (f q).Fits table layout ∧ (f q).written layout = q.written layout)
    (h : p.Fits table layout) :
    (p.modifyAt f path).Fits table layout ∧ (p.modifyAt f path).written layout = p.written layout := by
  obtain ⟨hfits, hsame⟩ := hf (h.at? hat)
  obtain ⟨before, after, -, hwritten, hmodified⟩ := written_split layout h.complete hat
  refine ⟨h.modifyAt hat hfits, ?_⟩
  rw [hmodified, hwritten, hsame]

end Prototype

/-! ## The law -/

namespace Script

/-- What a dump decodes to has the same dump, for any table, and so has the script after
the children of any prototype of it were put into any other order. -/
theorem dumps_do_not_depend_on_numbering {table : OpcodeTable} {s : Script} {bytes : Bytes}
    (hconstants : ∀ x ∈ s.walk, ∀ k ∈ x.2.body.constants, k.Keyed)
    (h : encode table s = .ok bytes) :
    (∃ s', decode table bytes = .ok s' ∧ encode table s' = .ok bytes) ∧
      ∀ path p order, s.prototype? path = some p →
        order.Perm (List.range p.children.length) →
        encode table (s.modify path (Prototype.reorder order)) = .ok bytes := by
  obtain ⟨hfits, rfl⟩ := encode_eq_ok.1 h
  refine ⟨?_, ?_⟩
  · have hdecode := decode_of_fits hfits (hfits.keyed hconstants)
    obtain ⟨parts, hsurvey⟩ := survey_of_decode table hdecode
    have hsound := (sound_of_survey table hsurvey).2
    exact ⟨_, hdecode, encode_eq_ok.2 ⟨hsound.fits, (written_readBack hfits).symm⟩⟩
  · intro path p order hp horder
    obtain ⟨hroot, hwritten⟩ :=
      Prototype.modifyAt_fits hp (Prototype.reorder_fits horder) hfits.root
    refine encode_eq_ok.2 ⟨⟨hfits.version, hfits.chunkName_length, hroot⟩, ?_⟩
    exact congrArg (fun root => s.writtenHeader ++ root ++ [0]) hwritten.symm

/-- A table in which every opcode declares all operands, so that D hides B and C. -/
def overlapTable : OpcodeTable where
  slots := fun _ => ⟨true, true, true, true⟩

/-- A function that makes two others, with an instruction whose operands do not agree. -/
def overlapScript : Script where
  root := .node
    { code := [⟨1, ⟨true, true, true, true⟩, 2, 3, 4, 0x1020⟩]
      constants := [.child 1, .string [0x78], .child 0] }
    none [.node { maxSlot := 1 } none [], .node { maxSlot := 2 } none []]

/-- The dump of these functions. -/
def overlapDump : Bytes :=
  [0x1B, 0x4C, 0x4A, 2, 2, 7, 0, 0, 2, 0, 0, 0, 0, 7, 0, 0, 1, 0, 0, 0, 0, 15, 0, 0, 0, 0, 3, 0, 1,
    1, 2, 0x24, 0x13, 0, 6, 0x78, 0, 0]

theorem overlapScript_in_either_order : encode overlapTable overlapScript = .ok overlapDump ∧
    (∃ s', decode overlapTable overlapDump = .ok s' ∧ encode overlapTable s' = .ok overlapDump) ∧
    encode overlapTable (overlapScript.modify .root (Prototype.reorder [1, 0])) =
      .ok overlapDump := by
  have hencode : encode overlapTable overlapScript = .ok overlapDump := by decide +kernel
  have hconstants : ∀ x ∈ overlapScript.walk, ∀ k ∈ x.2.body.constants, k.Keyed := by
    decide +kernel
  obtain ⟨hback, horders⟩ := dumps_do_not_depend_on_numbering hconstants hencode
  exact ⟨hencode, hback, horders .root overlapScript.root [1, 0] rfl (by decide)⟩

end Script

end BytecodeDump
