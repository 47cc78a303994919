-- What a script comes back as: the same tree, but for the numbers of the children,
-- which count down in the order of the constants that name them.
import BytecodeDump.Proofs.Dump

namespace BytecodeDump

/-! ## Bodies -/

namespace Constant

theorem childIndices_countDown (ks : List Constant) :
    (countDown ks).filterMap childIndex? = (List.range (childCount ks)).reverse := by
  induction ks with
  | nil => rfl
  | cons k ks ih =>
    rw [countDown, childCount_cons]
    cases hk : k.childIndex? with
    | none =>
      have hnone : (k.withIndex (childCount ks)).childIndex? = none := by simp [hk]
      rw [List.filterMap_cons_none hnone, ih, Option.toList_none, List.length_nil, Nat.zero_add]
    | some index =>
      have hsome : (k.withIndex (childCount ks)).childIndex? = some (childCount ks) := by simp [hk]
      rw [List.filterMap_cons_some hsome, ih, Option.toList_some, List.length_singleton,
        Nat.add_comm, List.range_succ, List.reverse_append, List.reverse_singleton,
        List.singleton_append]

/-- One constant stands for another: it is the same, or both name a child. -/
def StandsFor (k k' : Constant) : Prop :=
  k' = k ∨ ∃ index index', k = child index ∧ k' = child index'

theorem standsFor_withIndex (k : Constant) (index : Nat) : StandsFor k (k.withIndex index) := by
  cases k with
  | child old => exact .inr ⟨old, index, rfl, rfl⟩
  | _ => exact .inl rfl

theorem standsFor_countDown (ks : List Constant) : List.Forall₂ StandsFor ks (countDown ks) := by
  induction ks with
  | nil => exact .nil
  | cons k ks ih => exact .cons (standsFor_withIndex k _) ih

end Constant

namespace Body

/-- One body is the image of another: it differs only in the numbers of the children,
which count down, and in the debug block, which is there only if `debug` is. -/
structure Image (debug : Bool) (b b' : Body) : Prop where
  flags : b'.flags = b.flags
  args : b'.args = b.args
  maxSlot : b'.maxSlot = b.maxSlot
  debug : b'.debug = if debug then b.debug else none
  code : b'.code = b.code
  upvalues : b'.upvalues = b.upvalues
  numbers : b'.numbers = b.numbers
  constants : List.Forall₂ Constant.StandsFor b.constants b'.constants
  indices : b'.childIndices = (List.range b.childIndices.length).reverse

theorem image_readBack (layout : Layout) (b : Body) : b.Image layout.debug (b.readBack layout) where
  flags := rfl
  args := rfl
  maxSlot := rfl
  debug := rfl
  code := rfl
  upvalues := rfl
  numbers := rfl
  constants := Constant.standsFor_countDown b.constants
  indices := Constant.childIndices_countDown b.constants

end Body

/-! ## Trees -/

namespace Prototype

/-- One tree is the image of another: at every prototype the bodies are, each child is
named once, and the child that the constant number `j` of `n` child constants named has
become the child number `n - 1 - j`. -/
inductive Image (debug : Bool) : Prototype → Prototype → Prop
  | node {b b' : Body} {parent parent' : Option Path} {children children' : List Prototype}
      (body : b.Image debug b') (named : b.childIndices.Perm (List.range children.length))
      (length : children'.length = children.length)
      (below : ∀ (j index : Nat) (c c' : Prototype), b.childIndices[j]? = some index →
        children[index]? = some c → children'[b.childIndices.length - 1 - j]? = some c' →
        Image debug c c') :
      Image debug (node b parent children) (node b' parent' children')

theorem getElem?_select {α : Type} {children : List α} {indices : List Nat}
    (h : ∀ index ∈ indices, index < children.length) (j : Nat) :
    (select children indices)[j]? = indices[j]?.bind (children[·]?) := by
  unfold select
  induction indices generalizing j with
  | nil => rfl
  | cons index indices ih =>
    have hsome := List.getElem?_eq_getElem (h index List.mem_cons_self)
    rw [List.filterMap_cons_some hsome]
    cases j with
    | zero => exact hsome.symm
    | succ j =>
      rw [List.getElem?_cons_succ, List.getElem?_cons_succ]
      exact ih (fun k hk => h k (List.mem_cons_of_mem index hk)) j

/-- What reading makes of a tree, with its parents noted, is the image of the tree. -/
theorem image_readBack {p : Prototype} (h : p.Complete) (layout : Layout) (parent : Option Path)
    (path : Path) : p.Image layout.debug ((p.readBack layout).link parent path) := by
  induction h generalizing parent path with
  | node b old children named below ih =>
    have hrange : ∀ index ∈ b.childIndices, index < children.length := by
      intro index hindex
      exact List.mem_range.1 (named.mem_iff.1 hindex)
    have hlength := length_select named
    rw [readBack_node, link_node]
    refine .node (b.image_readBack layout) named ?_ ?_
    · rw [length_linkList, List.length_reverse, List.length_map, hlength, named.length_eq,
        List.length_range]
    · intro j index c c' hj hc hc'
      have hlt : j < b.childIndices.length := by
        by_contra hge
        rw [List.getElem?_eq_none (Nat.not_lt.1 hge)] at hj
        cases hj
      rw [getElem?_linkList] at hc'
      obtain ⟨d, hd, rfl⟩ := Option.map_eq_some_iff.1 hc'
      have hback : b.childIndices.length - 1 - (b.childIndices.length - 1 - j) = j := by omega
      rw [List.getElem?_reverse (by rw [List.length_map, hlength]; omega), List.length_map, hlength,
        hback, List.getElem?_map, getElem?_select hrange, hj, Option.bind_some, hc,
        Option.map_some] at hd
      cases hd
      exact ih c (List.mem_of_getElem? hc) _ _

end Prototype

/-! ## Scripts -/

namespace Script

/-- Nothing is lost of a body that fits, if no operand hides another, instructions have
no value in a field that they do not declare, and no key of a table stands twice. -/
theorem stable_of_fits {table : OpcodeTable} {layout : Layout} {b : Body} (hT : table.Disjoint)
    (h : b.RecordFits table layout) (hcode : ∀ i ∈ b.code, i.Clean)
    (hconstants : ∀ k ∈ b.constants, k.Keyed) : b.Stable table where
  code := fun i hi => Instruction.ofWord_toWord hT (h.1.code i hi) (hcode i hi)
  constants := hconstants

/-- Decoding undoes encoding. For a table that never declares D together with B or C, and
a script whose instructions have no value in a field that they do not declare and whose
tables have no key twice, the dump decodes to the image of the script, with the parents
noted. -/
theorem decoding_undoes_encoding {table : OpcodeTable} {s : Script} {bytes : Bytes}
    (hT : table.Disjoint) (hcode : ∀ x ∈ s.walk, ∀ i ∈ x.2.body.code, i.Clean)
    (hconstants : ∀ x ∈ s.walk, ∀ k ∈ x.2.body.constants, k.Keyed)
    (h : encode table s = .ok bytes) :
    ∃ s', decode table bytes = .ok s' ∧ s'.version = s.version ∧ s'.flags = s.flags ∧
      s'.chunkName = (if s.hasDebug then s.chunkName else []) ∧
      s.root.Image s.hasDebug s'.root ∧ ∀ x ∈ s'.walk, x.2.parent = x.1.parent? := by
  obtain ⟨hfits, rfl⟩ := encode_eq_ok.1 h
  have hwalk := Prototype.walk_perm_postOrder hfits.root.complete .root
  have hstable : ∀ q ∈ s.root.postOrder, q.body.Stable table := by
    intro q hq
    obtain ⟨x, hx, rfl⟩ := List.mem_map.1 (hwalk.mem_iff.2 hq)
    exact stable_of_fits hT (hfits.root.records _ hq) (hcode x hx) (hconstants x hx)
  refine ⟨_, decode_written hfits hstable, rfl, rfl, rfl, ?_, ?_⟩
  · exact Prototype.image_readBack hfits.root.complete s.layout none .root
  · exact Prototype.parent_of_mem_walk_link _ .root

/-- A table in which every opcode declares A and D. -/
def pairTable : OpcodeTable where
  slots := fun _ => ⟨true, false, false, true⟩

/-- A function that makes two others, the second one first. -/
def pairScript : Script where
  root := .node
    { code := [⟨1, ⟨true, false, false, true⟩, 2, 0, 0, 3⟩]
      constants := [.child 1, .table ⟨[], [(.int32 1, .nil), (.int32 2, .nil)]⟩, .child 0] }
    none [.node { maxSlot := 1 } none [], .node { maxSlot := 2 } none []]

/-- The dump of these functions. -/
def pairDump : Bytes :=
  [0x1B, 0x4C, 0x4A, 2, 2, 7, 0, 0, 2, 0, 0, 0, 0, 7, 0, 0, 1, 0, 0, 0, 0, 22, 0, 0, 0, 0, 3, 0, 1,
    1, 2, 3, 0, 0, 1, 0, 2, 3, 1, 0, 3, 2, 0, 0, 0]

theorem pairScript_comes_back : encode pairTable pairScript = .ok pairDump ∧
    ∃ s', decode pairTable pairDump = .ok s' ∧ pairScript.root.Image false s'.root := by
  have hencode : encode pairTable pairScript = .ok pairDump := by decide +kernel
  have hT : pairTable.Disjoint := fun _ _ => ⟨rfl, rfl⟩
  have hcode : ∀ x ∈ pairScript.walk, ∀ i ∈ x.2.body.code, i.Clean := by decide +kernel
  have hconstants : ∀ x ∈ pairScript.walk, ∀ k ∈ x.2.body.constants, k.Keyed := by decide +kernel
  obtain ⟨s', hdecode, -, -, -, himage, -⟩ := decoding_undoes_encoding hT hcode hconstants hencode
  exact ⟨hencode, s', hdecode, himage⟩

end Script

end BytecodeDump
