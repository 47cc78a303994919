-- Where the parts of a tree stand in its form. The form of a subtree is one stretch of
-- the form of the whole tree, and a change of the subtree changes this stretch alone.
-- The records of two prototypes do not overlap.
import BytecodeDump.Proofs.Tree

namespace BytecodeDump

namespace Prototype

variable {table : OpcodeTable} {layout : Layout}

/-! ## Siblings -/

/-- How many bytes the children take that the first `count` indices name. -/
def room (layout : Layout) (children : List Prototype) (indices : List Nat) (count : Nat) : Nat :=
  ((select children (indices.take count)).flatMap (written layout)).length

theorem select_append {α : Type} (children : List α) (indices others : List Nat) :
    select children (indices ++ others) = select children indices ++ select children others :=
  List.filterMap_append

theorem select_modify {α : Type} {children : List α} {indices : List Nat} {index : Nat}
    (f : α → α) (h : index ∉ indices) :
    select (children.modify index f) indices = select children indices := by
  refine List.filterMap_congr fun k hk => ?_
  have hne : index ≠ k := by
    rintro rfl
    exact h hk
  exact List.getElem?_modify_ne f _ hne

section Siblings

variable {children : List Prototype} {indices : List Nat}

theorem room_mono {count count' : Nat} (h : count ≤ count') :
    room layout children indices count ≤ room layout children indices count' := by
  have hsplit := List.take_append_drop count (indices.take count')
  rw [List.take_take, Nat.min_eq_left h] at hsplit
  unfold room
  rw [← hsplit, select_append, List.flatMap_append, List.length_append]
  exact Nat.le_add_right _ _

theorem room_succ {index : Nat} {c : Prototype} (h : index ∈ indices)
    (hc : children[index]? = some c) :
    room layout children indices (indices.idxOf index + 1) =
      room layout children indices (indices.idxOf index) + (c.written layout).length := by
  have hselect : select children [index] = [c] := by simp [select, hc]
  unfold room
  rw [List.take_add_one, List.getElem?_idxOf h, Option.toList_some, select_append, hselect,
    List.flatMap_append, List.flatMap_singleton, List.length_append]

/-- A child ends where the children end, or before. -/
theorem room_add_le (layout : Layout) {index : Nat} {c : Prototype} (h : index ∈ indices)
    (hc : children[index]? = some c) :
    room layout children indices (indices.idxOf index) + (c.written layout).length ≤
      ((select children indices).flatMap (written layout)).length := by
  have hall : room layout children indices indices.length =
      ((select children indices).flatMap (written layout)).length := by
    rw [room, List.take_length]
  rw [← room_succ h hc, ← hall]
  exact room_mono (List.idxOf_lt_length_iff.2 h)

/-- Of two children one ends before the other starts. -/
theorem siblings_apart (layout : Layout) {i j : Nat} {c d : Prototype} (hi : i ∈ indices)
    (hj : j ∈ indices) (hc : children[i]? = some c) (hd : children[j]? = some d) (hne : i ≠ j) :
    room layout children indices (indices.idxOf i) + (c.written layout).length ≤
        room layout children indices (indices.idxOf j) ∨
      room layout children indices (indices.idxOf j) + (d.written layout).length ≤
        room layout children indices (indices.idxOf i) := by
  have hidx : indices.idxOf i ≠ indices.idxOf j := fun h => hne ((List.idxOf_inj hi).1 h)
  rcases Nat.lt_or_gt_of_ne hidx with hlt | hlt
  · rw [← room_succ hi hc]
    exact .inl (room_mono hlt)
  · rw [← room_succ hj hd]
    exact .inr (room_mono hlt)

end Siblings

/-! ## Subtrees -/

/-- Where the form of the tree below a path starts in the form of the whole tree. -/
def start (layout : Layout) : List Nat → Prototype → Nat
  | [], _ => 0
  | index :: rest, node body _ children =>
    room layout children body.childIndices (body.childIndices.idxOf index)
      + children[index]?.elim 0 (start layout rest)

theorem start_cons {body : Body} {parent : Option Path} {children : List Prototype}
    {index : Nat} {c : Prototype} (hc : children[index]? = some c) (rest : List Nat) :
    (node body parent children).start layout (index :: rest) =
      room layout children body.childIndices (body.childIndices.idxOf index) +
        c.start layout rest := by
  rw [start, hc, Option.elim_some]

/-- The indices around one of them, where no other is the same. -/
theorem split_indices {indices : List Nat} {index : Nat} (h : index ∈ indices)
    (hnodup : indices.Nodup) :
    ∃ later, indices = indices.take (indices.idxOf index) ++ index :: later ∧
      index ∉ indices.take (indices.idxOf index) ∧ index ∉ later := by
  obtain ⟨earlier, later, hindices⟩ := List.append_of_mem h
  rw [hindices] at hnodup
  obtain ⟨-, hlater, hapart⟩ := List.nodup_append.1 hnodup
  have hnot : index ∉ earlier := fun hmem => hapart index hmem index List.mem_cons_self rfl
  have htake : indices.take (indices.idxOf index) = earlier := by
    rw [hindices, List.idxOf_append_of_notMem hnot, List.idxOf_cons_self, Nat.add_zero,
      List.take_left]
  refine ⟨later, ?_, ?_, (List.nodup_cons.1 hlater).1⟩
  · rw [htake]
    exact hindices
  · rw [htake]
    exact hnot

/-- The form of a tree is that of the subtree at a path between bytes in which the
subtree has no part. -/
theorem written_split (layout : Layout) {path : List Nat} {p q : Prototype} (hp : p.Complete)
    (hat : p.at? path = some q) :
    ∃ before after, before.length = p.start layout path ∧
      p.written layout = before ++ q.written layout ++ after ∧
      ∀ f, (p.modifyAt f path).written layout = before ++ (f q).written layout ++ after := by
  induction path generalizing p with
  | nil =>
    cases hat
    refine ⟨[], [], rfl, ?_, fun f => ?_⟩
    · rw [List.nil_append, List.append_nil]
    · rw [List.nil_append, List.append_nil]
      rfl
  | cons index rest ih =>
    obtain ⟨b, parent, children, named, below⟩ := hp
    obtain ⟨c, (hc : children[index]? = some c), hat⟩ := Option.bind_eq_some_iff.1 hat
    obtain ⟨before, after, hbefore, hwritten, hmodified⟩ :=
      ih (below c (List.mem_of_getElem? hc)) hat
    have hmem : index ∈ b.childIndices :=
      named.mem_iff.2 (List.mem_range.2 (List.getElem?_eq_some_iff.1 hc).1)
    obtain ⟨later, hindices, hearlier, hlater⟩ :=
      split_indices hmem (named.nodup_iff.2 List.nodup_range)
    -- the form of the children, with any child `d` in the place of `c`
    have hforms : ∀ (cs : List Prototype) (d : Prototype), cs[index]? = some d →
        (select cs b.childIndices).flatMap (written layout) =
          (select cs (b.childIndices.take (b.childIndices.idxOf index))).flatMap (written layout) ++
            (d.written layout ++ (select cs later).flatMap (written layout)) := by
      intro cs d hd
      have hselect : select cs (index :: later) = d :: select cs later := by
        simp [select, hd]
      conv_lhs => rw [hindices]
      rw [select_append, hselect, List.flatMap_append, List.flatMap_cons]
    refine ⟨(select children (b.childIndices.take (b.childIndices.idxOf index))).flatMap
        (written layout) ++ before,
      after ++ ((select children later).flatMap (written layout) ++ b.record layout), ?_, ?_, ?_⟩
    · rw [List.length_append, hbefore, start_cons hc]
      rfl
    · rw [written_node, hforms children c hc, hwritten]
      simp only [List.append_assoc]
    · intro f
      have hd : (children.modify index (modifyAt f rest))[index]? = some (modifyAt f rest c) := by
        rw [List.getElem?_modify_eq, hc, Option.map_eq_map, Option.map_some]
      rw [modifyAt, written_node, hforms _ _ hd, select_modify _ hearlier, select_modify _ hlater,
        hmodified]
      simp only [List.append_assoc]

theorem Fits.at? {path : List Nat} {p q : Prototype} (h : p.Fits table layout)
    (hat : p.at? path = some q) : q.Fits table layout := by
  induction path generalizing p with
  | nil =>
    cases hat
    exact h
  | cons index rest ih =>
    obtain ⟨b, parent, children⟩ := p
    obtain ⟨c, (hc : children[index]? = some c), hat⟩ := Option.bind_eq_some_iff.1 hat
    exact ih ((fits_node.1 h).2.1 c (List.mem_of_getElem? hc)) hat

/-- A tree still fits after a change of a subtree that still fits. -/
theorem Fits.modifyAt {f : Prototype → Prototype} {path : List Nat} {p q : Prototype}
    (h : p.Fits table layout) (hat : p.at? path = some q) (hf : (f q).Fits table layout) :
    (p.modifyAt f path).Fits table layout := by
  induction path generalizing p with
  | nil =>
    cases hat
    exact hf
  | cons index rest ih =>
    obtain ⟨b, parent, children⟩ := p
    obtain ⟨named, below, hrecord⟩ := fits_node.1 h
    obtain ⟨c, (hc : children[index]? = some c), hat⟩ := Option.bind_eq_some_iff.1 hat
    refine fits_node.2 ⟨?_, ?_, hrecord⟩
    · rw [List.length_modify]
      exact named
    · intro d hd
      obtain ⟨k, hk⟩ := List.mem_iff_getElem?.1 hd
      rw [List.getElem?_modify] at hk
      obtain ⟨e, he, rfl⟩ := Option.map_eq_some_iff.1 hk
      split
      · rename_i hindex
        rw [← hindex, hc] at he
        cases he
        exact ih (below c (List.mem_of_getElem? hc)) hat
      · exact below e (List.mem_of_getElem? he)

/-! ## Records -/

/-- How many bytes the records below a prototype take, its own aside. -/
def sizeBelow (layout : Layout) (p : Prototype) : Nat :=
  ((select p.children p.body.childIndices).flatMap (written layout)).length

/-- Where the record of the prototype `q` at a path starts in the form of the tree. -/
def recordStart (layout : Layout) (p q : Prototype) (path : List Nat) : Nat :=
  p.start layout path + q.sizeBelow layout

theorem length_written (p : Prototype) :
    (p.written layout).length = p.sizeBelow layout + (p.body.record layout).length := by
  obtain ⟨b, parent, children⟩ := p
  rw [written_node, List.length_append]
  rfl

theorem recordStart_add_le (layout : Layout) {path : List Nat} {p q : Prototype} (hp : p.Complete)
    (hat : p.at? path = some q) :
    p.recordStart layout q path + (q.body.record layout).length ≤ (p.written layout).length := by
  obtain ⟨before, after, hbefore, hwritten, -⟩ := written_split layout hp hat
  rw [recordStart, hwritten, List.length_append, List.length_append, hbefore, length_written]
  omega

/-- The record of a prototype below the root of a tree ends before that of the root. -/
theorem recordStart_add_le_sizeBelow {index : Nat} {rest : List Nat} {p q : Prototype}
    (hp : p.Complete) (hat : p.at? (index :: rest) = some q) :
    p.recordStart layout q (index :: rest) + (q.body.record layout).length ≤
      p.sizeBelow layout := by
  obtain ⟨b, parent, children, named, hbelow⟩ := hp
  obtain ⟨c, (hc : children[index]? = some c), hat⟩ := Option.bind_eq_some_iff.1 hat
  have hmem : index ∈ b.childIndices :=
    named.mem_iff.2 (List.mem_range.2 (List.getElem?_eq_some_iff.1 hc).1)
  have hchild := room_add_le layout hmem hc
  have hin := recordStart_add_le layout (hbelow c (List.mem_of_getElem? hc)) hat
  rw [recordStart, start_cons hc]
  rw [recordStart] at hin
  have hall : (node b parent children).sizeBelow layout =
      ((select children b.childIndices).flatMap (written layout)).length := rfl
  omega

/-- Of the records of two prototypes one ends before the other starts. -/
theorem records_apart (layout : Layout) {path path' : List Nat} {p q q' : Prototype}
    (hp : p.Complete) (hat : p.at? path = some q) (hat' : p.at? path' = some q') (hne : path ≠ path') :
    p.recordStart layout q path + (q.body.record layout).length ≤ p.recordStart layout q' path' ∨
      p.recordStart layout q' path' + (q'.body.record layout).length ≤
        p.recordStart layout q path := by
  induction path generalizing p path' with
  | nil =>
    cases hat
    cases path' with
    | nil => exact absurd rfl hne
    | cons j rest' =>
      refine .inr ((recordStart_add_le_sizeBelow hp hat').trans ?_)
      exact Nat.le_add_left _ _
  | cons i rest ih =>
    cases path' with
    | nil =>
      cases hat'
      refine .inl ((recordStart_add_le_sizeBelow hp hat).trans ?_)
      exact Nat.le_add_left _ _
    | cons j rest' =>
      obtain ⟨b, parent, children, named, hbelow⟩ := hp
      obtain ⟨c, (hc : children[i]? = some c), hat⟩ := Option.bind_eq_some_iff.1 hat
      obtain ⟨d, (hd : children[j]? = some d), hat'⟩ := Option.bind_eq_some_iff.1 hat'
      have hcomplete := hbelow c (List.mem_of_getElem? hc)
      simp only [recordStart, start_cons hc, start_cons hd]
      by_cases hij : i = j
      · subst hij
        rw [hc] at hd
        cases hd
        have hrest : rest ≠ rest' := fun h => hne (by rw [h])
        have happart := ih hcomplete hat hat' hrest
        simp only [recordStart] at happart
        omega
      · have hmem : ∀ {k : Nat} {e : Prototype}, children[k]? = some e → k ∈ b.childIndices :=
          fun hk => named.mem_iff.2 (List.mem_range.2 (List.getElem?_eq_some_iff.1 hk).1)
        have happart := siblings_apart layout (hmem hc) (hmem hd) hc hd hij
        have hin := recordStart_add_le layout hcomplete hat
        have hin' := recordStart_add_le layout
          (hbelow d (List.mem_of_getElem? hd)) hat'
        simp only [recordStart] at hin hin'
        omega

end Prototype

end BytecodeDump
