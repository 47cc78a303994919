-- The laws of trees of prototypes. The records of a tree stand in the order that
-- `postOrder` gives: the children that the constants name, in the order of the
-- constants, and then the prototype itself.
import BytecodeDump.Proofs.Record

namespace BytecodeDump

namespace Prototype

/-- A claim about every tree, from the claim about the children of a prototype. -/
theorem induct {motive : Prototype → Prop}
    (node : ∀ body parent children, (∀ c ∈ children, motive c) →
      motive (.node body parent children)) : ∀ p, motive p := by
  intro p
  refine Prototype.rec (motive_1 := motive) (motive_2 := fun cs => ∀ c ∈ cs, motive c)
    node ?_ ?_ p
  · intro c hc
    cases hc
  · intro c cs hc hcs d hd
    rcases List.mem_cons.1 hd with rfl | hd
    · exact hc
    · exact hcs d hd

/-! ## The order of the records -/

/-- The children that some indices stand for, in their order. -/
def select {α : Type} (children : List α) (indices : List Nat) : List α :=
  indices.filterMap (children[·]?)

mutual

/-- The prototypes of the tree: below each, the children that its constants name, in
the order of the constants, and after them the prototype. -/
def postOrder : Prototype → List Prototype
  | node body parent children =>
    (select (postOrderList children) body.childIndices).flatten ++ [node body parent children]

/-- The prototypes of each child. -/
def postOrderList : List Prototype → List (List Prototype)
  | [] => []
  | p :: ps => postOrder p :: postOrderList ps

end

theorem select_map {α β : Type} (g : α → β) (children : List α) (indices : List Nat) :
    select (children.map g) indices = (select children indices).map g := by
  unfold select
  simp only [List.getElem?_map, List.map_filterMap]

theorem mem_of_mem_select {α : Type} {children : List α} {indices : List Nat} {c : α}
    (h : c ∈ select children indices) : c ∈ children := by
  obtain ⟨index, -, hindex⟩ := List.mem_filterMap.1 h
  exact List.mem_of_getElem? hindex

theorem select_range {α : Type} (children : List α) :
    select children (List.range children.length) = children := by
  unfold select
  induction children using List.reverseRecOn with
  | nil => rfl
  | append_singleton cs c ih =>
    have hsame : ∀ index ∈ List.range cs.length, (cs ++ [c])[index]? = cs[index]? := by
      intro index hindex
      exact List.getElem?_append_left (List.mem_range.1 hindex)
    rw [List.length_append, List.length_singleton, List.range_succ, List.filterMap_append,
      List.filterMap_congr hsame, ih]
    simp

theorem select_reverse {α : Type} (children : List α) (indices : List Nat) :
    select children indices.reverse = (select children indices).reverse := by
  unfold select
  rw [List.filterMap_reverse]

theorem postOrderList_eq_map (ps : List Prototype) : postOrderList ps = ps.map postOrder := by
  induction ps with
  | nil => rfl
  | cons p ps ih => rw [postOrderList, ih, List.map_cons]

theorem postOrder_node (body : Body) (parent : Option Path) (children : List Prototype) :
    (node body parent children).postOrder =
      (select children body.childIndices).flatMap postOrder ++ [node body parent children] := by
  rw [postOrder, postOrderList_eq_map, select_map, List.flatMap_def]

/-! ## Trees that name each child once -/

/-- At every prototype of the tree the constants name each child once, and no other. -/
inductive Complete : Prototype → Prop
  | node (body : Body) (parent : Option Path) (children : List Prototype)
      (named : body.childIndices.Perm (List.range children.length))
      (below : ∀ c ∈ children, Complete c) : Complete (node body parent children)

theorem select_perm {α : Type} {children : List α} {indices : List Nat}
    (h : indices.Perm (List.range children.length)) : (select children indices).Perm children := by
  have hperm : (select children indices).Perm (select children (List.range children.length)) :=
    h.filterMap _
  rw [select_range] at hperm
  exact hperm

theorem walkList_perm {ps : List Prototype} (path : Path) (index : Nat)
    (h : ∀ p ∈ ps, ∀ path : Path, ((p.walk path).map (·.2)).Perm p.postOrder) :
    ((walkList path index ps).map (·.2)).Perm (ps.flatMap postOrder) := by
  induction ps generalizing index with
  | nil => rfl
  | cons p ps ih =>
    rw [walkList, List.map_append, List.flatMap_cons]
    exact (h p List.mem_cons_self _).append (ih _ fun q hq => h q (List.mem_cons_of_mem p hq))

/-- A walk and the order of the records go through the same prototypes. -/
theorem walk_perm_postOrder {p : Prototype} (h : p.Complete) (path : Path) :
    ((p.walk path).map (·.2)).Perm p.postOrder := by
  induction h generalizing path with
  | node body parent children named below ih =>
    rw [walk, postOrder_node, List.map_cons]
    have hbelow := walkList_perm path 0 ih
    have hselect := (select_perm named).flatMap_right postOrder
    exact ((hbelow.trans hselect.symm).cons _).trans (List.perm_append_singleton _ _).symm

/-! ## Parents -/

theorem link_node (parent : Option Path) (path : Path) (body : Body) (old : Option Path)
    (children : List Prototype) :
    (node body old children).link parent path = node body parent (linkList path 0 children) := by
  rw [link]

theorem length_linkList (path : Path) (index : Nat) (ps : List Prototype) :
    (linkList path index ps).length = ps.length := by
  induction ps generalizing index with
  | nil => rfl
  | cons p ps ih => rw [linkList, List.length_cons, ih, List.length_cons]

theorem getElem?_linkList (path : Path) (index : Nat) (ps : List Prototype) (k : Nat) :
    (linkList path index ps)[k]? =
      ps[k]?.map fun p => p.link (some path) (path.child (index + k)) := by
  induction ps generalizing index k with
  | nil => rfl
  | cons p ps ih =>
    cases k with
    | zero => rfl
    | succ k =>
      rw [linkList, List.getElem?_cons_succ, List.getElem?_cons_succ, ih, Nat.add_right_comm,
        Nat.add_assoc]

theorem mem_linkList {path : Path} {index : Nat} {ps : List Prototype} {q : Prototype}
    (h : q ∈ linkList path index ps) :
    ∃ p ∈ ps, ∃ k, q = p.link (some path) (path.child k) := by
  obtain ⟨k, hk⟩ := List.mem_iff_getElem?.1 h
  rw [getElem?_linkList] at hk
  obtain ⟨p, hp, rfl⟩ := Option.map_eq_some_iff.1 hk
  exact ⟨p, List.mem_of_getElem? hp, _, rfl⟩

theorem Complete.link {p : Prototype} (h : p.Complete) (parent : Option Path) (path : Path) :
    (p.link parent path).Complete := by
  induction h generalizing parent path with
  | node body old children named below ih =>
    rw [link_node]
    refine Complete.node _ _ _ ?_ ?_
    · rw [length_linkList]
      exact named
    · intro c hc
      obtain ⟨d, hd, k, rfl⟩ := mem_linkList hc
      exact ih d hd _ _

/-- What does not depend on the paths of the parents is the same after linking. -/
theorem map_linkList {α : Type} {f : Prototype → α} {ps : List Prototype} (path : Path)
    (index : Nat)
    (h : ∀ p ∈ ps, ∀ parent path, f (p.link parent path) = f p) :
    (linkList path index ps).map f = ps.map f := by
  induction ps generalizing index with
  | nil => rfl
  | cons p ps ih =>
    rw [linkList, List.map_cons, List.map_cons, h p List.mem_cons_self,
      ih _ fun q hq => h q (List.mem_cons_of_mem p hq)]

theorem bodies_node (b : Body) (parent : Option Path) (children : List Prototype) :
    (node b parent children).postOrder.map body =
      (select (children.map fun c => c.postOrder.map body) b.childIndices).flatten ++ [b] := by
  rw [postOrder_node, List.map_append, List.map_flatMap, select_map, ← List.flatMap_def]
  rfl

theorem bodies_link (p : Prototype) (parent : Option Path) (path : Path) :
    (p.link parent path).postOrder.map body = p.postOrder.map body := by
  induction p using induct generalizing parent path with
  | node b old children ih => rw [link_node, bodies_node, bodies_node, map_linkList path 0 ih]

theorem mem_walkList {path : Path} {index : Nat} {ps : List Prototype} {x : Path × Prototype}
    (h : x ∈ walkList path index ps) :
    ∃ (k : Nat) (p : Prototype), ps[k]? = some p ∧ x ∈ p.walk (path.child (index + k)) := by
  induction ps generalizing index with
  | nil => cases h
  | cons p ps ih =>
    rcases List.mem_append.1 h with h | h
    · exact ⟨0, p, rfl, h⟩
    · obtain ⟨k, q, hq, hx⟩ := ih h
      refine ⟨k + 1, q, hq, ?_⟩
      rw [Nat.add_comm k 1, ← Nat.add_assoc]
      exact hx

theorem parent?_child (path : Path) (index : Nat) : (path.child index).parent? = some path := by
  unfold Path.parent? Path.child
  simp

/-- After linking from the root, each prototype has the parent of its own path. -/
theorem parent_of_mem_walk_link (p : Prototype) (path : Path) :
    ∀ x ∈ (p.link path.parent? path).walk path, x.2.parent = x.1.parent? := by
  induction p using induct generalizing path with
  | node b old children ih =>
    rw [link_node, walk]
    intro x hx
    rcases List.mem_cons.1 hx with rfl | hx
    · rfl
    · obtain ⟨k, q, hq, hx⟩ := mem_walkList hx
      rw [getElem?_linkList, Nat.zero_add] at hq
      obtain ⟨c, hc, rfl⟩ := Option.map_eq_some_iff.1 hq
      rw [Nat.zero_add, ← parent?_child path k] at hx
      exact ih c (List.mem_of_getElem? hc) _ x hx

/-! ## Writing -/

section ChildOrder

variable {children : Nat} {fault : GraphCause → Except Fault (List Nat)}
  (hfault : ∀ cause order, fault cause ≠ .ok order)

include hfault

theorem childOrder_go_nil {seen order : List Nat} :
    childOrder.go children fault seen [] = .ok order ↔
      (∀ k < children, k ∈ seen) ∧ order = [] := by
  unfold childOrder.go
  cases hfind : (List.range children).find? (!seen.contains ·) with
  | some index =>
    have hindex := List.mem_range.1 (List.mem_of_find?_eq_some hfind)
    have hunseen := List.find?_some hfind
    simp only [Bool.not_eq_true', List.contains_eq_mem, decide_eq_false_iff_not] at hunseen
    refine ⟨fun h => absurd h (hfault _ _), ?_⟩
    rintro ⟨hall, -⟩
    exact absurd (hall index hindex) hunseen
  | none =>
    have hseen : ∀ k < children, k ∈ seen := by simpa using hfind
    simp only [Except.ok.injEq]
    refine ⟨?_, ?_⟩
    · rintro rfl
      exact ⟨hseen, rfl⟩
    · rintro ⟨-, rfl⟩
      rfl

theorem childOrder_go_cons {index : Nat} {seen rest order : List Nat} :
    childOrder.go children fault seen (index :: rest) = .ok order ↔
      (index < children ∧ index ∉ seen) ∧
        ∃ tail, childOrder.go children fault (index :: seen) rest = .ok tail ∧
          order = index :: tail := by
  rw [childOrder.go]
  by_cases hmissing : children ≤ index
  · rw [if_pos hmissing]
    refine ⟨fun h => absurd h (hfault _ _), ?_⟩
    rintro ⟨⟨hlt, -⟩, -⟩
    omega
  · rw [if_neg hmissing]
    by_cases htwice : index ∈ seen
    · rw [if_pos (by simpa using htwice)]
      refine ⟨fun h => absurd h (hfault _ _), ?_⟩
      rintro ⟨⟨-, hunseen⟩, -⟩
      exact absurd htwice hunseen
    · rw [if_neg (by simpa using htwice)]
      simp only [Output.andThen_eq_ok, Output.pure_eq_ok]
      exact ⟨fun h => ⟨⟨Nat.not_le.1 hmissing, htwice⟩, h⟩, fun h => h.2⟩

theorem childOrder_go_eq_ok {seen indices order : List Nat} :
    childOrder.go children fault seen indices = .ok order ↔
      order = indices ∧ indices.Nodup ∧ (∀ k ∈ indices, k < children ∧ k ∉ seen) ∧
        ∀ k < children, k ∈ seen ∨ k ∈ indices := by
  induction indices generalizing seen order with
  | nil =>
    rw [childOrder_go_nil hfault]
    simp only [List.nodup_nil, List.not_mem_nil, false_implies, implies_true, or_false, true_and]
    exact and_comm
  | cons index rest ih =>
    simp only [childOrder_go_cons hfault, ih, List.nodup_cons, List.mem_cons, not_or]
    refine ⟨?_, ?_⟩
    · rintro ⟨hindex, _, ⟨rfl, hnodup, hrange, hall⟩, rfl⟩
      refine ⟨rfl, ⟨?_, hnodup⟩, ?_, ?_⟩
      · intro hmem
        exact (hrange index hmem).2.1 rfl
      · rintro k (rfl | hk)
        · exact hindex
        · exact ⟨(hrange k hk).1, (hrange k hk).2.2⟩
      · intro k hk
        rcases hall k hk with (rfl | hk) | hk <;> simp [*]
    · rintro ⟨rfl, ⟨hnotin, hnodup⟩, hrange, hall⟩
      refine ⟨hrange index (.inl rfl), rest, ⟨rfl, hnodup, ?_, ?_⟩, rfl⟩
      · intro k hk
        refine ⟨(hrange k (.inr hk)).1, ?_, (hrange k (.inr hk)).2⟩
        rintro rfl
        exact hnotin hk
      · intro k hk
        rcases hall k hk with hk | rfl | hk <;> simp [*]

end ChildOrder

/-- The order of the children is that of the constants, if these name each child once. -/
theorem childOrder_eq_ok {path : Path} {body : Body} {children : Nat} {order : List Nat} :
    childOrder path body children = .ok order ↔
      body.childIndices.Perm (List.range children) ∧ order = body.childIndices := by
  unfold childOrder
  rw [childOrder_go_eq_ok (by intro cause order h; cases h)]
  simp only [List.not_mem_nil, not_false_eq_true, and_true, false_or]
  refine ⟨?_, ?_⟩
  · rintro ⟨rfl, hnodup, hrange, hall⟩
    refine ⟨?_, rfl⟩
    rw [List.perm_ext_iff_of_nodup hnodup List.nodup_range]
    intro k
    rw [List.mem_range]
    exact ⟨hrange k, hall k⟩
  · rintro ⟨hperm, rfl⟩
    refine ⟨rfl, hperm.nodup_iff.2 List.nodup_range, ?_, ?_⟩
    · intro k hk
      exact List.mem_range.1 (hperm.mem_iff.1 hk)
    · intro k hk
      exact hperm.mem_iff.2 (List.mem_range.2 hk)

theorem getElem?_writeList (table : OpcodeTable) (layout : Layout) (path : Path) (index : Nat)
    (ps : List Prototype) (k : Nat) :
    (writeList table layout path index ps)[k]? =
      ps[k]?.map fun p => p.write table layout (path.child (index + k)) := by
  induction ps generalizing index k with
  | nil => rfl
  | cons p ps ih =>
    cases k with
    | zero => rfl
    | succ k =>
      rw [writeList, List.getElem?_cons_succ, List.getElem?_cons_succ, ih, Nat.add_right_comm,
        Nat.add_assoc]

/-- The form of a tree: the record of each prototype. -/
def written (layout : Layout) (p : Prototype) : Bytes :=
  p.postOrder.flatMap fun q => q.body.record layout

/-- The constants name each child once, and every record fits. -/
structure Fits (table : OpcodeTable) (layout : Layout) (p : Prototype) : Prop where
  complete : p.Complete
  records : ∀ q ∈ p.postOrder, q.body.RecordFits table layout

theorem fits_node {table : OpcodeTable} {layout : Layout} {body : Body} {parent : Option Path}
    {children : List Prototype} :
    (node body parent children).Fits table layout ↔
      body.childIndices.Perm (List.range children.length) ∧
        (∀ c ∈ children, c.Fits table layout) ∧ body.RecordFits table layout := by
  refine ⟨?_, ?_⟩
  · rintro ⟨⟨_, _, _, named, below⟩, hrecords⟩
    rw [postOrder_node] at hrecords
    refine ⟨named, ?_, hrecords _ (List.mem_append_right _ (List.mem_singleton_self _))⟩
    intro c hc
    refine ⟨below c hc, fun q hq => hrecords q (List.mem_append_left _ ?_)⟩
    exact List.mem_flatMap.2 ⟨c, (select_perm named).mem_iff.2 hc, hq⟩
  · rintro ⟨named, hbelow, hbody⟩
    refine ⟨.node _ _ _ named fun c hc => (hbelow c hc).complete, ?_⟩
    rw [postOrder_node]
    intro q hq
    rcases List.mem_append.1 hq with hq | hq
    · obtain ⟨c, hc, hq⟩ := List.mem_flatMap.1 hq
      exact (hbelow c (mem_of_mem_select hc)).records q hq
    · rw [List.mem_singleton.1 hq]
      exact hbody

theorem written_node (layout : Layout) (body : Body) (parent : Option Path)
    (children : List Prototype) :
    (node body parent children).written layout =
      (select children body.childIndices).flatMap (written layout) ++ body.record layout := by
  unfold written
  rw [postOrder_node, List.flatMap_append, List.flatMap_assoc, List.flatMap_singleton]
  rfl

theorem flatMap_select {α β : Type} (children : List α) (indices : List Nat) (f : α → List β) :
    (select children indices).flatMap f = indices.flatMap fun k => children[k]?.elim [] f := by
  unfold select
  induction indices with
  | nil => rfl
  | cons k ks ih =>
    rw [List.filterMap_cons, List.flatMap_cons]
    cases children[k]? with
    | none => exact ih
    | some c =>
      rw [List.flatMap_cons, ih]
      rfl

/-- A tree is written just when it fits, and the path plays no part in it. -/
theorem write_eq_ok {table : OpcodeTable} {layout : Layout} {p : Prototype} {path : Path}
    {out : Bytes} :
    p.write table layout path = .ok out ↔ p.Fits table layout ∧ out = p.written layout := by
  induction p using induct generalizing path out with
  | node body parent children ih =>
    unfold write
    simp only [Output.andThen_eq_ok, childOrder_eq_ok, Body.writeRecord_eq_ok, Output.pure_eq_ok]
    have hstep (named : body.childIndices.Perm (List.range children.length)) (k : Nat)
        (hk : k ∈ body.childIndices) (piece : Bytes) :
        (writeList table layout path 0 children).getD k (.ok []) = .ok piece ↔
          (∀ c, children[k]? = some c → c.Fits table layout) ∧
            piece = children[k]?.elim [] (written layout) := by
      have hlt : k < children.length := List.mem_range.1 (named.mem_iff.1 hk)
      rw [List.getD_eq_getElem?_getD, getElem?_writeList, List.getElem?_eq_getElem hlt]
      simp only [Option.map_some, Option.getD_some, Option.some.injEq, forall_eq', Option.elim_some]
      exact ih _ (List.getElem_mem hlt)
    have hall (named : body.childIndices.Perm (List.range children.length)) :
        (∀ k ∈ body.childIndices, ∀ c, children[k]? = some c → c.Fits table layout) ↔
          ∀ c ∈ children, c.Fits table layout := by
      refine ⟨?_, ?_⟩
      · intro h c hc
        obtain ⟨k, hk⟩ := List.mem_iff_getElem?.1 hc
        have hlt : k < children.length := by
          by_contra hge
          rw [List.getElem?_eq_none (Nat.not_lt.1 hge)] at hk
          cases hk
        exact h k (named.mem_iff.2 (List.mem_range.2 hlt)) c hk
      · intro h k _ c hc
        exact h c (List.mem_of_getElem? hc)
    rw [fits_node, written_node, flatMap_select]
    refine ⟨?_, ?_⟩
    · rintro ⟨_, ⟨named, rfl⟩, below, hbelow, _, ⟨hbody, rfl⟩, rfl⟩
      obtain ⟨hchildren, rfl⟩ := (Output.each_eq_ok (hstep named) _).1 hbelow
      exact ⟨⟨named, (hall named).1 hchildren, hbody⟩, rfl⟩
    · rintro ⟨⟨named, hchildren, hbody⟩, rfl⟩
      exact ⟨_, ⟨named, rfl⟩, _, (Output.each_eq_ok (hstep named) _).2
        ⟨(hall named).2 hchildren, rfl⟩, _, ⟨hbody, rfl⟩, rfl⟩

end Prototype

end BytecodeDump
