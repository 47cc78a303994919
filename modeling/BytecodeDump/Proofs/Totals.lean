-- What is counted over a whole tree, as a sum over its prototypes, and how deep the tree is.
-- Neither depends on the order of the children, so neither changes when a dump reverses them.
-- In a tree that is written, the child constants and the prototypes below the root go together
-- one to one.
import BytecodeDump.Proofs.Bodies
import BytecodeDump.Proofs.Walk
import BytecodeDump.Proofs.Weight

namespace BytecodeDump

namespace Prototype

/-! ## Sums and heights -/

mutual

/-- What is found for a prototype from its body and from what is found for its children, in
whatever order these stand. -/
def fold {α : Type} (found : Body → Multiset α → α) : Prototype → α
  | node b _ children => found b (foldList found children)

/-- What is found for each child. -/
def foldList {α : Type} (found : Body → Multiset α → α) : List Prototype → List α
  | [] => []
  | p :: ps => fold found p :: foldList found ps

end

/-- The sum of an amount over the prototypes of the tree. -/
def sum (amount : Body → Nat) : Prototype → Nat := fold fun b below => amount b + below.sum

/-- How deep the tree is: the root alone has height zero. -/
def height : Prototype → Nat := fold fun _ below => (below.map (· + 1)).fold max 0

variable {b : Body} {parent : Option Path} {children : List Prototype} {p : Prototype}

theorem foldList_eq_map {α : Type} (found : Body → Multiset α → α) (ps : List Prototype) :
    foldList found ps = ps.map (fold found) := by
  induction ps with
  | nil => rfl
  | cons p ps ih => rw [foldList, ih, List.map_cons]

theorem fold_node {α : Type} (found : Body → Multiset α → α) (b : Body) (parent : Option Path)
    (children : List Prototype) :
    (node b parent children).fold found = found b (children.map (fold found)) := by
  rw [fold, foldList_eq_map]

theorem sum_node (amount : Body → Nat) :
    (node b parent children).sum amount = amount b + (children.map (sum amount)).sum := by
  rw [sum, fold_node, Multiset.sum_coe]

theorem height_node :
    (node b parent children).height = (children.map fun c => c.height + 1).foldr max 0 := by
  rw [height, fold_node, Multiset.map_coe, List.map_map, Multiset.coe_fold_r]
  rfl

/-! ### What leaves them as they are -/

section Fold

variable {α : Type} {found : Body → Multiset α → α}

theorem fold_link (p : Prototype) (parent : Option Path) (path : Path) :
    (p.link parent path).fold found = p.fold found := by
  induction p using induct generalizing parent path with
  | node b old children ih =>
    rw [link_node, fold_node, fold_node, map_linkList path 0 ih]

theorem fold_mapBodies {f : Body → Body} (hf : ∀ b, found (f b) = found b) (p : Prototype) :
    (p.mapBodies f).fold found = p.fold found := by
  induction p using induct with
  | node b parent children ih =>
    have hchildren : (children.map (mapBodies f)).map (fold found) =
        children.map (fold found) := by
      rw [List.map_map]
      exact List.map_congr_left ih
    rw [mapBodies_node, fold_node, fold_node, hf, hchildren]

/-- Reading puts the children in another order, and keeps them all. -/
theorem fold_readBack {layout : Layout} (hfound : ∀ b, found (b.readBack layout) = found b)
    (h : p.Complete) : (p.readBack layout).fold found = p.fold found := by
  induction h with
  | node b parent children named below ih =>
    have hsame : (children.map (readBack layout)).map (fold found) = children.map (fold found) := by
      rw [List.map_map]
      exact List.map_congr_left ih
    have hperm : (((select children b.childIndices).map (readBack layout)).reverse.map
        (fold found)).Perm (children.map (fold found)) := by
      rw [List.map_reverse, ← hsame]
      exact (List.reverse_perm _).trans (((select_perm named).map _).map _)
    rw [readBack_node, fold_node, fold_node, hfound, Multiset.coe_eq_coe.2 hperm]

end Fold

/-! ### Along a walk -/

theorem sum_walkList {amount : Body → Nat} {ps : List Prototype} (path : Path) (index : Nat)
    (h : ∀ p ∈ ps, ∀ path : Path,
      ((p.walk path).map fun x => amount x.2.body).sum = p.sum amount) :
    ((walkList path index ps).map fun x => amount x.2.body).sum =
      (ps.map (sum amount)).sum := by
  induction ps generalizing index with
  | nil => rfl
  | cons p ps ih =>
    rw [walkList, List.map_append, List.sum_append, h p List.mem_cons_self,
      ih _ fun q hq => h q (List.mem_cons_of_mem p hq), List.map_cons, List.sum_cons]

theorem sum_walk (amount : Body → Nat) (p : Prototype) (path : Path) :
    ((p.walk path).map fun x => amount x.2.body).sum = p.sum amount := by
  induction p using induct generalizing path with
  | node b parent children ih =>
    rw [walk, List.map_cons, List.sum_cons, sum_walkList path 0 ih, sum_node]
    rfl

theorem foldr_max_append (ms ns : List Nat) :
    (ms ++ ns).foldr max 0 = max (ms.foldr max 0) (ns.foldr max 0) := by
  induction ms with
  | nil => simp
  | cons m ms ih => simp [ih, max_assoc]

theorem depths_walkList {ps : List Prototype} (path : Path) (index : Nat)
    (h : ∀ p ∈ ps, ∀ path : Path,
      ((p.walk path).map fun x => x.1.depth).foldr max 0 = path.depth + p.height) :
    max path.depth (((walkList path index ps).map fun x => x.1.depth).foldr max 0) =
      path.depth + (ps.map fun p => p.height + 1).foldr max 0 := by
  induction ps generalizing index with
  | nil => simp [walkList]
  | cons p ps ih =>
    have hrest := ih (index + 1) fun q hq => h q (List.mem_cons_of_mem p hq)
    have hdepth : (path.child index).depth = path.depth + 1 := by simp [Path.depth, Path.child]
    rw [walkList, List.map_append, foldr_max_append, h p List.mem_cons_self, hdepth, List.map_cons,
      List.foldr_cons]
    omega

/-- The deepest prototype that a walk comes to is as deep as the tree is high. -/
theorem depths_walk (p : Prototype) (path : Path) :
    ((p.walk path).map fun x => x.1.depth).foldr max 0 = path.depth + p.height := by
  induction p using induct generalizing path with
  | node b parent children ih =>
    rw [walk, List.map_cons, List.foldr_cons, depths_walkList path 0 ih, height_node]

/-! ### Trees that are written -/

/-- Each prototype but the root has one child constant that names it. -/
theorem Complete.sum_childIndices (h : p.Complete) :
    p.sum (·.childIndices.length) + 1 = p.sum fun _ => 1 := by
  induction h with
  | node b parent children named below ih =>
    have hbelow : (children.map (sum fun _ => 1)).sum =
        (children.map (sum (·.childIndices.length))).sum + children.length := by
      calc (children.map (sum fun _ => 1)).sum
          = (children.map fun c => c.sum (·.childIndices.length) + 1).sum := by
            rw [List.map_congr_left fun c hc => (ih c hc).symm]
        _ = (children.map (sum (·.childIndices.length))).sum + children.length := by
            rw [List.sum_map_add, List.map_const', List.sum_replicate, smul_eq_mul, mul_one]
    rw [sum_node, sum_node, hbelow, named.length_eq, List.length_range]
    omega

end Prototype

/-! ## Child constants and prototypes -/

theorem Constant.childIndex?_eq_some {k : Constant} {index : Nat} :
    k.childIndex? = some index ↔ k = .child index := by
  cases k <;> simp [Constant.childIndex?]

namespace Script

variable {table : OpcodeTable} {s : Script}

theorem sum_root (amount : Body → Nat) (s : Script) : s.root.sum amount = s.total amount :=
  (Prototype.sum_walk amount s.root .root).symm

/-- The constant at a place of the prototype at a path is a child constant, and the child that
it names has this path. -/
def ChildAt (s : Script) (x : Path × Nat) (path : Path) : Prop :=
  ∃ p index, s.prototype? x.1 = some p ∧ p.body.constants[x.2]? = some (.child index) ∧
    path = x.1.child index

theorem exists_eq_child {path : Path} (h : path ≠ .root) :
    ∃ parent : Path, ∃ index, path = parent.child index := by
  obtain ⟨indices⟩ := path
  rcases List.eq_nil_or_concat indices with rfl | ⟨before, index, rfl⟩
  · exact absurd rfl h
  · exact ⟨⟨before⟩, index, by simp [Path.child]⟩

theorem child_inj {path path' : Path} {index index' : Nat}
    (h : path.child index = path'.child index') : path = path' ∧ index = index' := by
  obtain ⟨indices⟩ := path
  obtain ⟨indices'⟩ := path'
  simpa [Path.child] using h

/-- Two child constants of one prototype that name one child are the same. -/
theorem place_unique {b : Body} (h : b.childIndices.Nodup) {k k' index : Nat}
    (hk : b.constants[k]? = some (.child index)) (hk' : b.constants[k']? = some (.child index)) :
    k = k' := by
  have happart : b.constants.Pairwise fun c c' =>
      ∀ i ∈ c.childIndex?, ∀ i' ∈ c'.childIndex?, i ≠ i' := List.pairwise_filterMap.1 h
  have hlt : ∀ {k k' : Nat}, b.constants[k]? = some (.child index) →
      b.constants[k']? = some (.child index) → ¬k < k' := by
    intro k k' hk hk' hlt
    obtain ⟨hlen, hk⟩ := List.getElem?_eq_some_iff.1 hk
    obtain ⟨hlen', hk'⟩ := List.getElem?_eq_some_iff.1 hk'
    have hne := List.pairwise_iff_getElem.1 happart k k' hlen hlen' hlt
    rw [hk, hk'] at hne
    exact hne index rfl index rfl rfl
  have := hlt hk hk'
  have := hlt hk' hk
  omega

/-- In a script that fits, a child constant names a prototype below the root, and each of these
is named by one. -/
theorem childAt_bijective (h : s.root.Complete) :
    (∀ x path, s.ChildAt x path → path ≠ .root ∧ (s.prototype? path).isSome) ∧
      ∀ path, path ≠ .root → (s.prototype? path).isSome → ∃! x, s.ChildAt x path := by
  have hnames : ∀ path p, s.prototype? path = some p →
      p.body.childIndices.Perm (List.range p.children.length) := by
    intro path p hp
    have hmem : (path, p) ∈ s.walk := mem_walk_iff.2 hp
    exact Prototype.perm_range_iff_count.2 ((Prototype.complete_iff .root).1 h _ hmem)
  constructor
  · rintro ⟨path, k⟩ _ ⟨p, index, hp, hk, rfl⟩
    have hindex : index ∈ p.body.childIndices :=
      List.mem_filterMap.2 ⟨_, List.mem_of_getElem? hk, rfl⟩
    have hlt : index < p.children.length := List.mem_range.1 ((hnames path p hp).mem_iff.1 hindex)
    refine ⟨by simp [Path.child, Path.root], ?_⟩
    rw [prototype?_child, hp]
    simpa using hlt
  · intro path hne hsome
    obtain ⟨parent, index, rfl⟩ := exists_eq_child hne
    rw [prototype?_child] at hsome
    obtain ⟨p, hp, hchild⟩ : ∃ p, s.prototype? parent = some p ∧ index < p.children.length := by
      cases hp : s.prototype? parent with
      | none => simp [hp] at hsome
      | some p => exact ⟨p, rfl, by simpa [hp] using hsome⟩
    have hperm := hnames parent p hp
    obtain ⟨k, hk, hindex⟩ := List.mem_filterMap.1 (hperm.mem_iff.2 (List.mem_range.2 hchild))
    obtain rfl := Constant.childIndex?_eq_some.1 hindex
    obtain ⟨place, hplace⟩ := List.mem_iff_getElem?.1 hk
    refine ⟨(parent, place), ⟨p, index, hp, hplace, rfl⟩, ?_⟩
    rintro ⟨path', place'⟩ ⟨p', index', hp', hplace', hpath⟩
    obtain ⟨rfl, rfl⟩ := child_inj hpath
    obtain rfl : p = p' := Option.some.inj (hp.symm.trans hp')
    exact congrArg (Prod.mk parent)
      (place_unique (hperm.nodup_iff.2 List.nodup_range) hplace' hplace)

/-! ## Through a dump -/

/-- What a script that was written is read back as, whatever its tables and its opcodes. -/
def dumped (table : OpcodeTable) (s : Script) : Script :=
  linkParents { s.headBack with
    root := (s.root.mapBodies (Body.settled table)).readBack s.layout }

theorem decode_dumped (h : s.Fits table) : decode table s.written = .ok (s.dumped table) := by
  apply decode_written_as h (h.root.complete.mapBodies (Body.childIndices_settled table))
  have hbodies := Prototype.bodies_mapBodies (Body.childIndices_settled table) s.root
  calc (s.root.mapBodies (Body.settled table)).bodiesBack s.layout
      = ((s.root.mapBodies (Body.settled table)).postOrder.map Prototype.body).map
          (Body.readBack s.layout) := by
        rw [List.map_map]
        rfl
    _ = s.root.postOrder.map fun q => (q.body.settled table).readBack s.layout := by
        rw [hbodies, List.map_map, List.map_map]
        rfl

end Script

end BytecodeDump
