-- A walk lists a tree by its paths: each prototype once, under the path that leads to it, in
-- the order of the paths, and with all that is below it right after it. A change at a path is
-- seen at no path that lies beside it, and no two paths have the same text.
import BytecodeDump.Proofs.WellFormed

namespace BytecodeDump

namespace Path

/-- The path that goes on from this one by some indices. -/
def down (p : Path) (indices : List Nat) : Path := ⟨p.indices ++ indices⟩

/-- The first path leads to something below what the second one leads to. -/
def Below (q p : Path) : Prop := ∃ index indices, q = p.down (index :: indices)

/-- Neither path goes on from the other one. -/
def Beside (p q : Path) : Prop := ¬p.indices <+: q.indices ∧ ¬q.indices <+: p.indices

@[simp] theorem down_nil (p : Path) : p.down [] = p := by simp [down]

@[simp] theorem down_down (p : Path) (is js : List Nat) :
    (p.down is).down js = p.down (is ++ js) := by
  simp [down]

theorem child_eq_down (p : Path) (index : Nat) : p.child index = p.down [index] := rfl

theorem root_down (p : Path) : root.down p.indices = p := rfl

theorem down_inj {p : Path} {is js : List Nat} : p.down is = p.down js ↔ is = js := by
  simp [down]

/-! ## Order -/

theorem compareLex_append (is js ks : List Nat) :
    List.compareLex Ord.compare (is ++ js) (is ++ ks) = List.compareLex Ord.compare js ks := by
  induction is with
  | nil => rfl
  | cons i is ih => simp [List.compareLex_cons_cons, ih]

theorem compare_down_down (p : Path) (is js : List Nat) :
    (p.down is).compare (p.down js) = List.compareLex Ord.compare is js := compareLex_append _ _ _

theorem compare_of_lt {i j : Nat} (h : i < j) (p : Path) (is js : List Nat) :
    (p.down (i :: is)).compare (p.down (j :: js)) = .lt := by
  rw [compare_down_down, List.compareLex_cons_cons, Nat.compare_eq_lt.2 h]
  rfl

/-- A path is before those below it. -/
theorem compare_of_below {p q : Path} (h : q.Below p) : p.compare q = .lt := by
  obtain ⟨index, indices, rfl⟩ := h
  have h := compare_down_down p [] (index :: indices)
  rwa [down_nil] at h

theorem compare_self (p : Path) : p.compare p = .eq := by
  have h := compare_down_down p [] []
  rwa [down_nil] at h

/-! ## Text -/

/-- The words of the text, which are parted by points. -/
def words (p : Path) : List (List Char) := "main".toList :: p.indices.map (Nat.toDigits 10)

theorem toList_text (p : Path) : p.text.toList = ['.'].intercalate p.words := by
  have hfold : ∀ (is : List Nat) (shown : String),
      (is.foldl (fun shown index => shown ++ "." ++ toString index) shown).toList =
        ['.'].intercalate (shown.toList :: is.map (Nat.toDigits 10)) := by
    intro is
    induction is with
    | nil => simp [List.intercalate]
    | cons i is ih =>
      intro shown
      rw [List.foldl_cons, ih]
      cases is <;> simp [List.intercalate, Nat.toString_eq_repr]
  exact hfold p.indices "main"

/-- No word has a point in it. -/
theorem point_notMem_words {p : Path} : ∀ word ∈ p.words, '.' ∉ word := by
  intro word hword hpoint
  rcases List.mem_cons.1 hword with rfl | hword
  · exact absurd hpoint (by decide)
  · obtain ⟨index, -, rfl⟩ := List.mem_map.1 hword
    have hdigit := Nat.isDigit_of_mem_toDigits (by decide) (by decide) hpoint
    exact absurd hdigit (by decide)

theorem text_injective : Function.Injective text := by
  intro p q h
  have hwords : p.words = q.words := by
    rw [← List.splitOn_intercalate '.' point_notMem_words (List.cons_ne_nil _ _), ← toList_text, h,
      toList_text, List.splitOn_intercalate '.' point_notMem_words (List.cons_ne_nil _ _)]
  have hdigits : Function.Injective (Nat.toDigits 10) := by
    intro m n hmn
    rw [← Nat.repr_inj, ← String.toList_inj, Nat.toList_repr, Nat.toList_repr, hmn]
  exact congrArg mk (hdigits.list_map (List.tail_eq_of_cons_eq hwords))

end Path

namespace Prototype

variable {p q : Prototype} {path place : Path}

/-! ## Paths -/

@[simp] theorem children_node (b : Body) (parent : Option Path) (children : List Prototype) :
    (node b parent children).children = children := rfl

@[simp] theorem at?_nil (p : Prototype) : p.at? [] = some p := by rw [at?]

theorem at?_cons (p : Prototype) (index : Nat) (rest : List Nat) :
    p.at? (index :: rest) = p.children[index]?.bind (at? · rest) := by
  rw [at?]

theorem at?_append (p : Prototype) (is js : List Nat) :
    p.at? (is ++ js) = (p.at? is).bind (at? · js) := by
  induction is generalizing p with
  | nil => simp
  | cons index is ih => simp [at?_cons, ih, Option.bind_assoc]

/-- The walk from a path comes to what stands below it in the tree, and nothing else. -/
theorem mem_walk_iff :
    (place, q) ∈ p.walk path ↔ ∃ indices, place = path.down indices ∧ p.at? indices = some q := by
  induction p using induct generalizing path with
  | node b parent children ih =>
    rw [walk, List.mem_cons, mem_walkList_iff]
    refine ⟨?_, ?_⟩
    · rintro (h | ⟨k, c, hc, h⟩)
      · cases h
        exact ⟨[], by simp⟩
      · obtain ⟨indices, rfl, hat⟩ := (ih c (List.mem_of_getElem? hc)).1 h
        refine ⟨k :: indices, by simp [Path.child_eq_down], ?_⟩
        rw [at?_cons]
        simpa [hc] using hat
    · rintro ⟨_ | ⟨k, indices⟩, rfl, hat⟩
      · cases hat
        simp
      · rw [at?_cons] at hat
        obtain ⟨c, (hc : children[k]? = some c), hat⟩ := Option.bind_eq_some_iff.1 hat
        refine .inr ⟨k, c, hc, (ih c (List.mem_of_getElem? hc)).2 ⟨indices, ?_, hat⟩⟩
        simp [Path.child_eq_down]

theorem walk_eq_cons (p : Prototype) (path : Path) :
    p.walk path = (path, p) :: walkList path 0 p.children := by
  obtain ⟨b, parent, children⟩ := p
  rw [walk, children_node]

/-- The walk through the children comes to what stands below. -/
theorem mem_walkList_children :
    (place, q) ∈ walkList path 0 p.children ↔ place.Below path ∧ (place, q) ∈ p.walk path := by
  obtain ⟨b, parent, children⟩ := p
  rw [mem_walkList_iff]
  simp only [mem_walk_iff, Path.child_eq_down, Path.down_down, Nat.zero_add, children_node]
  refine ⟨?_, ?_⟩
  · rintro ⟨k, c, hc, indices, rfl, hat⟩
    refine ⟨⟨k, indices, rfl⟩, k :: indices, rfl, ?_⟩
    simp [at?_cons, hc, hat]
  · rintro ⟨⟨k, indices, rfl⟩, indices', hplace, hat⟩
    obtain rfl := Path.down_inj.1 hplace
    rw [at?_cons] at hat
    obtain ⟨c, hc, hat⟩ := Option.bind_eq_some_iff.1 hat
    exact ⟨k, c, hc, indices, rfl, hat⟩

/-! ## Order -/

/-- The first path of a walk comes before the second one. -/
def Earlier (x y : Path × Prototype) : Prop := x.1.compare y.1 = .lt

theorem pairwise_walkList {ps : List Prototype} (path : Path) (index : Nat)
    (h : ∀ p ∈ ps, ∀ path, (p.walk path).Pairwise Earlier) :
    (walkList path index ps).Pairwise Earlier := by
  induction ps generalizing index with
  | nil => exact List.Pairwise.nil
  | cons p ps ih =>
    rw [walkList, List.pairwise_append]
    refine ⟨h p List.mem_cons_self _, ih _ fun q hq => h q (List.mem_cons_of_mem p hq), ?_⟩
    rintro ⟨place, q⟩ hx ⟨place', q'⟩ hy
    obtain ⟨k, c, -, hy⟩ := mem_walkList_iff.1 hy
    obtain ⟨indices, rfl, -⟩ := mem_walk_iff.1 hx
    obtain ⟨indices', rfl, -⟩ := mem_walk_iff.1 hy
    rw [Earlier, Path.child_eq_down, Path.child_eq_down, Path.down_down, Path.down_down]
    exact Path.compare_of_lt (by omega) path _ _

/-- A walk goes through the paths in their order. -/
theorem pairwise_walk (p : Prototype) (path : Path) : (p.walk path).Pairwise Earlier := by
  induction p using induct generalizing path with
  | node b parent children ih =>
    rw [walk_eq_cons, List.pairwise_cons]
    refine ⟨?_, pairwise_walkList path 0 ih⟩
    rintro ⟨place, q⟩ hx
    exact Path.compare_of_below (mem_walkList_children.1 hx).1

theorem infix_walkList {ps : List Prototype} {k : Nat} {c : Prototype} (hc : ps[k]? = some c)
    (path : Path) (index : Nat) : c.walk (path.child (index + k)) <:+: walkList path index ps := by
  induction ps generalizing index k with
  | nil => cases hc
  | cons p ps ih =>
    rw [walkList]
    cases k with
    | zero =>
      cases hc
      exact (List.prefix_append _ _).isInfix
    | succ k =>
      have h := ih hc (index + 1)
      rw [Nat.add_assoc, Nat.add_comm 1 k] at h
      exact h.trans (List.suffix_append _ _).isInfix

/-- The walk through a part of a tree is a stretch of the walk through the tree. -/
theorem walk_infix (h : (place, q) ∈ p.walk path) : q.walk place <:+: p.walk path := by
  induction p using induct generalizing path with
  | node b parent children ih =>
    rw [walk_eq_cons (node b parent children)] at h ⊢
    rcases List.mem_cons.1 h with h | h
    · cases h
      rw [walk_eq_cons]
    · obtain ⟨k, c, hc, h⟩ := mem_walkList_iff.1 h
      refine (ih c (List.mem_of_getElem? hc) h).trans ?_
      exact (infix_walkList hc path 0).trans (List.suffix_cons _ _).isInfix

/-! ## Changes -/

/-- What stands below the place of a change stands so in the changed prototype. -/
theorem at?_modifyAt (f : Prototype → Prototype) (p : Prototype) (is js : List Nat) :
    (p.modifyAt f is).at? (is ++ js) = (p.at? is).bind fun q => (f q).at? js := by
  induction is generalizing p with
  | nil => simp [modifyAt]
  | cons index is ih =>
    obtain ⟨b, parent, children⟩ := p
    simp only [modifyAt, List.cons_append, at?_cons, children_node, List.getElem?_modify_eq]
    cases children[index]? with
    | none => rfl
    | some c => exact ih c

theorem at?_modifyAt_of_beside (f : Prototype → Prototype) (p : Prototype) {is js : List Nat}
    (h : ¬is <+: js) (h' : ¬js <+: is) : (p.modifyAt f is).at? js = p.at? js := by
  induction is generalizing p js with
  | nil => exact absurd List.nil_prefix h
  | cons i is ih =>
    obtain ⟨b, parent, children⟩ := p
    cases js with
    | nil => exact absurd List.nil_prefix h'
    | cons j js =>
      simp only [modifyAt, at?_cons, children_node]
      by_cases hij : i = j
      · subst hij
        rw [List.cons_prefix_cons, not_and] at h h'
        rw [List.getElem?_modify_eq]
        cases children[i]? with
        | none => rfl
        | some c => exact ih c (h rfl) (h' rfl)
      · rw [List.getElem?_modify_ne _ _ hij]

/-- Where there is no prototype, there is nothing to change. -/
theorem modifyAt_of_none (f : Prototype → Prototype) {p : Prototype} {is : List Nat}
    (h : p.at? is = none) : p.modifyAt f is = p := by
  induction is generalizing p with
  | nil => simp at h
  | cons index is ih =>
    obtain ⟨b, parent, children⟩ := p
    rw [at?_cons, children_node] at h
    have hsame : children.modify index (modifyAt f is) = children := by
      apply List.ext_getElem?
      intro k
      rw [List.getElem?_modify]
      split
      · rename_i hk
        subst hk
        cases hc : children[index]? with
        | none => rfl
        | some c =>
          rw [hc] at h
          exact congrArg some (ih h)
      · simp
    rw [modifyAt, hsame]

end Prototype

namespace Script

variable {s : Script}

theorem mem_walk_iff {path : Path} {p : Prototype} :
    (path, p) ∈ s.walk ↔ s.prototype? path = some p := by
  have hroot : ∀ indices, path = Path.root.down indices ↔ indices = path.indices := by
    intro indices
    rw [eq_comm, ← Path.root_down path, Path.down_inj]
    rfl
  rw [walk, Prototype.mem_walk_iff]
  simp only [hroot, exists_eq_left]
  rfl

theorem prototype?_child (path : Path) (index : Nat) :
    s.prototype? (path.child index) = (s.prototype? path).bind (·.children[index]?) := by
  rw [prototype?, prototype?, Path.child, Prototype.at?_append]
  refine Option.bind_congr fun p _ => ?_
  rw [Prototype.at?_cons]
  simp

/-- A prototype stands in the walk right before all that is below it. -/
theorem walk_split {path : Path} {p : Prototype} (h : (path, p) ∈ s.walk) :
    ∃ before below after, s.walk = before ++ (path, p) :: (below ++ after) ∧
      ∀ x ∈ s.walk, x ∈ below ↔ x.1.Below path := by
  obtain ⟨before, after, hsplit⟩ := Prototype.walk_infix h
  rw [Prototype.walk_eq_cons] at hsplit
  refine ⟨before, Prototype.walkList path 0 p.children, after, ?_, ?_⟩
  · rw [walk, ← hsplit, List.append_assoc]
    rfl
  · rintro ⟨place, q⟩ hx
    rw [Prototype.mem_walkList_children]
    refine ⟨And.left, fun hbelow => ⟨hbelow, ?_⟩⟩
    obtain ⟨k, rest, rfl⟩ := hbelow
    have hp : s.root.at? path.indices = some p := mem_walk_iff.1 h
    have hq : s.root.at? (path.indices ++ k :: rest) = some q := mem_walk_iff.1 hx
    rw [Prototype.at?_append, hp] at hq
    exact Prototype.mem_walk_iff.2 ⟨k :: rest, rfl, hq⟩

/-! ## The law -/

/-- A walk through a script lists just the paths that lead to a prototype, each with the
prototype that stands there, in the order of the paths, and each prototype right before what
is below it. A change at a path changes the prototype that stands there, and what is seen at
paths beside it stays as it was. The paths have different texts. -/
theorem walk_is_an_index (s : Script) :
    (∀ path p, (path, p) ∈ s.walk ↔ s.prototype? path = some p) ∧
      (s.walk.map Prod.fst).Pairwise (fun p q => p.compare q = .lt) ∧
      (∀ path p, (path, p) ∈ s.walk →
        ∃ before below after, s.walk = before ++ (path, p) :: (below ++ after) ∧
          ∀ x ∈ s.walk, x ∈ below ↔ x.1.Below path) ∧
      (∀ path f, (s.modify path f).prototype? path = (s.prototype? path).map f ∧
        (s.prototype? path = none → s.modify path f = s) ∧
        ∀ other, path.Beside other → (s.modify path f).prototype? other = s.prototype? other) ∧
      (s.walk.map fun x => x.1.text).Nodup := by
  have horder : (s.walk.map Prod.fst).Pairwise (fun p q => p.compare q = .lt) :=
    List.pairwise_map.2 (Prototype.pairwise_walk s.root .root)
  refine ⟨fun path p => mem_walk_iff, horder, fun path p => walk_split, ?_, ?_⟩
  · intro path f
    refine ⟨?_, ?_, ?_⟩
    · have h := Prototype.at?_modifyAt f s.root path.indices []
      rw [List.append_nil] at h
      simp only [Prototype.at?_nil] at h
      exact h.trans Option.map_eq_bind.symm
    · intro hnone
      exact congrArg (fun root => { s with root }) (Prototype.modifyAt_of_none f hnone)
    · rintro other ⟨h, h'⟩
      exact Prototype.at?_modifyAt_of_beside f s.root h h'
  · have hpaths : (s.walk.map Prod.fst).Nodup := by
      refine horder.imp ?_
      rintro p q h rfl
      rw [Path.compare_self] at h
      cases h
    have htexts := hpaths.map Path.text_injective
    rwa [List.map_map] at htexts

end Script

end BytecodeDump
