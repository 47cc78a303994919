-- Linking notes in each prototype the path of its parent, whatever was noted there, and leaves
-- all else as it was. No other script is so linked and else the same, so what is linked already,
-- as all that was decoded is, stays as it is.
import BytecodeDump.Proofs.Dump
import BytecodeDump.Proofs.Walk

namespace BytecodeDump

/-- Only the root has no parent. -/
theorem Path.parent?_eq_none {path : Path} : path.parent? = none ↔ path = .root := by
  obtain ⟨_ | ⟨index, indices⟩⟩ := path <;> simp [parent?, root]

namespace Prototype

/-- What stands in a prototype besides the parent that is noted there: its body, and how many
children it has. -/
def shape (p : Prototype) : Body × Nat := (p.body, p.children.length)

theorem shape_link (p : Prototype) (parent : Option Path) (path : Path) :
    (p.link parent path).shape = p.shape := by
  obtain ⟨b, old, children⟩ := p
  rw [link_node]
  simp [shape, body, length_linkList]

theorem map_shape_at?_link (p : Prototype) (parent : Option Path) (path : Path) (is : List Nat) :
    ((p.link parent path).at? is).map shape = (p.at? is).map shape := by
  induction is generalizing p parent path with
  | nil => simp [shape_link]
  | cons index is ih =>
    obtain ⟨b, old, children⟩ := p
    rw [link_node, at?_cons, at?_cons, children_node, children_node, getElem?_linkList]
    cases children[index]? with
    | none => rfl
    | some c => exact ih c _ _

/-- Two trees with the same parents and the same shapes at every path are the same. -/
theorem eq_of_at? {p q : Prototype}
    (h : ∀ is, (p.at? is).map (fun x => (x.parent, x.shape)) =
      (q.at? is).map fun x => (x.parent, x.shape)) : p = q := by
  induction p using induct generalizing q with
  | node b parent children ih =>
    obtain ⟨b', parent', children'⟩ := q
    have hroot := h []
    simp only [at?_nil, Option.map_some, Option.some.injEq, Prod.mk.injEq, shape,
      children_node] at hroot
    obtain ⟨hparent, hbody, hlength⟩ := hroot
    have hchildren : children = children' := by
      apply List.ext_getElem hlength
      intro k hk hk'
      refine ih _ (List.getElem_mem hk) fun is => ?_
      have hbelow := h (k :: is)
      rw [at?_cons, at?_cons, children_node, children_node, List.getElem?_eq_getElem hk,
        List.getElem?_eq_getElem hk'] at hbelow
      exact hbelow
    exact congr (congrArg₂ node hbody hparent) hchildren

end Prototype

namespace Script

variable {table : OpcodeTable} {s s' : Script}

/-- In every prototype the parent of its own path is noted. -/
def Linked (s : Script) : Prop := ∀ path p, s.prototype? path = some p → p.parent = path.parent?

/-- The scripts differ at most in the parents that are noted in them. -/
structure SameButParents (s s' : Script) : Prop where
  version : s'.version = s.version
  flags : s'.flags = s.flags
  chunkName : s'.chunkName = s.chunkName
  shapes : ∀ path, (s'.prototype? path).map Prototype.shape = (s.prototype? path).map Prototype.shape

theorem linked_linkParents (s : Script) : s.linkParents.Linked := by
  intro path p hp
  exact Prototype.parent_of_mem_walk_link s.root .root (path, p) (mem_walk_iff.2 hp)

theorem sameButParents_linkParents (s : Script) : s.SameButParents s.linkParents where
  version := rfl
  flags := rfl
  chunkName := rfl
  shapes path := Prototype.map_shape_at?_link s.root none .root path.indices

/-- Of the scripts that differ only in parents one is linked. -/
theorem eq_of_linked (h : s.SameButParents s') (hs : s.Linked) (hs' : s'.Linked) : s' = s := by
  have hroot : s'.root = s.root := by
    refine Prototype.eq_of_at? fun is => ?_
    have hshape := h.shapes ⟨is⟩
    simp only [prototype?] at hshape
    cases hp' : s'.root.at? is with
    | none =>
      rw [hp'] at hshape
      cases hp : s.root.at? is with
      | none => rfl
      | some p => simp [hp] at hshape
    | some p' =>
      rw [hp'] at hshape
      obtain ⟨p, hp, hsame⟩ := Option.map_eq_some_iff.1 hshape.symm
      have hparent : p'.parent = p.parent := (hs' ⟨is⟩ p' hp').trans (hs ⟨is⟩ p hp).symm
      simp [hp, hparent, hsame]
  obtain ⟨version, flags, chunkName, root⟩ := s
  obtain ⟨version', flags', chunkName', root'⟩ := s'
  obtain ⟨rfl, rfl, rfl, -⟩ := h
  obtain rfl := hroot
  rfl

theorem linkParents_of_linked (h : s.Linked) : s.linkParents = s :=
  eq_of_linked (sameButParents_linkParents s) h (linked_linkParents s)

/-- What was decoded was linked at the end. -/
theorem exists_linkParents_of_decode {bytes : Bytes} (h : decode table bytes = .ok s) :
    ∃ unlinked : Script, s = unlinked.linkParents := by
  unfold decode at h
  split at h
  · obtain ⟨⟨t, f⟩, hread, h⟩ := Output.andThen_eq_ok.1 h
    obtain rfl := Output.pure_eq_ok.1 h
    rw [read_eq] at hread
    obtain ⟨head, f₁, -, htree⟩ := Reader.bind_eq_ok.1 hread
    unfold readTree at htree
    rw [Reader.left_bind] at htree
    obtain ⟨stack, f₂, -, hrest⟩ := Reader.bind_eq_ok.1 htree
    rw [Reader.left_bind] at hrest
    split at hrest
    · cases hrest
    · split at hrest
      · cases hrest
        exact ⟨_, rfl⟩
      · cases hrest
  · cases h

/-! ## The law -/

/-- After linking, each prototype notes the parent of its path, which only the root has not,
and nothing else has changed; no other script has both. So to link again changes nothing, nor
does it change what was decoded. -/
theorem links_are_repaired (s : Script) :
    s.linkParents.Linked ∧
      (∀ path p, s.linkParents.prototype? path = some p → (p.parent = none ↔ path = .root)) ∧
      s.SameButParents s.linkParents ∧
      (∀ s', s.SameButParents s' → s'.Linked → s' = s.linkParents) ∧
      s.linkParents.linkParents = s.linkParents ∧
      ∀ table bytes decoded, decode table bytes = .ok decoded →
        decoded.Linked ∧ decoded.linkParents = decoded := by
  have hlinked := linked_linkParents s
  have hsame := sameButParents_linkParents s
  refine ⟨hlinked, ?_, hsame, ?_, linkParents_of_linked hlinked, ?_⟩
  · intro path p hp
    rw [hlinked path p hp, Path.parent?_eq_none]
  · intro s' h hs'
    refine eq_of_linked ⟨h.version, h.flags, h.chunkName, fun path => ?_⟩ hlinked hs'
    exact (h.shapes path).trans (hsame.shapes path).symm
  · intro table bytes decoded h
    obtain ⟨unlinked, rfl⟩ := exists_linkParents_of_decode h
    exact ⟨linked_linkParents unlinked, linkParents_of_linked (linked_linkParents unlinked)⟩

end Script

end BytecodeDump
