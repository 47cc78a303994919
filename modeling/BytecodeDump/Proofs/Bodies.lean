-- Trees with every body changed. A change that keeps the child constants of each body
-- keeps the shape of the tree: it can be made before or after the parents are noted and
-- before or after the tree is read back. Taking out the debug blocks is such a change.
import BytecodeDump.Proofs.Stack

namespace BytecodeDump

/-- The body without its debug block. -/
def Body.strip (b : Body) : Body := { b with debug := none }

namespace Prototype

mutual

/-- The tree with every body changed. -/
def mapBodies (f : Body → Body) : Prototype → Prototype
  | node b parent children => node (f b) parent (mapBodiesList f children)

/-- Each tree with every body changed. -/
def mapBodiesList (f : Body → Body) : List Prototype → List Prototype
  | [] => []
  | p :: ps => mapBodies f p :: mapBodiesList f ps

end

theorem mapBodiesList_eq_map (f : Body → Body) (ps : List Prototype) :
    mapBodiesList f ps = ps.map (mapBodies f) := by
  induction ps with
  | nil => rfl
  | cons p ps ih => rw [mapBodiesList, ih, List.map_cons]

theorem mapBodies_node (f : Body → Body) (b : Body) (parent : Option Path)
    (children : List Prototype) :
    (node b parent children).mapBodies f = node (f b) parent (children.map (mapBodies f)) := by
  rw [mapBodies, mapBodiesList_eq_map]

theorem stripList_eq_map (ps : List Prototype) : stripList ps = ps.map strip := by
  induction ps with
  | nil => rfl
  | cons p ps ih => rw [stripList, ih, List.map_cons]

theorem strip_eq_mapBodies (p : Prototype) : p.strip = p.mapBodies Body.strip := by
  induction p using induct with
  | node b parent children ih =>
    rw [strip, mapBodies_node, stripList_eq_map, List.map_congr_left ih]
    rfl

theorem mapBodies_mapBodies (f g : Body → Body) (p : Prototype) :
    (p.mapBodies f).mapBodies g = p.mapBodies (g ∘ f) := by
  induction p using induct with
  | node b parent children ih =>
    have hchildren : (children.map (mapBodies f)).map (mapBodies g) =
        children.map (mapBodies (g ∘ f)) := by
      rw [List.map_map]
      exact List.map_congr_left ih
    rw [mapBodies_node, mapBodies_node, mapBodies_node, hchildren]
    rfl

/-! ## Parents -/

theorem linkList_map {f : Prototype → Prototype} {ps : List Prototype} (path : Path) (index : Nat)
    (h : ∀ p ∈ ps, ∀ parent path, (f p).link parent path = f (p.link parent path)) :
    linkList path index (ps.map f) = (linkList path index ps).map f := by
  apply List.ext_getElem?
  intro k
  rw [getElem?_linkList, List.getElem?_map, List.getElem?_map, getElem?_linkList]
  cases hp : ps[k]? with
  | none => rfl
  | some p => exact congrArg some (h p (List.mem_of_getElem? hp) _ _)

theorem link_mapBodies (f : Body → Body) (p : Prototype) (parent : Option Path) (path : Path) :
    (p.mapBodies f).link parent path = (p.link parent path).mapBodies f := by
  induction p using induct generalizing parent path with
  | node b old children ih =>
    rw [mapBodies_node, link_node, link_node, mapBodies_node, linkList_map path 0 ih]

/-! ## Records -/

section ChildIndices

variable {f : Body → Body} (hf : ∀ b, (f b).childIndices = b.childIndices)

include hf

theorem Complete.mapBodies {p : Prototype} (h : p.Complete) : (p.mapBodies f).Complete := by
  induction h with
  | node b parent children named below ih =>
    rw [mapBodies_node]
    refine Complete.node _ _ _ ?_ ?_
    · rw [hf, List.length_map]
      exact named
    · intro c hc
      obtain ⟨d, hd, rfl⟩ := List.mem_map.1 hc
      exact ih d hd

/-- The bodies are changed where they stand in the order of the records. -/
theorem bodies_mapBodies (p : Prototype) :
    (p.mapBodies f).postOrder.map body = (p.postOrder.map body).map f := by
  induction p using induct with
  | node b parent children ih =>
    have hchildren : (children.map (Prototype.mapBodies f)).map (fun c => c.postOrder.map body) =
        (children.map fun c => c.postOrder.map body).map (List.map f) := by
      rw [List.map_map, List.map_map]
      exact List.map_congr_left ih
    rw [mapBodies_node, bodies_node, bodies_node, hf, hchildren, select_map, List.map_append,
      List.map_flatten]
    rfl

theorem forall_mapBodies {P : Body → Prop} {p : Prototype} :
    (∀ q ∈ (p.mapBodies f).postOrder, P q.body) ↔ ∀ q ∈ p.postOrder, P (f q.body) := by
  have hbodies := bodies_mapBodies hf p
  rw [← List.forall_mem_map (f := body) (P := P), hbodies, List.map_map, List.forall_mem_map]
  rfl

/-- The change may be made after reading, if there it is the change of each body. -/
theorem readBack_mapBodies {g : Body → Body} {layout layout' : Layout}
    (h : ∀ b, (f b).readBack layout' = g (b.readBack layout)) (p : Prototype) :
    (p.mapBodies f).readBack layout' = (p.readBack layout).mapBodies g := by
  induction p using induct with
  | node b parent children ih =>
    have hchildren : (children.map (Prototype.mapBodies f)).map (readBack layout') =
        (children.map (readBack layout)).map (Prototype.mapBodies g) := by
      rw [List.map_map, List.map_map]
      exact List.map_congr_left ih
    rw [mapBodies_node, readBack_node, readBack_node, mapBodies_node, hf, h, ← select_map,
      hchildren, select_map, select_map, List.map_reverse]

theorem Fits.mapBodies {table : OpcodeTable} {layout layout' : Layout} {p : Prototype}
    (hfits : ∀ b, b.RecordFits table layout → (f b).RecordFits table layout')
    (h : p.Fits table layout) : (p.mapBodies f).Fits table layout' where
  complete := h.complete.mapBodies hf
  records := (forall_mapBodies hf).2 fun q hq => hfits q.body (h.records q hq)

end ChildIndices

/-- The form of a tree is made of its bodies. -/
theorem written_eq_flatMap (layout : Layout) (p : Prototype) :
    p.written layout = (p.postOrder.map body).flatMap (Body.record layout) := by
  rw [List.flatMap_map]
  rfl

end Prototype

end BytecodeDump
