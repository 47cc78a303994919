-- The normal form of scripts: decoding gives no other, and for a table whose operands do
-- not overlap a script in normal form comes back from its dump as it was.
import BytecodeDump.Proofs.Reencoding
import BytecodeDump.Proofs.WellFormed

namespace BytecodeDump

/-! ## The form -/

/-- No table lists a key twice, each instruction has the operands of its opcode and no
value in another field, upvalue indices fit, and the debug block fits the rest. -/
structure Body.Normal (table : OpcodeTable) (b : Body) : Prop where
  constants : ∀ k ∈ b.constants, k.Keyed
  slots : ∀ i ∈ b.code, i.slots = table.slots i.opcode
  clean : ∀ i ∈ b.code, i.Clean
  upvalues : ∀ u ∈ b.upvalues, u.index ≤ 0x3FFF
  debug : ∀ info, b.debug = some info → info.Coherent b.code.length b.upvalues.length

/-- The child constants count the children down. -/
def Prototype.CountsDown (p : Prototype) : Prop :=
  p.body.childIndices = (List.range p.children.length).reverse

/-- Every prototype counts its children down, has a normal body and names its parent;
and a stripped script keeps neither the chunk name nor a debug block. -/
structure Script.Normal (table : OpcodeTable) (s : Script) : Prop where
  children : ∀ x ∈ s.walk, x.2.CountsDown
  bodies : ∀ x ∈ s.walk, x.2.body.Normal table
  parents : ∀ x ∈ s.walk, x.2.parent = x.1.parent?
  chunkName : s.hasDebug = false → s.chunkName = []
  debug : s.hasDebug = false → ∀ x ∈ s.walk, x.2.body.debug = none

/-! ## Bodies -/

theorem Instruction.clean_ofWord (table : OpcodeTable) (word : UInt32) :
    (ofWord table word).Clean where
  a := fun h => if_neg (Bool.eq_false_iff.1 h)
  b := fun h => if_neg (Bool.eq_false_iff.1 h)
  c := fun h => if_neg (Bool.eq_false_iff.1 h)
  d := fun h => if_neg (Bool.eq_false_iff.1 h)

/-- Constants that count down already are not changed by counting them down. -/
theorem Constant.countDown_eq_self {ks : List Constant} {n : Nat}
    (h : ks.filterMap childIndex? = (List.range n).reverse) : countDown ks = ks := by
  induction ks generalizing n with
  | nil => rfl
  | cons k ks ih =>
    have hcount : childCount (k :: ks) = n := by
      rw [childCount, h, List.length_reverse, List.length_range]
    rw [childCount_cons] at hcount
    cases k with
    | child index =>
      rw [childIndex?, Option.toList_some, List.length_singleton] at hcount
      obtain rfl : n = childCount ks + 1 := by omega
      rw [List.filterMap_cons_some (f := childIndex?) rfl, List.range_succ, List.reverse_append] at h
      obtain ⟨rfl, hrest⟩ := List.cons.inj h
      rw [countDown, ih hrest]
      rfl
    | _ =>
      rw [countDown, ih h]
      rfl

namespace Body

variable {table : OpcodeTable} {layout : Layout} {b : Body}

/-- A body that was read is normal. -/
theorem Sound.normal (h : b.Sound table layout) : b.Normal table where
  constants := h.stable.constants
  slots := h.fits.code
  clean := by
    intro i hi
    rw [← h.stable.code i hi]
    exact Instruction.clean_ofWord table _
  upvalues := h.fits.upvalues
  debug := by
    intro info hinfo
    have hkept : b.kept layout = some info := (congrArg Body.debug h.same).trans hinfo
    exact (DebugInfo.fits_iff.1 (h.fits.debug info hkept)).toCoherent

/-- A body that counts its children down is not changed by a dump that keeps its block. -/
theorem readBack_eq_self {n : Nat} (hindices : b.childIndices = (List.range n).reverse)
    (hdebug : layout.debug = false → b.debug = none) : b.readBack layout = b := by
  have hkept : b.kept layout = b.debug := by
    unfold kept
    split
    · rfl
    · rename_i hlayout
      exact (hdebug (by simpa using hlayout)).symm
  rw [readBack, hkept, Constant.countDown_eq_self hindices]

end Body

/-! ## Trees -/

namespace Prototype

/-- The records of what reading makes of a tree are what it makes of the records. -/
theorem bodies_readBack {layout : Layout} {p : Prototype} (h : p.Complete) :
    (p.readBack layout).postOrder.map body = p.bodiesBack layout := by
  have hindices : ∀ b ∈ p.bodiesBack layout,
      b.childIndices = (List.range b.childIndices.length).reverse := by
    intro b hb
    obtain ⟨q, -, rfl⟩ := List.mem_map.1 hb
    have hcount : (q.body.readBack layout).childIndices.length = q.body.childIndices.length :=
      Constant.childCount_countDown q.body.constants
    rw [hcount]
    exact (q.body.image_readBack layout).indices
  obtain ⟨-, hbodies⟩ := build_sound hindices (by simp) (build_bodiesBack h [])
  simpa using hbodies

/-- If a dump does not change the tree, then it changes none of its bodies. -/
theorem readBack_body {layout : Layout} {p : Prototype} (h : p.Complete) {path : Path}
    (hsame : (p.readBack layout).link path.parent? path = p) :
    ∀ q ∈ p.postOrder, q.body.readBack layout = q.body := by
  have hbodies : p.postOrder.map (fun q => q.body.readBack layout) = p.postOrder.map body := by
    calc p.postOrder.map (fun q => q.body.readBack layout)
        = (p.readBack layout).postOrder.map body := (bodies_readBack h).symm
      _ = ((p.readBack layout).link path.parent? path).postOrder.map body :=
          (bodies_link _ _ _).symm
      _ = p.postOrder.map body := by rw [hsame]
  exact List.map_inj_left.1 hbodies

/-- A tree that counts its children down, whose bodies a dump does not change and whose
prototypes name their parents, is not changed by a dump. -/
theorem link_readBack {layout : Layout} {p : Prototype} {path : Path}
    (hchildren : ∀ x ∈ p.walk path, x.2.CountsDown)
    (hbodies : ∀ x ∈ p.walk path, x.2.body.readBack layout = x.2.body)
    (hparents : ∀ x ∈ p.walk path, x.2.parent = x.1.parent?) :
    (p.readBack layout).link path.parent? path = p := by
  induction p using induct generalizing path with
  | node b parent children ih =>
    obtain ⟨(hindices : b.childIndices = (List.range children.length).reverse), hchildren⟩ :=
      forall_walk_node.1 hchildren
    obtain ⟨(hback : b.readBack layout = b), hbodies⟩ := forall_walk_node.1 hbodies
    obtain ⟨(hparent : parent = path.parent?), hparents⟩ := forall_walk_node.1 hparents
    -- The constants count down and reading puts the children last to first, so each child
    -- comes back to its own place, with the path that it had there.
    have hlist : linkList path 0 (children.map (readBack layout)) = children := by
      apply List.ext_getElem?
      intro k
      rw [getElem?_linkList, List.getElem?_map, Nat.zero_add]
      cases hc : children[k]? with
      | none => rfl
      | some c =>
        have hsame := ih c (List.mem_of_getElem? hc) (hchildren k c hc) (hbodies k c hc)
          (hparents k c hc)
        rw [parent?_child] at hsame
        exact congrArg some hsame
    rw [readBack_node, hindices, select_reverse, select_range, List.map_reverse,
      List.reverse_reverse, link_node, hlist, hback, hparent]

end Prototype

/-! ## Scripts -/

namespace Script

variable {table : OpcodeTable} {s : Script} {bytes : Bytes}

theorem normal_of_sound {parts : List Part} (h : s.Sound table parts) : s.Normal table := by
  have hcomplete := h.fits.root.complete
  have hroot : (s.root.readBack s.layout).link Path.root.parent? .root = s.root :=
    congrArg Script.root h.same
  have hname : (if s.hasDebug then s.chunkName else []) = s.chunkName :=
    congrArg Script.chunkName h.same
  have hbodies : ∀ q ∈ s.root.postOrder, q.body.Sound table s.layout := fun q hq =>
    ⟨(h.fits.root.records q hq).1, h.stable q hq, Prototype.readBack_body hcomplete hroot q hq⟩
  rw [Prototype.forall_postOrder_iff (P := fun q => q.body.Sound table s.layout)
    hcomplete .root] at hbodies
  refine ⟨?_, fun x hx => (hbodies x hx).normal, ?_, ?_, ?_⟩
  · intro x hx
    have hnamed := Prototype.perm_range_iff_count.2
      ((Prototype.complete_iff .root).1 hcomplete x hx)
    have hindices := (x.2.body.image_readBack s.layout).indices
    rwa [(hbodies x hx).same, hnamed.length_eq, List.length_range] at hindices
  · have hparents := Prototype.parent_of_mem_walk_link (s.root.readBack s.layout) .root
    rwa [hroot] at hparents
  · intro hstripped
    rw [← hname, hstripped]
    rfl
  · intro hstripped x hx
    rw [← (hbodies x hx).same]
    exact if_neg (by simp [layout, hstripped])

/-- Decoding what a script in normal form was encoded to gives the script. -/
theorem decode_of_normal (hT : table.Disjoint) (h : s.Normal table)
    (hencode : encode table s = .ok bytes) : decode table bytes = .ok s := by
  obtain ⟨hfits, rfl⟩ := encode_eq_ok.1 hencode
  have hstable : ∀ q ∈ s.root.postOrder, q.body.Stable table := by
    intro q hq
    have hnormal := (Prototype.forall_postOrder_iff (P := fun q => q.body.Normal table)
      hfits.root.complete .root).2 h.bodies q hq
    exact stable_of_fits hT (hfits.root.records q hq) hnormal.clean hnormal.constants
  have hbodies : ∀ x ∈ s.walk, x.2.body.readBack s.layout = x.2.body := by
    intro x hx
    exact Body.readBack_eq_self (h.children x hx) fun hdebug => h.debug hdebug x hx
  have hroot : (s.root.readBack s.layout).link Path.root.parent? .root = s.root :=
    Prototype.link_readBack h.children hbodies h.parents
  have hname : (if s.hasDebug then s.chunkName else []) = s.chunkName := by
    split
    · rfl
    · rename_i hdebug
      exact (h.chunkName (by simpa using hdebug)).symm
  rw [decode_written hfits hstable]
  exact congrArg₂ (fun chunkName root => Except.ok { s with chunkName, root }) hname hroot

/-! ## The law -/

/-- Whatever decodes is in normal form. Conversely, for a table that never declares D
together with B or C, a script in normal form is what its dump decodes to. -/
theorem decoded_scripts_are_normal (table : OpcodeTable) :
    (∀ bytes s, decode table bytes = .ok s → s.Normal table) ∧
      (table.Disjoint → ∀ s bytes, s.Normal table → encode table s = .ok bytes →
        decode table bytes = .ok s) := by
  refine ⟨?_, fun hT s bytes => decode_of_normal hT⟩
  intro bytes s h
  obtain ⟨parts, hsurvey⟩ := survey_of_decode table h
  exact normal_of_sound (sound_of_survey table hsurvey).2

/-- The two functions of `pairScript` and the one that makes them, as they are read. -/
def pairNormal : Script where
  chunkName := []
  root := .node
    { code := [⟨1, ⟨true, false, false, true⟩, 2, 0, 0, 3⟩]
      constants := [.child 1, .table ⟨[], [(.int32 1, .nil), (.int32 2, .nil)]⟩, .child 0] }
    none [.node { maxSlot := 1 } (some .root) [], .node { maxSlot := 2 } (some .root) []]

theorem pairNormal_is_normal : pairNormal.Normal pairTable ∧
    encode pairTable pairNormal = .ok pairDump ∧ decode pairTable pairDump = .ok pairNormal := by
  have hdecode : decode pairTable pairDump = .ok pairNormal := by decide +kernel
  have hencode : encode pairTable pairNormal = .ok pairDump := by decide +kernel
  have hT : pairTable.Disjoint := fun _ _ => ⟨rfl, rfl⟩
  obtain ⟨hnormal, hfixed⟩ := decoded_scripts_are_normal pairTable
  have h := hnormal pairDump pairNormal hdecode
  exact ⟨h, hencode, hfixed hT pairNormal pairDump h hencode⟩

end Script

end BytecodeDump
