-- Which scripts can be written: those of the version whose prototypes all keep the rules
-- below, as long as no size is past 32 bits.
import BytecodeDump.Proofs.Dump
import BytecodeDump.Proofs.Refusal

namespace BytecodeDump

/-! ## The rules -/

/-- A name of the source that a reader takes for nothing else. -/
def LocalName.WellFormed : LocalName → Prop
  | .loop _ => True
  | .named bytes => bytes ≠ [] ∧ 7 ≤ bytes.headD 0 ∧ 0 ∉ bytes

/-- There is a line for each instruction and a name for each upvalue, and the variables
have names that can be told apart and stand in the order in which their scopes begin. -/
structure DebugInfo.Coherent (info : DebugInfo) (instructions upvalues : Nat) : Prop where
  lines_length : info.lines.length = instructions
  names_length : info.upvalueNames.length = upvalues
  local_names : ∀ v ∈ info.locals, v.name.WellFormed
  scopes : (info.locals.map LocalVariable.first).Pairwise (· ≤ ·)

/-- Besides, each line fits the width that the number of lines gives, and no name of an
upvalue would end before its end. -/
structure DebugInfo.WellFormed (info : DebugInfo) (instructions upvalues : Nat) : Prop
    extends info.Coherent instructions upvalues where
  lines : ∀ line ∈ info.lines, line.toNat < Endian.span info.lineWidth
  upvalue_names : ∀ name ∈ info.upvalueNames, 0 ∉ name

/-- The rules for the body of a prototype; those for its debug block hold only if the
block goes into the dump. -/
structure Body.WellFormed (table : OpcodeTable) (debug : Bool) (b : Body) : Prop where
  upvalue_count : b.upvalues.length ≤ 255
  upvalues : ∀ u ∈ b.upvalues, u.index ≤ 0x3FFF
  code : ∀ i ∈ b.code, i.slots = table.slots i.opcode
  debug : debug → ∀ info, b.debug = some info →
    info.WellFormed b.code.length b.upvalues.length

/-- The child constants name each child once and no other. -/
def Prototype.NamesEachChild (p : Prototype) : Prop :=
  ∀ index, p.body.childIndices.count index = if index < p.children.length then 1 else 0

/-- The rules for a script. -/
structure Script.WellFormed (table : OpcodeTable) (s : Script) : Prop where
  version : s.version = 2
  children : ∀ x ∈ s.walk, x.2.NamesEachChild
  bodies : ∀ x ∈ s.walk, x.2.body.WellFormed table s.hasDebug

/-! ## The sizes -/

/-- The lists of the body, its constants, the debug block that goes into the dump and the
body itself have sizes that fit 32 bits. -/
structure Body.SizesFit (layout : Layout) (b : Body) : Prop where
  constants_length : b.constants.length < 0x100000000
  numbers_length : b.numbers.length < 0x100000000
  code_length : b.code.length < 0x100000000
  constants : ∀ k ∈ b.constants, k.Fits
  debug_length : ∀ info, b.kept layout = some info →
    (info.written layout.endian).length < 0x100000000
  length : (b.written layout).length < 0x100000000

/-- The chunk name, if it goes into the dump, and every body have sizes that fit. -/
structure Script.SizesFit (s : Script) : Prop where
  chunkName : s.hasDebug → s.chunkName.length < 0x100000000
  bodies : ∀ x ∈ s.walk, x.2.body.SizesFit s.layout

/-! ## Bodies -/

theorem LocalName.fits_iff {name : LocalName} : name.Fits ↔ name.WellFormed := by
  cases name with
  | loop v => exact Iff.rfl
  | named bytes =>
    refine ⟨?_, And.right⟩
    intro h
    refine ⟨?_, h⟩
    rintro rfl
    exact absurd h.1 (by decide)

theorem LocalVariable.fitAll_iff {previous : UInt32} {vs : List LocalVariable} :
    FitAll previous vs ↔
      (∀ v ∈ vs, v.name.WellFormed) ∧ (previous :: vs.map first).Pairwise (· ≤ ·) := by
  induction vs generalizing previous with
  | nil => simp [FitAll]
  | cons v vs ih =>
    rw [FitAll, ih, LocalName.fits_iff, List.forall_mem_cons, List.map_cons,
      List.pairwise_cons_cons_iff_of_trans]
    tauto

namespace DebugInfo

theorem fits_iff {info : DebugInfo} {instructions upvalues : Nat} :
    info.Fits instructions upvalues ↔ info.WellFormed instructions upvalues := by
  have hlocals : LocalVariable.FitAll 0 info.locals ↔ (∀ v ∈ info.locals, v.name.WellFormed) ∧
      (info.locals.map LocalVariable.first).Pairwise (· ≤ ·) := by
    rw [LocalVariable.fitAll_iff, List.pairwise_cons]
    simp
  refine ⟨?_, ?_⟩
  · rintro ⟨hlines, hnames, hfit, hzero, hvariables⟩
    obtain ⟨hlocal, hscopes⟩ := hlocals.1 hvariables
    exact ⟨⟨hlines, hnames, hlocal, hscopes⟩, hfit, hzero⟩
  · rintro ⟨⟨hlines, hnames, hlocal, hscopes⟩, hfit, hzero⟩
    exact ⟨hlines, hnames, hfit, hzero, hlocals.2 ⟨hlocal, hscopes⟩⟩

end DebugInfo

namespace Body

theorem kept_eq_some {layout : Layout} {b : Body} {info : DebugInfo} :
    b.kept layout = some info ↔ layout.debug ∧ b.debug = some info := by
  unfold kept
  cases layout.debug <;> simp

/-- A record fits if the body keeps the rules and its sizes fit. -/
theorem recordFits_iff {table : OpcodeTable} {layout : Layout} {b : Body} :
    b.RecordFits table layout ↔ b.WellFormed table layout.debug ∧ b.SizesFit layout := by
  refine ⟨?_, ?_⟩
  · rintro ⟨h, hlength⟩
    refine ⟨⟨Nat.le_of_lt_succ h.upvalues_length, h.upvalues, h.code, ?_⟩,
      ⟨h.constants_length, h.numbers_length, h.code_length, h.constants, h.debug_length, hlength⟩⟩
    intro hdebug info hinfo
    exact DebugInfo.fits_iff.1 (h.debug info (kept_eq_some.2 ⟨hdebug, hinfo⟩))
  · rintro ⟨h, hsizes⟩
    refine ⟨⟨Nat.lt_succ_of_le h.upvalue_count, hsizes.constants_length, hsizes.numbers_length,
      hsizes.code_length, ?_, hsizes.debug_length, h.code, h.upvalues, hsizes.constants⟩,
      hsizes.length⟩
    intro info hkept
    obtain ⟨hdebug, hinfo⟩ := kept_eq_some.1 hkept
    exact DebugInfo.fits_iff.2 (h.debug hdebug info hinfo)

end Body

/-! ## Trees -/

namespace Prototype

theorem perm_range_iff_count {indices : List Nat} {n : Nat} :
    indices.Perm (List.range n) ↔ ∀ index, indices.count index = if index < n then 1 else 0 := by
  rw [List.perm_iff_count]
  refine forall_congr' fun index => ?_
  have hcount : (List.range n).count index = if index < n then 1 else 0 := by
    rw [List.nodup_range.count]
    simp
  rw [hcount]

theorem mem_walkList_iff {path : Path} {index : Nat} {ps : List Prototype}
    {x : Path × Prototype} :
    x ∈ walkList path index ps ↔ ∃ (k : Nat) (p : Prototype),
      ps[k]? = some p ∧ x ∈ p.walk (path.child (index + k)) := by
  refine ⟨mem_walkList, ?_⟩
  rintro ⟨k, p, hp, hx⟩
  induction ps generalizing index k with
  | nil => cases hp
  | cons q qs ih =>
    rw [walkList, List.mem_append]
    cases k with
    | zero =>
      cases hp
      exact .inl hx
    | succ k =>
      refine .inr (ih k hp ?_)
      rwa [Nat.add_assoc, Nat.add_comm 1 k]

/-- What holds of every prototype of a tree holds of its root and of those below each
child. -/
theorem forall_walk_node {P : Path × Prototype → Prop} {b : Body} {parent : Option Path}
    {children : List Prototype} {path : Path} :
    (∀ x ∈ (node b parent children).walk path, P x) ↔ P (path, node b parent children) ∧
      ∀ (k : Nat) (c : Prototype), children[k]? = some c → ∀ x ∈ c.walk (path.child k), P x := by
  rw [walk, List.forall_mem_cons]
  refine and_congr_right fun _ => ⟨?_, ?_⟩
  · intro h k c hc x hx
    refine h x (mem_walkList_iff.2 ⟨k, c, hc, ?_⟩)
    rwa [Nat.zero_add]
  · intro h x hx
    obtain ⟨k, c, hc, hx⟩ := mem_walkList_iff.1 hx
    rw [Nat.zero_add] at hx
    exact h k c hc x hx

theorem complete_iff {p : Prototype} (path : Path) :
    p.Complete ↔ ∀ x ∈ p.walk path, x.2.NamesEachChild := by
  induction p using induct generalizing path with
  | node b parent children ih =>
    rw [forall_walk_node]
    refine ⟨?_, ?_⟩
    · rintro ⟨_, _, _, named, below⟩
      refine ⟨perm_range_iff_count.1 named, ?_⟩
      intro k c hc
      have hmem := List.mem_of_getElem? hc
      exact (ih c hmem _).1 (below c hmem)
    · rintro ⟨hnamed, hbelow⟩
      refine .node b parent children (perm_range_iff_count.2 hnamed) ?_
      intro c hc
      obtain ⟨k, hk⟩ := List.mem_iff_getElem?.1 hc
      exact (ih c hc _).2 (hbelow k c hk)

/-- In a tree that names each child once, the walk comes to the prototypes that are
written. -/
theorem forall_postOrder_iff {P : Prototype → Prop} {p : Prototype} (h : p.Complete)
    (path : Path) : (∀ q ∈ p.postOrder, P q) ↔ ∀ x ∈ p.walk path, P x.2 := by
  have hperm := walk_perm_postOrder h path
  simp only [← hperm.mem_iff, List.mem_map, forall_exists_index, and_imp,
    forall_apply_eq_imp_iff₂]

end Prototype

/-! ## Scripts -/

namespace Script

theorem fits_iff {table : OpcodeTable} {s : Script} :
    s.Fits table ↔ s.WellFormed table ∧ s.SizesFit := by
  refine ⟨?_, ?_⟩
  · rintro ⟨hversion, hname, hcomplete, hrecords⟩
    have hall := (Prototype.forall_postOrder_iff
      (P := fun q => q.body.RecordFits table s.layout) hcomplete .root).1 hrecords
    refine ⟨⟨hversion, (Prototype.complete_iff .root).1 hcomplete, ?_⟩, hname, ?_⟩
    · intro x hx
      exact (Body.recordFits_iff.1 (hall x hx)).1
    · intro x hx
      exact (Body.recordFits_iff.1 (hall x hx)).2
  · rintro ⟨⟨hversion, hchildren, hbodies⟩, hname, hsizes⟩
    have hcomplete := (Prototype.complete_iff .root).2 hchildren
    refine ⟨hversion, hname, hcomplete, ?_⟩
    refine (Prototype.forall_postOrder_iff
      (P := fun q => q.body.RecordFits table s.layout) hcomplete .root).2 ?_
    intro x hx
    exact Body.recordFits_iff.2 ⟨hbodies x hx, hsizes x hx⟩

/-! ## The law -/

/-- Just those scripts are written that keep the rules and whose sizes fit. A script that
is not written is refused for its version, for a part of its tree, or for a debug list of
the wrong length. -/
theorem just_the_well_formed_are_written (table : OpcodeTable) (s : Script) :
    let written := encode table s
    ((∃ bytes, written = .ok bytes) ↔ s.WellFormed table ∧ s.SizesFit) ∧
      ∀ fault, written = .error fault →
        (s.version ≠ 2 ∧ fault = .version s.version) ∨ (∃ cause, fault = .invalidGraph cause) ∨
          ∃ list expected found, fault = .debugCount list expected found := by
  refine ⟨?_, ?_⟩
  · rw [← fits_iff]
    refine ⟨?_, fun h => ⟨s.written, encode_eq_ok.2 ⟨h, rfl⟩⟩⟩
    rintro ⟨bytes, h⟩
    exact (encode_eq_ok.1 h).1
  · intro fault h
    rcases encode_eq_error h with hversion | ⟨cause⟩ | ⟨list, expected, found⟩
    · exact .inl hversion
    · exact .inr (.inl ⟨cause, rfl⟩)
    · exact .inr (.inr ⟨list, expected, found, rfl⟩)

/-- A function with a child that no constant names. -/
def orphanScript : Script where
  root := .node {} none [.empty]

theorem orphanScript_is_refused :
    (∃ cause, encode bareTable orphanScript = .error (.invalidGraph cause)) ∧
      ¬(orphanScript.WellFormed bareTable ∧ orphanScript.SizesFit) := by
  have hrefused : encode bareTable orphanScript =
      .error (.invalidGraph (.at .root (.childUnnamed 0))) := by decide +kernel
  obtain ⟨haccepted, hfaults⟩ := just_the_well_formed_are_written bareTable orphanScript
  refine ⟨?_, ?_⟩
  · rcases hfaults _ hrefused with ⟨hversion, -⟩ | ⟨cause, h⟩ | ⟨_, _, _, h⟩
    · exact absurd rfl hversion
    · exact ⟨cause, h ▸ hrefused⟩
    · cases h
  · rw [← haccepted, hrefused]
    rintro ⟨bytes, h⟩
    cases h

end Script

end BytecodeDump
