-- What any script that was written is read back as, also where declared operands overlap.
-- A word then does not tell the operands apart, and each of them is read from the bits of
-- all; but the word stays the same, so what is read back is written as the script was.
import BytecodeDump.Proofs.Bodies
import BytecodeDump.Proofs.NormalForm

namespace BytecodeDump

/-! ## Instructions -/

namespace Instruction

/-- An instruction with the operands of its opcode sets no bit that these do not declare. -/
theorem declared_toWord {table : OpcodeTable} {i : Instruction}
    (h : i.slots = table.slots i.opcode) : table.declared i.toWord = i.toWord := by
  apply eq_of_bits
  intro n hn
  rw [bit_declared table _ hn, toWord_opcode, ← h, Bool.and_eq_left_iff_imp, bit_toWord i hn]
  -- Each bit that is set comes from the opcode or from a declared field.
  simp only [Bool.or_eq_true, Bool.and_eq_true, decide_eq_true_eq]
  rintro ((((hop | ⟨ha, hle, hbit⟩) | ⟨hb, hle, -⟩) | ⟨hc, hle, hbit⟩) | ⟨hd, hle, -⟩)
  · exact .inl (.inl (.inl (.inl (BitVec.lt_of_getLsbD hop))))
  · have := BitVec.lt_of_getLsbD hbit
    exact .inl (.inl (.inl (.inr ⟨ha, hle, by omega⟩)))
  · exact .inl (.inl (.inr ⟨hb, hle⟩))
  · have := BitVec.lt_of_getLsbD hbit
    exact .inl (.inr ⟨hc, hle, by omega⟩)
  · exact .inr ⟨hd, hle⟩

/-- The instruction that its word is read back as. -/
def reread (table : OpcodeTable) (i : Instruction) : Instruction := ofWord table i.toWord

theorem toWord_reread {table : OpcodeTable} {i : Instruction}
    (h : i.slots = table.slots i.opcode) : (i.reread table).toWord = i.toWord := by
  rw [reread, toWord_ofWord, declared_toWord h]

end Instruction

/-! ## Constants -/

namespace Constant

/-- Which children the constants name is not written. -/
theorem map_written {ks ks' : List Constant} (h : List.Forall₂ StandsFor ks ks') :
    ks'.map written = ks.map written := by
  induction h with
  | nil => rfl
  | cons hk _ ih =>
    rw [List.map_cons, List.map_cons, ih]
    obtain rfl | ⟨index, index', rfl, rfl⟩ := hk
    · rfl
    · rfl

theorem fits_of_standsFor {ks ks' : List Constant} (h : List.Forall₂ StandsFor ks ks')
    (hfits : ∀ k ∈ ks, k.Fits) : ∀ k ∈ ks', k.Fits := by
  induction h with
  | nil => exact hfits
  | @cons k k' _ _ hk _ ih =>
    rw [List.forall_mem_cons] at hfits ⊢
    refine ⟨?_, ih hfits.2⟩
    obtain rfl | ⟨index, index', rfl, rfl⟩ := hk
    · exact hfits.1
    · exact ⟨hfits.1.tag, fun _ ht => by cases ht⟩

end Constant

/-! ## Bodies -/

namespace Body

variable {table : OpcodeTable} {layout : Layout} {b : Body}

section Constants

variable {ks : List Constant} (h : List.Forall₂ Constant.StandsFor b.constants ks)

include h

/-- Bodies that name their children by other numbers are written the same. -/
theorem written_of_standsFor :
    ({ b with constants := ks } : Body).written layout = b.written layout := by
  have hforms : ks.reverse.flatMap Constant.written =
      b.constants.reverse.flatMap Constant.written := by
    rw [List.flatMap_def, List.flatMap_def, List.map_reverse, List.map_reverse,
      Constant.map_written h]
  unfold written writtenCounts
  rw [← hforms, h.length_eq]
  rfl

theorem record_of_standsFor :
    ({ b with constants := ks } : Body).record layout = b.record layout := by
  rw [record, record, written_of_standsFor h]

theorem recordFits_of_standsFor (hb : b.RecordFits table layout) :
    ({ b with constants := ks } : Body).RecordFits table layout := by
  obtain ⟨hfits, hlength⟩ := hb
  refine ⟨{ hfits with constants_length := ?_, constants := ?_ }, ?_⟩
  · rw [← h.length_eq]
    exact hfits.constants_length
  · exact Constant.fits_of_standsFor h hfits.constants
  · rw [written_of_standsFor h]
    exact hlength

end Constants

/-- What is left out of a dump is not missed when the body is written once more. -/
theorem record_readBack (layout : Layout) (b : Body) :
    (b.readBack layout).record layout = b.record layout := by
  have hkept : ({ b with debug := b.kept layout } : Body).kept layout = b.kept layout := by
    unfold kept
    split
    · rfl
    · rfl
  have hrecord : ({ b with debug := b.kept layout } : Body).record layout = b.record layout := by
    simp only [record, written, writtenDebugHeader, writtenBlock, hkept]
    rfl
  rw [← hrecord]
  exact record_of_standsFor (b := { b with debug := b.kept layout })
    (Constant.standsFor_countDown b.constants)

/-! ### Instructions -/

/-- The body with each instruction as its word is read back. -/
def reread (table : OpcodeTable) (b : Body) : Body :=
  { b with code := b.code.map (Instruction.reread table) }

theorem childIndices_reread (table : OpcodeTable) (b : Body) :
    (b.reread table).childIndices = b.childIndices := rfl

theorem written_reread (h : ∀ i ∈ b.code, i.slots = table.slots i.opcode) :
    (b.reread table).written layout = b.written layout := by
  have hcode : (b.code.map (Instruction.reread table)).flatMap
        (fun i => layout.endian.write 4 i.toWord.toNat) =
      b.code.flatMap fun i => layout.endian.write 4 i.toWord.toNat := by
    rw [List.flatMap_map]
    refine List.flatMap_congr fun i hi => ?_
    rw [Instruction.toWord_reread (h i hi)]
  unfold written writtenCounts reread
  rw [hcode, List.length_map]
  rfl

theorem record_reread (h : ∀ i ∈ b.code, i.slots = table.slots i.opcode) :
    (b.reread table).record layout = b.record layout := by
  rw [record, record, written_reread h]

theorem recordFits_reread (h : b.RecordFits table layout) :
    (b.reread table).RecordFits table layout := by
  obtain ⟨hfits, hlength⟩ := h
  have hcount : (b.reread table).code.length = b.code.length := List.length_map _
  refine ⟨{ hfits with code_length := ?_, debug := ?_, code := ?_ }, ?_⟩
  · rw [hcount]
    exact hfits.code_length
  · rw [hcount]
    exact hfits.debug
  · intro i hi
    obtain ⟨j, -, rfl⟩ := List.mem_map.1 hi
    rfl
  · rw [written_reread hfits.code]
    exact hlength

/-- What was read back is not changed by reading it back. -/
theorem stable_reread (h : ∀ i ∈ b.code, i.slots = table.slots i.opcode)
    (hconstants : ∀ k ∈ b.constants, k.Keyed) : (b.reread table).Stable table where
  code := by
    intro i hi
    obtain ⟨j, hj, rfl⟩ := List.mem_map.1 hi
    rw [Instruction.toWord_reread (h j hj)]
    rfl
  constants := hconstants

end Body

/-! ## Scripts -/

namespace Script

variable {table : OpcodeTable} {s : Script}

/-- The script with each instruction as its word is read back. -/
def reread (table : OpcodeTable) (s : Script) : Script :=
  { s with root := s.root.mapBodies (Body.reread table) }

/-- What a script that was written is read back as. -/
def readBack (table : OpcodeTable) (s : Script) : Script :=
  linkParents { s.headBack with root := (s.reread table).root.readBack s.layout }

theorem fits_reread (h : s.Fits table) : (s.reread table).Fits table where
  version := h.version
  chunkName_length := h.chunkName_length
  root := h.root.mapBodies (Body.childIndices_reread table) fun _ => Body.recordFits_reread

theorem written_root_reread (h : s.Fits table) :
    (s.reread table).root.written s.layout = s.root.written s.layout := by
  have hbodies := Prototype.bodies_mapBodies (Body.childIndices_reread table) s.root
  rw [Prototype.written_eq_flatMap, Prototype.written_eq_flatMap, reread, hbodies,
    List.flatMap_map]
  refine List.flatMap_congr fun b hb => ?_
  obtain ⟨q, hq, rfl⟩ := List.mem_map.1 hb
  exact Body.record_reread (h.root.records q hq).1.code

/-- The records hold the constants that a walk finds. -/
theorem Fits.keyed (h : s.Fits table)
    (hconstants : ∀ x ∈ s.walk, ∀ k ∈ x.2.body.constants, k.Keyed) :
    ∀ q ∈ s.root.postOrder, ∀ k ∈ q.body.constants, k.Keyed :=
  (Prototype.forall_postOrder_iff (P := fun q => ∀ k ∈ q.body.constants, k.Keyed)
    h.root.complete .root).2 hconstants

/-- A script that fits is read back, for any table. -/
theorem decode_of_fits (h : s.Fits table)
    (hkeyed : ∀ q ∈ s.root.postOrder, ∀ k ∈ q.body.constants, k.Keyed) :
    decode table s.written = .ok (s.readBack table) := by
  have hstable : ∀ q ∈ (s.reread table).root.postOrder, q.body.Stable table := by
    refine (Prototype.forall_mapBodies (Body.childIndices_reread table)).2 fun q hq => ?_
    exact Body.stable_reread (h.root.records q hq).1.code (hkeyed q hq)
  have hwritten : (s.reread table).written = s.written :=
    congrArg (fun root => s.writtenHeader ++ root ++ [0]) (written_root_reread h)
  rw [← hwritten]
  exact decode_written (fits_reread h) hstable

/-- What is read back is written as the script was. -/
theorem written_readBack (h : s.Fits table) : (s.readBack table).written = s.written := by
  have hheader : (s.readBack table).writtenHeader = s.writtenHeader := by
    have hname : writtenChunkName s.hasDebug (if s.hasDebug then s.chunkName else []) =
        writtenChunkName s.hasDebug s.chunkName := by
      cases s.hasDebug with
      | false => rfl
      | true => rfl
    exact congrArg (fun name => magic ++ ([s.version] ++ (Output.leb32 s.flags.bits ++ name))) hname
  have hroot : (s.readBack table).root.written s.layout = s.root.written s.layout := by
    calc (s.readBack table).root.written s.layout
        = ((s.reread table).root.bodiesBack s.layout).flatMap (Body.record s.layout) := by
          rw [Prototype.written_eq_flatMap,
            ← Prototype.bodies_readBack (fits_reread h).root.complete]
          exact congrArg _ (Prototype.bodies_link _ _ _)
      _ = (s.reread table).root.written s.layout := by
          rw [Prototype.bodiesBack, List.flatMap_map, Prototype.written]
          exact List.flatMap_congr fun q _ => Body.record_readBack s.layout q.body
      _ = s.root.written s.layout := written_root_reread h
  exact congrArg₂ (fun header root => header ++ root ++ [0]) hheader hroot

end Script

end BytecodeDump
