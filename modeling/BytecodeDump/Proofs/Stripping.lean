-- Stripping and dumps. A stripped script is written if the script was; its dump decodes to
-- what the dump of the script decodes to, stripped; and it is shorter, by a byte for the
-- chunk name and one for each prototype, unless the script was stripped before.
import BytecodeDump.Proofs.ReadBack

namespace BytecodeDump

/-! ## Flags -/

/-- Low bits that are set take no byte more. -/
theorem Leb128.length_encode_or {n m : Nat} (h : m < 128) :
    (encode (n ||| m)).length ≤ (encode n).length := by
  by_cases hn : n < 128
  · have hor : n ||| m < 128 := Nat.or_lt_two_pow (n := 7) hn h
    rw [encode_of_lt hor, encode_of_lt hn]
    simp
  · have hle : n ≤ n ||| m := Nat.left_le_or
    have hhigh : (n ||| m) / 128 = n / 128 := by
      have hdiv : (n ||| m) / 2 ^ 7 = n / 2 ^ 7 ||| m / 2 ^ 7 := Nat.or_div_two_pow
      rw [show m / 2 ^ 7 = 0 from Nat.div_eq_of_lt h, Nat.or_zero] at hdiv
      exact hdiv
    have hge : 128 ≤ n := Nat.not_lt.1 hn
    rw [length_encode_of_ge (le_trans hge hle), length_encode_of_ge hge, hhigh]

namespace ScriptFlags

theorem or_and_bits (u v w : UInt32) : (u ||| v) &&& w = u &&& w ||| v &&& w :=
  UInt32.toBitVec_inj.1 BitVec.and_or_distrib_right

theorem or_of_and {u v : UInt32} (h : u &&& v = v) : u ||| v = u := by
  rw [← h]
  apply eq_of_bits
  intro n _
  simp only [UInt32.toBitVec_and, UInt32.toBitVec_or, BitVec.getLsbD_and, BitVec.getLsbD_or]
  cases u.toBitVec.getLsbD n with
  | false => rfl
  | true => rfl

theorem insert_of_has {f : ScriptFlags} {bit : UInt32} (h : f.has bit = true) :
    f.insert bit = f :=
  congrArg ScriptFlags.mk (or_of_and (of_decide_eq_true h))

theorem has_insert (f : ScriptFlags) (bit : UInt32) : (f.insert bit).has bit = true := by
  refine decide_eq_true ?_
  rw [insert, or_and_bits, UInt32.and_self, UInt32.or_comm]
  exact or_of_and (by rw [UInt32.and_comm, UInt32.and_assoc, UInt32.and_self])

theorem has_insert_of_disjoint (f : ScriptFlags) {bit other : UInt32} (h : bit &&& other = 0) :
    (f.insert bit).has other = f.has other := by
  rw [has, has, insert, or_and_bits, h, UInt32.or_zero]

end ScriptFlags

/-! ## Bodies -/

namespace Layout

/-- The layout of a dump that has no room for debug blocks. -/
def strip (layout : Layout) : Layout := { layout with debug := false }

end Layout

namespace Body

variable {table : OpcodeTable} {layout : Layout} {b : Body}

theorem childIndices_strip (b : Body) : b.strip.childIndices = b.childIndices := rfl

theorem kept_strip (layout : Layout) (b : Body) : b.strip.kept layout = none := by
  unfold kept
  split
  · rfl
  · rfl

theorem readBack_strip (layout : Layout) (b : Body) :
    b.strip.readBack layout.strip = (b.readBack layout).strip := by
  rw [readBack, kept_strip]
  rfl

/-- The header of the debug block takes at least a byte where there is room for it. -/
theorem length_writtenDebugHeader (layout : Layout) (b : Body) :
    (if layout.debug then 1 else 0) ≤ (b.writtenDebugHeader layout).length := by
  unfold writtenDebugHeader kept
  cases layout.debug with
  | false => exact Nat.zero_le _
  | true =>
    cases b.debug with
    | none => exact Nat.le_refl 1
    | some info =>
      have := Leb128.length_encode_pos (info.written layout.endian).length
      simp only [if_true, List.length_append]
      omega

theorem length_written_strip (layout : Layout) (b : Body) :
    (b.strip.written layout.strip).length + (if layout.debug then 1 else 0) ≤
      (b.written layout).length := by
  have hheader : b.strip.writtenDebugHeader layout.strip = [] := by
    rw [writtenDebugHeader, kept_strip]
    rfl
  have hblock : b.strip.writtenBlock layout.strip = [] := by
    rw [writtenBlock, kept_strip]
    rfl
  have hcounts : b.strip.writtenCounts = b.writtenCounts := rfl
  have := length_writtenDebugHeader layout b
  rw [written, written, hheader, hblock, hcounts]
  simp only [strip, Layout.strip, List.length_append, List.length_nil]
  omega

theorem length_record_strip (layout : Layout) (b : Body) :
    (b.strip.record layout.strip).length + (if layout.debug then 1 else 0) ≤
      (b.record layout).length := by
  have hwritten := length_written_strip layout b
  have hmono : (Leb128.encode (b.strip.written layout.strip).length).length ≤
      (Leb128.encode (b.written layout).length).length :=
    Leb128.length_encode_mono (by omega)
  rw [record, record, List.length_append, List.length_append]
  omega

theorem recordFits_strip (h : b.RecordFits table layout) :
    b.strip.RecordFits table layout.strip := by
  obtain ⟨hfits, hlength⟩ := h
  have hwritten := length_written_strip layout b
  refine ⟨{ hfits with debug := ?_, debug_length := ?_ }, by omega⟩
  · rw [kept_strip]
    intro info h
    cases h
  · rw [kept_strip]
    intro info h
    cases h

/-- Where there is no room for debug blocks, nothing changes. -/
theorem record_strip (h : layout.debug = false) (b : Body) :
    b.strip.record layout = b.record layout := by
  have hkept : b.kept layout = none := if_neg (by simp [h])
  simp only [record, written, writtenDebugHeader, writtenBlock, kept_strip, hkept]
  rfl

end Body

/-! ## Trees -/

namespace Prototype

variable {table : OpcodeTable} {layout : Layout} {p : Prototype}

theorem Fits.strip (h : p.Fits table layout) : p.strip.Fits table layout.strip := by
  rw [strip_eq_mapBodies]
  exact h.mapBodies Body.childIndices_strip fun _ => Body.recordFits_strip

theorem bodies_strip (p : Prototype) :
    p.strip.postOrder.map body = (p.postOrder.map body).map Body.strip := by
  rw [strip_eq_mapBodies, bodies_mapBodies Body.childIndices_strip]

theorem written_strip (h : layout.debug = false) (p : Prototype) :
    p.strip.written layout = p.written layout := by
  rw [written_eq_flatMap, written_eq_flatMap, bodies_strip, List.flatMap_map]
  exact List.flatMap_congr fun b _ => b.record_strip h

/-- Each record is shorter by at least a byte. -/
theorem length_written_strip (h : layout.debug = true) (p : Prototype) :
    (p.strip.written layout.strip).length + p.postOrder.length ≤ (p.written layout).length := by
  have hbodies : ∀ bs : List Body, (bs.flatMap fun b => b.strip.record layout.strip).length +
      bs.length ≤ (bs.flatMap (Body.record layout)).length := by
    intro bs
    induction bs with
    | nil => exact Nat.le_refl 0
    | cons b bs ih =>
      have hrecord := b.length_record_strip layout
      rw [h, if_pos rfl] at hrecord
      simp only [List.flatMap_cons, List.length_append, List.length_cons]
      omega
  have hall := hbodies (p.postOrder.map body)
  rw [List.length_map] at hall
  rw [written_eq_flatMap, written_eq_flatMap, bodies_strip, List.flatMap_map]
  exact hall

end Prototype

/-! ## Scripts -/

namespace Script

variable {table : OpcodeTable} {s : Script}

theorem hasDebug_stripDebug (s : Script) : s.stripDebug.hasDebug = false := by
  rw [hasDebug, stripDebug, ScriptFlags.has_insert]
  rfl

theorem layout_stripDebug (s : Script) : s.stripDebug.layout = s.layout.strip := by
  have hbig : s.stripDebug.flags.has ScriptFlags.bigEndian = s.flags.has ScriptFlags.bigEndian :=
    ScriptFlags.has_insert_of_disjoint s.flags (by decide)
  have hendian : s.stripDebug.endian = s.endian := by rw [endian, hbig, endian]
  rw [layout, hasDebug_stripDebug, hendian]
  rfl

theorem fits_stripDebug (h : s.Fits table) : s.stripDebug.Fits table where
  version := h.version
  chunkName_length := fun hdebug => by
    rw [hasDebug_stripDebug] at hdebug
    cases hdebug
  root := by
    rw [layout_stripDebug]
    exact h.root.strip

/-- The form of a stripped script, part by part. -/
theorem written_stripDebug (s : Script) :
    s.stripDebug.written = magic ++ ([s.version] ++ Output.leb32 s.stripDebug.flags.bits)
      ++ s.root.strip.written s.layout.strip ++ [0] := by
  have hname : writtenChunkName false s.stripDebug.chunkName = [] := rfl
  rw [written, writtenHeader, writtenHead, hasDebug_stripDebug, layout_stripDebug, hname,
    List.append_nil]
  rfl

theorem written_stripDebug_of_stripped (h : s.hasDebug = false) :
    s.stripDebug.written = s.written := by
  have hflags : s.stripDebug.flags = s.flags :=
    ScriptFlags.insert_of_has (by simpa [hasDebug] using h)
  have hroot : s.root.strip.written s.layout.strip = s.root.written s.layout := by
    have hlayout : s.layout.strip = s.layout := by
      rw [layout, h]
      rfl
    rw [hlayout]
    exact Prototype.written_strip h s.root
  have hname : writtenChunkName false s.chunkName = [] := rfl
  rw [written_stripDebug, hflags, hroot, written, writtenHeader, writtenHead, h, hname,
    List.append_nil]

/-- The bit that is set takes no byte, the chunk name took at least one, and so did each
prototype. -/
theorem length_written_stripDebug (h : s.Fits table) (hdebug : s.hasDebug = true) :
    s.stripDebug.written.length + 1 + s.walk.length ≤ s.written.length := by
  have hflags : (Output.leb32 s.stripDebug.flags.bits).length ≤
      (Output.leb32 s.flags.bits).length := by
    have hbits : s.stripDebug.flags.bits.toNat =
        s.flags.bits.toNat ||| ScriptFlags.stripDebug.toNat := UInt32.toNat_or _ _
    rw [Output.leb32, Output.leb32, hbits]
    exact Leb128.length_encode_or (by decide)
  have hname : 1 ≤ (writtenChunkName s.hasDebug s.chunkName).length := by
    have := Leb128.length_encode_pos s.chunkName.length
    rw [writtenChunkName, hdebug, if_pos rfl, List.length_append]
    omega
  have hroot := s.root.length_written_strip (show s.layout.debug = true from hdebug)
  have hwalk : s.walk.length = s.root.postOrder.length := by
    rw [← (Prototype.walk_perm_postOrder h.root.complete .root).length_eq, List.length_map]
    rfl
  rw [written_stripDebug, written, writtenHeader, writtenHead]
  simp only [List.length_append]
  omega

/-- Stripping before the script is written or after it is read back comes to the same. -/
theorem readBack_stripDebug (table : OpcodeTable) (s : Script) :
    s.stripDebug.readBack table = (s.readBack table).stripDebug := by
  have hroot : ((s.root.strip.mapBodies (Body.reread table)).readBack s.layout.strip).link none
        .root =
      (((s.root.mapBodies (Body.reread table)).readBack s.layout).link none .root).strip := by
    rw [Prototype.strip_eq_mapBodies, Prototype.strip_eq_mapBodies, ← Prototype.link_mapBodies,
      ← Prototype.readBack_mapBodies Body.childIndices_strip (Body.readBack_strip s.layout),
      Prototype.mapBodies_mapBodies, Prototype.mapBodies_mapBodies]
    rfl
  rw [readBack, headBack, hasDebug_stripDebug, layout_stripDebug]
  exact congrArg (fun root => { s.stripDebug with root := root }) hroot

/-! ## The law -/

/-- A script that is written is written also after stripping, and its dump decodes to what
the dump of the script decodes to, stripped. It has the same bytes if the script had no
debug blocks to begin with; otherwise it is shorter. -/
theorem stripping_commutes_with_dumps {table : OpcodeTable} {s : Script} {bytes : Bytes}
    (hconstants : ∀ x ∈ s.walk, ∀ k ∈ x.2.body.constants, k.Keyed)
    (h : encode table s = .ok bytes) :
    ∃ stripped s', encode table s.stripDebug = .ok stripped ∧ decode table bytes = .ok s' ∧
      decode table stripped = .ok s'.stripDebug ∧
      (s.hasDebug = false → stripped = bytes) ∧
      (s.hasDebug = true → stripped.length + 1 + s.walk.length ≤ bytes.length) := by
  obtain ⟨hfits, rfl⟩ := encode_eq_ok.1 h
  have hkeyed := hfits.keyed hconstants
  have hstripped : ∀ q ∈ s.stripDebug.root.postOrder, ∀ k ∈ q.body.constants, k.Keyed := by
    rw [stripDebug, Prototype.strip_eq_mapBodies]
    exact (Prototype.forall_mapBodies (P := fun b => ∀ k ∈ b.constants, k.Keyed)
      Body.childIndices_strip).2 hkeyed
  have hfits' := fits_stripDebug hfits
  refine ⟨_, s.readBack table, encode_eq_ok.2 ⟨hfits', rfl⟩, decode_of_fits hfits hkeyed, ?_,
    written_stripDebug_of_stripped, length_written_stripDebug hfits⟩
  rw [← readBack_stripDebug]
  exact decode_of_fits hfits' hstripped

/-- A function that makes another one. It has a name and a line, the other has neither. -/
def namedScript : Script where
  flags := ⟨0⟩
  chunkName := [0x40, 0x61]
  root := .node
    { code := [⟨1, ⟨true, false, false, true⟩, 2, 0, 0, 3⟩]
      constants := [.child 0]
      debug := some { firstLine := 1, lineCount := 2, lines := [1] } }
    none [.node { maxSlot := 1 } none []]

/-- The dump of these functions. -/
def namedDump : Bytes :=
  [0x1B, 0x4C, 0x4A, 2, 0, 2, 0x40, 0x61, 8, 0, 0, 1, 0, 0, 0, 0, 0, 17, 0, 0, 0, 0, 1, 0, 1, 2, 1,
    2, 1, 2, 3, 0, 0, 1, 0, 0]

theorem namedScript_is_stripped : encode pairTable namedScript = .ok namedDump ∧
    ∃ stripped s', encode pairTable namedScript.stripDebug = .ok stripped ∧
      decode pairTable namedDump = .ok s' ∧ decode pairTable stripped = .ok s'.stripDebug ∧
      stripped.length + 1 + 2 ≤ namedDump.length := by
  have hencode : encode pairTable namedScript = .ok namedDump := by decide +kernel
  have hconstants : ∀ x ∈ namedScript.walk, ∀ k ∈ x.2.body.constants, k.Keyed := by decide +kernel
  obtain ⟨stripped, s', hstripped, hdecode, hback, -, hshorter⟩ :=
    stripping_commutes_with_dumps hconstants hencode
  exact ⟨hencode, stripped, s', hstripped, hdecode, hback, hshorter rfl⟩

end Script

end BytecodeDump
