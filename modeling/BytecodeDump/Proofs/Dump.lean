-- The laws of whole dumps: a header, records, and a zero. When a script fits into a
-- dump, its form, and what any list of records after any header decodes to.
import BytecodeDump.Proofs.Stack
import BytecodeDump.Wire.Dump

namespace BytecodeDump

open Reader Output

namespace Script

/-! ## Headers and trees -/

/-- Reads the version, the flags and the chunk name. -/
def readHeader : Reader Script := do
  let version ← Reader.byte
  if version ≠ formatVersion then Reader.fail fun _ => .version version
  else
    let header ← readFlags
    let chunkName ← readChunkName header.hasDebug
    return { header with chunkName }

/-- Reads the records and puts the tree that they make below the header. -/
def readTree (table : OpcodeTable) (head : Script) : Reader Script := do
  let stack ← Prototype.readAll table head.layout (← Reader.left) []
  let trailing ← Reader.left
  if trailing ≠ 0 then Reader.fail fun _ => .corrupted (.trailing trailing)
  else match stack with
    | [root] => return linkParents { head with root }
    | _ => Reader.fail fun _ => .corrupted (.roots stack.length)

theorem read_eq (table : OpcodeTable) : read table = readHeader >>= readTree table := by
  unfold read readHeader
  rw [bind_assoc]
  congr 1
  funext version
  split
  · rfl
  · simp only [bind_assoc, pure_bind]
    rfl

/-- The bytes are all that stands before the records of a dump, and say this much of
the script. -/
def IsHeader (bytes : Bytes) (head : Script) : Prop :=
  bytes.take 3 = magic ∧ readHeader ⟨3, bytes.drop 3⟩ = .ok (head, ⟨bytes.length, []⟩)

theorem local_readHeader : Local readHeader := by
  apply local_bind local_byte
  intro version
  apply local_ite (local_fail _)
  apply local_bind
  · exact local_bind local_leb32 fun _ => local_pure _
  · intro header
    refine local_bind ?_ fun _ => local_pure _
    exact local_ite (local_bind local_leb32 fun _ => local_bytes _) (local_pure _)

theorem IsHeader.reads {bytes : Bytes} {head : Script} (h : IsHeader bytes head) :
    Reads readHeader (bytes.drop 3) head := by
  obtain ⟨taken, hrest, -, hreads⟩ := local_readHeader _ _ _ h.2
  have htaken : bytes.drop 3 = taken := by simpa using hrest
  rw [htaken]
  exact hreads

theorem IsHeader.length_le {bytes : Bytes} {head : Script} (h : IsHeader bytes head) :
    3 ≤ bytes.length := by
  have hlength := congrArg List.length h.1
  rw [List.length_take] at hlength
  simp only [magic, List.length_cons, List.length_nil] at hlength
  omega

theorem IsHeader.decode_append {table : OpcodeTable} {bytes : Bytes} {head : Script}
    (h : IsHeader bytes head) (rest : Bytes) :
    decode table (bytes ++ rest) = (·.1) <$> readTree table head ⟨bytes.length, rest⟩ := by
  have hle := h.length_le
  have htake : (bytes ++ rest).take 3 = magic := by
    rw [List.take_append_of_le_length hle, h.1]
  have hdrop : (bytes ++ rest).drop 3 = bytes.drop 3 ++ rest :=
    List.drop_append_of_le_length hle
  have hlength : 3 + (bytes.drop 3).length = bytes.length := by
    rw [List.length_drop]
    omega
  rw [decode, if_pos htake, read_eq, hdrop, bind_of_ok (h.reads 3 rest), hlength]
  rfl

/-- What the records after a header decode to. -/
theorem decode_records {table : OpcodeTable} {header : Bytes} {head : Script}
    {records : List Bytes} {bodies : List Body} (h : IsHeader header head)
    (hrecords : List.Forall₂ (Body.IsRecord table head.layout) records bodies) :
    decode table (header ++ (records.flatten ++ [0])) =
      match Prototype.build [] bodies with
      | none => .error .noPrototypeLeft
      | some [root] => .ok (linkParents { head with root })
      | some stack => .error (.corrupted (.roots stack.length)) := by
  have hsteps : records.length < (records.flatten ++ [0]).length := by
    have hle := Prototype.length_le_flatten hrecords
    rw [List.length_append, List.length_singleton]
    omega
  rw [h.decode_append]
  unfold readTree
  rw [left_bind]
  cases hbuild : Prototype.build [] bodies with
  | none =>
    rw [bind_of_error (Prototype.readAll_lacks hrecords hbuild hsteps.le _ _)]
    rfl
  | some stack =>
    have hall := Prototype.reads_readAll hrecords hbuild hsteps header.length []
    rw [List.append_nil] at hall
    rw [bind_of_ok hall, left_bind, List.length_nil, if_neg (not_not.2 rfl)]
    cases stack with
    | nil => rfl
    | cons root others =>
      cases others with
      | nil => rfl
      | cons _ _ => rfl

/-! ## Writing -/

/-- The form of a chunk name, where there is room for one. -/
def writtenChunkName (debug : Bool) (name : Bytes) : Bytes :=
  if debug then Leb128.encode name.length ++ name else []

/-- The form of what stands between the magic bytes and the records. -/
def writtenHead (s : Script) : Bytes :=
  [s.version] ++ (Output.leb32 s.flags.bits ++ writtenChunkName s.hasDebug s.chunkName)

/-- The form of all that stands before the records. -/
def writtenHeader (s : Script) : Bytes := magic ++ s.writtenHead

/-- The form of the script. -/
def written (s : Script) : Bytes := s.writtenHeader ++ s.root.written s.layout ++ [0]

/-- The version is that of the format, and the chunk name and the tree fit. -/
structure Fits (table : OpcodeTable) (s : Script) : Prop where
  version : s.version = formatVersion
  chunkName_length : s.hasDebug → s.chunkName.length < 0x100000000
  root : s.root.Fits table s.layout

theorem writeChunkName_eq_ok {s : Script} {out : Bytes} :
    s.writeChunkName = .ok out ↔ (s.hasDebug → s.chunkName.length < 0x100000000) ∧
      out = writtenChunkName s.hasDebug s.chunkName := by
  unfold writeChunkName writtenChunkName
  by_cases hdebug : s.hasDebug
  · simp only [hdebug, if_true, andThen_eq_ok, size_eq_ok, pure_eq_ok, forall_const]
    refine ⟨?_, ?_⟩
    · rintro ⟨_, ⟨hlt, rfl⟩, rfl⟩
      exact ⟨hlt, rfl⟩
    · rintro ⟨hlt, rfl⟩
      exact ⟨_, ⟨hlt, rfl⟩, rfl⟩
  · simp only [hdebug, if_false, pure_eq_ok, Bool.false_eq_true, false_implies, true_and]

theorem encode_eq_ok {table : OpcodeTable} {s : Script} {out : Bytes} :
    encode table s = .ok out ↔ s.Fits table ∧ out = s.written := by
  unfold encode
  by_cases hversion : s.version = formatVersion
  · simp only [hversion, ne_eq, not_true_eq_false, if_false]
    simp only [andThen_eq_ok, writeChunkName_eq_ok, Prototype.write_eq_ok, pure_eq_ok]
    refine ⟨?_, ?_⟩
    · rintro ⟨_, ⟨hname, rfl⟩, _, ⟨hroot, rfl⟩, rfl⟩
      refine ⟨⟨hversion, hname, hroot⟩, ?_⟩
      simp only [written, writtenHeader, writtenHead, hversion, List.append_assoc]
    · rintro ⟨⟨-, hname, hroot⟩, rfl⟩
      refine ⟨_, ⟨hname, rfl⟩, _, ⟨hroot, rfl⟩, ?_⟩
      simp only [written, writtenHeader, writtenHead, hversion, List.append_assoc]
  · simp only [hversion, ne_eq, not_false_eq_true, if_true]
    refine ⟨?_, ?_⟩
    · intro h
      cases h
    · rintro ⟨hfits, -⟩
      exact absurd hfits.version hversion

/-- What the header of the form says of the script. -/
def headBack (s : Script) : Script :=
  { s with chunkName := if s.hasDebug then s.chunkName else [], root := .empty }

theorem reads_chunkName {debug : Bool} {name : Bytes} (h : debug → name.length < 0x100000000) :
    Reads (readChunkName debug) (writtenChunkName debug name) (if debug then name else []) := by
  unfold readChunkName writtenChunkName
  cases debug with
  | false => exact reads_pure []
  | true =>
    apply reads_bind (reads_leb32_nat (h rfl))
    rw [UInt32.toNat_ofNat_of_lt' (h rfl)]
    exact reads_bytes name

theorem reads_head {table : OpcodeTable} {s : Script} (h : s.Fits table) :
    Reads readHeader s.writtenHead s.headBack := by
  have hflags : Reads readFlags (Output.leb32 s.flags.bits)
      { flags := ⟨s.flags.bits⟩, chunkName := [] } :=
    reads_bind_nil (reads_leb32 s.flags.bits) (reads_pure _)
  apply reads_bind (reads_byte s.version)
  rw [if_neg (not_not.2 h.version)]
  apply reads_bind hflags
  apply reads_bind_nil (reads_chunkName h.chunkName_length)
  rw [headBack, h.version]
  exact reads_pure _

theorem isHeader_writtenHeader {table : OpcodeTable} {s : Script} (h : s.Fits table) :
    IsHeader s.writtenHeader s.headBack := by
  have hall := reads_head h 3 []
  have hdrop : s.writtenHeader.drop 3 = s.writtenHead := rfl
  have hlength : 3 + s.writtenHead.length = s.writtenHeader.length := by
    rw [writtenHeader, List.length_append]
    rfl
  rw [List.append_nil, hlength] at hall
  exact ⟨rfl, hdrop ▸ hall⟩

/-- A script that fits is read back as a tree whose records are those of the script, settled. -/
theorem decode_written_as {table : OpcodeTable} {s : Script} {root : Prototype}
    (h : s.Fits table) (hcomplete : root.Complete)
    (hbodies : root.bodiesBack s.layout =
      s.root.postOrder.map fun q => (q.body.settled table).readBack s.layout) :
    decode table s.written =
      .ok (linkParents { s.headBack with root := root.readBack s.layout }) := by
  have hrecords : List.Forall₂ (Body.IsRecord table s.headBack.layout)
      (s.root.postOrder.map fun q => q.body.record s.layout) (root.bodiesBack s.layout) := by
    rw [hbodies, List.forall₂_map_left_iff, List.forall₂_map_right_iff, List.forall₂_same]
    intro q hq
    exact Body.isRecord_record (h.root.records q hq)
  have hdecode := decode_records (isHeader_writtenHeader h) hrecords
  rw [Prototype.build_bodiesBack hcomplete, ← List.flatMap_def, ← List.append_assoc] at hdecode
  exact hdecode

/-- A script that fits, and that no record changes, is read back. -/
theorem decode_written {table : OpcodeTable} {s : Script} (h : s.Fits table)
    (hstable : ∀ q ∈ s.root.postOrder, q.body.Stable table) :
    decode table s.written =
      .ok (linkParents { s.headBack with root := s.root.readBack s.layout }) := by
  apply decode_written_as h h.root.complete
  refine List.map_congr_left fun q hq => ?_
  rw [Body.settled_of_stable (hstable q hq)]

/-! ## The laws -/

/-- Some body has more child constants than there are unclaimed prototypes before it. -/
def RunsOut (bodies : List Body) : Prop :=
  ∃ (i : Nat) (h : i < bodies.length),
    Prototype.unclaimed (bodies.take i) < bodies[i].childIndices.length

theorem build_eq_none_iff {bodies : List Body} :
    Prototype.build [] bodies = none ↔ RunsOut bodies := by
  rw [Prototype.build_eq_none, RunsOut]
  simp only [List.length_nil, Nat.cast_zero, zero_add]

theorem childIndices_of_records {table : OpcodeTable} {layout : Layout} {records : List Bytes}
    {bodies : List Body} (h : List.Forall₂ (Body.IsRecord table layout) records bodies) :
    ∀ b ∈ bodies, b.childIndices = (List.range b.childIndices.length).reverse := by
  induction h with
  | nil => simp
  | cons hrecord _ ih =>
    intro b hb
    rcases List.mem_cons.1 hb with rfl | hb
    · exact hrecord.childIndices
    · exact ih b hb

section Records

variable {table : OpcodeTable} {header : Bytes} {head : Script} {records : List Bytes}
  {bodies : List Body}

theorem decode_of_runsOut (hheader : IsHeader header head)
    (hrecords : List.Forall₂ (Body.IsRecord table head.layout) records bodies)
    (hout : RunsOut bodies) :
    decode table (header ++ (records.flatten ++ [0])) = .error .noPrototypeLeft := by
  rw [decode_records hheader hrecords, build_eq_none_iff.2 hout]

/-- Enough prototypes were left for each body, and so many are left at the end. -/
theorem build_of_not_runsOut (hin : ¬RunsOut bodies) : ∃ stack,
    Prototype.build [] bodies = some stack ∧ (stack.length : Int) = Prototype.unclaimed bodies := by
  cases hbuild : Prototype.build [] bodies with
  | none => exact absurd (build_eq_none_iff.1 hbuild) hin
  | some stack =>
    have hlength := Prototype.length_of_build hbuild
    rw [List.length_nil, Nat.cast_zero, zero_add] at hlength
    exact ⟨stack, rfl, hlength⟩

theorem decode_of_unclaimed_ne (hheader : IsHeader header head)
    (hrecords : List.Forall₂ (Body.IsRecord table head.layout) records bodies)
    (hin : ¬RunsOut bodies) (hne : Prototype.unclaimed bodies ≠ 1) :
    ∃ cause, decode table (header ++ (records.flatten ++ [0])) = .error (.corrupted cause) := by
  obtain ⟨stack, hbuild, hlength⟩ := build_of_not_runsOut hin
  rw [decode_records hheader hrecords, hbuild]
  rcases stack with _ | ⟨root, _ | ⟨second, others⟩⟩
  · exact ⟨_, rfl⟩
  · exact absurd hlength.symm hne
  · exact ⟨_, rfl⟩

theorem decode_of_unclaimed_eq (hheader : IsHeader header head)
    (hrecords : List.Forall₂ (Body.IsRecord table head.layout) records bodies)
    (hin : ¬RunsOut bodies) (hone : Prototype.unclaimed bodies = 1) :
    ∃ s, decode table (header ++ (records.flatten ++ [0])) = .ok s ∧ s.version = head.version ∧
      s.flags = head.flags ∧ s.chunkName = head.chunkName ∧
      (s.walk.map (·.2)).Perm s.root.postOrder ∧ s.root.postOrder.map Prototype.body = bodies := by
  obtain ⟨stack, hbuild, hlength⟩ := build_of_not_runsOut hin
  obtain ⟨root, rfl⟩ : ∃ root, stack = [root] := by
    rw [← List.length_eq_one_iff]
    omega
  obtain ⟨hcomplete, hbodies⟩ :=
    Prototype.build_sound (childIndices_of_records hrecords) (by simp) hbuild
  have hroot := (hcomplete root (List.mem_singleton_self root)).link none .root
  refine ⟨linkParents { head with root }, ?_, rfl, rfl, rfl,
    Prototype.walk_perm_postOrder hroot _, ?_⟩
  · rw [decode_records hheader hrecords, hbuild]
  · simp only [linkParents, Prototype.bodies_link]
    simpa using hbodies

/-- Records after a header decode to the tree whose order they are in. They lack a
prototype just when a record has more child constants than the records before it left
prototypes; if not, they are corrupted just when they leave any number of prototypes
but one; and if not, each record is one prototype of the tree. -/
theorem records_rebuild_their_tree (hheader : IsHeader header head)
    (hrecords : List.Forall₂ (Body.IsRecord table head.layout) records bodies) :
    let found := decode table (header ++ (records.flatten ++ [0]))
    (found = .error .noPrototypeLeft ↔ RunsOut bodies) ∧
      (¬RunsOut bodies →
        ((∃ cause, found = .error (.corrupted cause)) ↔ Prototype.unclaimed bodies ≠ 1)) ∧
      (¬RunsOut bodies → Prototype.unclaimed bodies = 1 →
        ∃ s, found = .ok s ∧ s.version = head.version ∧ s.flags = head.flags ∧
          s.chunkName = head.chunkName ∧ (s.walk.map (·.2)).Perm s.root.postOrder ∧
          s.root.postOrder.map Prototype.body = bodies) := by
  intro found
  refine ⟨⟨?_, decode_of_runsOut hheader hrecords⟩, ?_, decode_of_unclaimed_eq hheader hrecords⟩
  · intro hlacks
    by_contra hin
    by_cases hone : Prototype.unclaimed bodies = 1
    · obtain ⟨s, hok, -⟩ := decode_of_unclaimed_eq hheader hrecords hin hone
      cases hlacks.symm.trans hok
    · obtain ⟨cause, hcorrupted⟩ := decode_of_unclaimed_ne hheader hrecords hin hone
      cases hlacks.symm.trans hcorrupted
  · intro hin
    refine ⟨?_, decode_of_unclaimed_ne hheader hrecords hin⟩
    rintro ⟨cause, hcorrupted⟩ hone
    obtain ⟨s, hok, -⟩ := decode_of_unclaimed_eq hheader hrecords hin hone
    cases hcorrupted.symm.trans hok

end Records

/-- A table in which no opcode declares anything. -/
def bareTable : OpcodeTable where
  slots := fun _ => ⟨false, false, false, false⟩

theorem three_records_make_one_tree : ∃ s,
    decode bareTable ([0x1B, 0x4C, 0x4A, 2, 2] ++ ([[7, 0, 0, 1, 0, 0, 0, 0],
      [7, 0, 0, 2, 0, 0, 0, 0], [9, 0, 0, 3, 0, 2, 0, 0, 0, 0]].flatten ++ [0])) = .ok s ∧
    s.root.postOrder.map Prototype.body = [{ maxSlot := 1 }, { maxSlot := 2 },
      { maxSlot := 3, constants := [.child 1, .child 0] }] := by
  have hheader : IsHeader [0x1B, 0x4C, 0x4A, 2, 2] { chunkName := [] } := ⟨rfl, rfl⟩
  have hrecords : List.Forall₂ (Body.IsRecord bareTable (layout { chunkName := [] }))
      [[7, 0, 0, 1, 0, 0, 0, 0], [7, 0, 0, 2, 0, 0, 0, 0], [9, 0, 0, 3, 0, 2, 0, 0, 0, 0]]
      [{ maxSlot := 1 }, { maxSlot := 2 }, { maxSlot := 3, constants := [.child 1, .child 0] }] :=
    .cons ⟨0, rfl⟩ (.cons ⟨0, rfl⟩ (.cons ⟨2, rfl⟩ .nil))
  obtain ⟨-, -, hbuilds⟩ := records_rebuild_their_tree hheader hrecords
  have hin : ¬RunsOut [{ maxSlot := 1 }, { maxSlot := 2 },
      { maxSlot := 3, constants := [.child 1, .child 0] }] := by
    rw [← build_eq_none_iff]
    decide
  obtain ⟨s, hs, -, -, -, -, hbodies⟩ := hbuilds hin (by decide)
  exact ⟨s, hs, hbodies⟩

end Script

end BytecodeDump
