-- What decoding makes of a dump that is cut off or goes on, and every way in which it can
-- fail. Every reader of a dump is steady, up to the look at what follows the records.
import BytecodeDump.Proofs.Dump
import BytecodeDump.Proofs.Steady

namespace BytecodeDump

open Reader

/-! ## Constants -/

theorem TableValue.steady_read : Steady TableValue.read := by
  apply steady_bind steady_leb32
  intro tag
  split
  · exact steady_pure _
  · exact steady_pure _
  · exact steady_pure _
  · exact steady_bind steady_leb32 fun _ => steady_pure _
  · exact steady_bind steady_word64 fun _ => steady_pure _
  · exact steady_bind (steady_bytes _) fun _ => steady_pure _

theorem Table.steady_read : Steady Table.read := by
  apply steady_bind steady_leb32
  intro arraySize
  apply steady_bind steady_leb32
  intro dictSize
  apply steady_bind (steady_times TableValue.steady_read _)
  intro array
  have hpair : Steady readPair := steady_bind TableValue.steady_read fun _ =>
    steady_bind TableValue.steady_read fun _ => steady_pure _
  exact steady_bind (steady_times hpair _) fun _ => steady_pure _

namespace Constant

theorem steady_read (pending taken : Nat) : Steady (read pending taken) := by
  apply steady_bind steady_leb32
  intro tag
  split
  · exact steady_ite (steady_pure _) (steady_flaw .noPrototypeLeft)
  · exact steady_bind Table.steady_read fun _ => steady_pure _
  · exact steady_bind steady_word64 fun _ => steady_pure _
  · exact steady_bind steady_word64 fun _ => steady_pure _
  · exact steady_bind steady_word64 fun _ => steady_bind steady_word64 fun _ => steady_pure _
  · exact steady_bind (steady_bytes _) fun _ => steady_pure _

theorem steady_readAll (pending taken count : Nat) : Steady (readAll pending taken count) := by
  induction count generalizing taken with
  | zero => exact steady_pure []
  | succ count ih =>
    exact steady_bind (steady_read pending taken) fun _ => steady_bind (ih _) fun _ => steady_pure _

end Constant

theorem NumberConstant.steady_read : Steady NumberConstant.read := by
  apply steady_bind steady_marked
  rintro ⟨isDouble, low⟩
  exact steady_ite (steady_bind steady_leb32 fun _ => steady_pure _) (steady_pure _)

/-! ## Debug blocks -/

namespace LocalVariable

theorem steady_readName (lead : UInt8) : Steady (readName lead) := by
  unfold readName
  split
  · exact steady_bind steady_byte fun _ => steady_pure _
  · exact steady_bind steady_cstring fun _ => steady_pure _

theorem steady_read (lead : UInt8) (previous : UInt32) : Steady (read lead previous) :=
  steady_bind steady_pos fun _ => steady_bind (steady_readName lead) fun _ =>
    steady_bind steady_leb32 fun _ => steady_bind steady_leb32 fun _ =>
      steady_ite (steady_pure _) (steady_flaw (.corrupted _))

/-- A variable that was read took some of the bytes. -/
theorem rest_lt_of_read {lead : UInt8} {previous : UInt32} {f f' : Feed} {v : LocalVariable}
    (h : read lead previous f = .ok (v, f')) : f'.rest.length < f.rest.length := by
  obtain ⟨used, hrest, -, hreads⟩ := local_read lead previous _ _ _ h
  have hused : used ≠ [] := by
    rintro rfl
    exact not_reads_nil hreads
  have hpos := List.length_pos_iff.2 hused
  rw [hrest, List.length_append]
  omega

/-- With a step for each byte that is left, the steps never run out before the bytes. -/
theorem keeps_readAll {steps others : Nat} {previous : UInt32} {f : Feed} {more : Bytes}
    (hsteps : f.rest.length ≤ steps) (hothers : (f.rest ++ more).length ≤ others) :
    Keeps (readAll steps previous) (readAll others previous) f more := by
  induction steps generalizing others previous f with
  | zero =>
    obtain ⟨start, rest⟩ := f
    obtain rfl : rest = [] := List.length_eq_zero_iff.1 (Nat.le_zero.1 hsteps)
    exact keeps_at_end rfl
  | succ steps ih =>
    obtain ⟨start, rest⟩ := f
    cases rest with
    | nil => exact keeps_at_end rfl
    | cons lead rest =>
      obtain ⟨others, rfl⟩ : ∃ k, others = k + 1 := ⟨others - 1, by simp at hothers; omega⟩
      refine (steady_peek _ more).bind ?_
      intro b f₀ hpeek _
      cases hpeek
      by_cases hzero : lead = 0
      · rw [if_pos hzero, if_pos hzero]
        exact steady_bind steady_byte (fun _ => steady_pure _) _ more
      · rw [if_neg hzero, if_neg hzero]
        refine (steady_read lead previous _ more).bind ?_
        intro first f₁ hfirst _
        have hless := rest_lt_of_read hfirst
        rw [List.length_append] at hothers
        refine (ih (by omega) ?_).bind fun _ _ _ _ => steady_pure _ _ more
        rw [List.length_append]
        omega

end LocalVariable

theorem DebugInfo.steady_read (e : Endian) (firstLine lineCount : UInt32)
    (instructions upvalues : Nat) :
    Steady (read e firstLine lineCount instructions upvalues) := by
  apply steady_bind (steady_times (steady_fixed e _) _)
  intro lines
  apply steady_bind (steady_times steady_cstring _)
  intro names
  apply steady_left
  intro f more
  exact (LocalVariable.keeps_readAll (Nat.le_refl _) (Nat.le_refl _)).bind
    fun _ _ _ _ => steady_pure _ _ more

/-! ## Records -/

namespace Body

theorem steady_readDebugHeader (layout : Layout) : Steady (readDebugHeader layout) := by
  apply steady_ite
  · apply steady_bind steady_leb32
    intro length
    apply steady_ite (steady_pure none)
    exact steady_bind steady_leb32 fun _ => steady_bind steady_leb32 fun _ => steady_pure _
  · exact steady_pure none

theorem steady_readDebug (e : Endian) (header : DebugHeader) (instructions upvalues : Nat) :
    Steady (readDebug e header instructions upvalues) :=
  steady_bind steady_pos fun _ => steady_bind (DebugInfo.steady_read e _ _ _ _) fun _ =>
    steady_bind steady_pos fun _ => steady_ite (steady_pure _) (steady_flaw (.corrupted _))

theorem steady_read (table : OpcodeTable) (layout : Layout) (pending : Nat) :
    Steady (read table layout pending) := by
  apply steady_bind steady_byte
  intro flags
  apply steady_bind steady_byte
  intro args
  apply steady_bind steady_byte
  intro maxSlot
  apply steady_bind steady_byte
  intro upvalueCount
  apply steady_bind steady_leb32
  intro constantCount
  apply steady_bind steady_leb32
  intro numberCount
  apply steady_bind steady_leb32
  intro instructionCount
  apply steady_bind (steady_readDebugHeader layout)
  intro header
  apply steady_bind (steady_times (steady_fixed _ _) _)
  intro words
  apply steady_bind (steady_times (steady_fixed _ _) _)
  intro packed
  apply steady_bind (Constant.steady_readAll _ _ _)
  intro constants
  apply steady_bind (steady_times NumberConstant.steady_read _)
  intro numbers
  apply steady_bind
  · cases header with
    | none => exact steady_pure none
    | some header => exact steady_map some (steady_readDebug _ header _ _)
  · intro debug
    exact steady_pure _

theorem steady_readRecord (table : OpcodeTable) (layout : Layout) (pending : Nat) :
    Steady (readRecord table layout pending) := by
  apply steady_bind steady_leb32
  intro length
  apply steady_bind steady_pos
  intro start
  apply steady_guard
  exact steady_bind (steady_read table layout pending) fun _ =>
    steady_bind steady_pos fun _ => steady_ite (steady_pure _) (steady_flaw (.corrupted _))

/-- A record that was read took some of the bytes. -/
theorem rest_lt_of_readRecord {table : OpcodeTable} {layout : Layout} {pending : Nat}
    {f f' : Feed} {b : Body} (h : readRecord table layout pending f = .ok (b, f')) :
    f'.rest.length < f.rest.length := by
  obtain ⟨spelling, body, hrest, -, -, hspells, -⟩ := readRecord_eq_ok h
  have hlength := hspells.length_le
  have hpos := Leb128.length_encode_pos body.length
  rw [hrest, List.length_append, List.length_append]
  omega

end Body

/-! ## Dumps -/

/-- With a step for each byte that is left, the steps never run out before the bytes. -/
theorem Prototype.keeps_readAll {table : OpcodeTable} {layout : Layout} {steps others : Nat}
    {stack : List Prototype} {f : Feed} {more : Bytes} (hsteps : f.rest.length ≤ steps)
    (hothers : (f.rest ++ more).length ≤ others) :
    Keeps (readAll table layout steps stack) (readAll table layout others stack) f more := by
  induction steps generalizing others stack f with
  | zero =>
    obtain ⟨start, rest⟩ := f
    obtain rfl : rest = [] := List.length_eq_zero_iff.1 (Nat.le_zero.1 hsteps)
    exact keeps_at_end rfl
  | succ steps ih =>
    obtain ⟨start, rest⟩ := f
    cases rest with
    | nil => exact keeps_at_end rfl
    | cons lead rest =>
      obtain ⟨others, rfl⟩ : ∃ k, others = k + 1 := ⟨others - 1, by simp at hothers; omega⟩
      refine (steady_peek _ more).bind ?_
      intro b f₀ hpeek _
      cases hpeek
      by_cases hzero : lead = 0
      · rw [if_pos hzero, if_pos hzero]
        exact steady_bind steady_byte (fun _ => steady_pure _) _ more
      · rw [if_neg hzero, if_neg hzero]
        refine (Body.steady_readRecord table layout _ _ more).bind ?_
        intro body f₁ hbody _
        have hless := Body.rest_lt_of_readRecord hbody
        rw [List.length_append] at hothers
        refine ih (by omega) ?_
        rw [List.length_append]
        omega

namespace Script

/-- Reads what follows the version, up to the end of the records. -/
def readForest (table : OpcodeTable) : Reader (Script × List Prototype) := do
  let header ← readFlags
  let chunkName ← readChunkName header.hasDebug
  let stack ← Prototype.readAll table header.layout (← Reader.left) []
  return ({ header with chunkName }, stack)

/-- Looks whether the records are all and make one tree. -/
def close (found : Script × List Prototype) : Reader Script := do
  let trailing ← Reader.left
  if trailing ≠ 0 then Reader.fail fun _ => .corrupted (.trailing trailing)
  else match found.2 with
    | [root] => return linkParents { found.1 with root }
    | _ => Reader.fail fun _ => .corrupted (.roots found.2.length)

theorem steady_readForest (table : OpcodeTable) : Steady (readForest table) := by
  apply steady_bind (steady_bind steady_leb32 fun _ => steady_pure _)
  intro header
  apply steady_bind
  · exact steady_ite (steady_bind steady_leb32 fun _ => steady_bytes _) (steady_pure _)
  · intro chunkName
    apply steady_left
    intro f more
    exact (Prototype.keeps_readAll (Nat.le_refl _) (Nat.le_refl _)).bind
      fun _ _ _ _ => steady_pure _ _ more

/-- The look takes nothing, and finds at most that the bytes contradict themselves. -/
theorem close_cases (found : Script × List Prototype) (f : Feed) :
    (f.rest = [] ∧ ∃ s, close found f = .ok (s, f)) ∨
      ∃ cause, close found f = .error (.corrupted cause) := by
  unfold close
  rw [left_bind]
  by_cases hrest : f.rest.length = 0
  · rw [if_neg (not_not.2 hrest)]
    rcases found with ⟨head, _ | ⟨root, _ | ⟨second, others⟩⟩⟩
    · exact .inr ⟨_, rfl⟩
    · exact .inl ⟨List.length_eq_zero_iff.1 hrest, _, rfl⟩
    · exact .inr ⟨_, rfl⟩
  · rw [if_pos hrest]
    exact .inr ⟨_, rfl⟩

theorem close_trailing (found : Script × List Prototype) {f : Feed} (h : f.rest ≠ []) :
    close found f = .error (.corrupted (.trailing f.rest.length)) := by
  unfold close
  rw [left_bind, if_pos (mt List.length_eq_zero_iff.1 h)]
  rfl

/-! ### The first bytes -/

/-- The magic bytes are not there, or nothing stands after them, or a version does. -/
theorem first_bytes (bytes : Bytes) :
    ¬magic <+: bytes ∨ bytes = magic ∨ ∃ version rest, bytes = magic ++ version :: rest := by
  by_cases hmagic : magic <+: bytes
  · obtain ⟨_ | ⟨version, rest⟩, rfl⟩ := hmagic
    · exact .inr (.inl (List.append_nil magic))
    · exact .inr (.inr ⟨version, rest, rfl⟩)
  · exact .inl hmagic

theorem decode_of_not_magic {table : OpcodeTable} {bytes : Bytes} (h : ¬magic <+: bytes) :
    decode table bytes = .error .notADump := by
  rw [List.prefix_iff_eq_take] at h
  exact if_neg fun htake => h htake.symm

theorem decode_magic (table : OpcodeTable) :
    decode table magic = .error (.outOfRange 3 1 3) := rfl

theorem read_version (table : OpcodeTable) (version : UInt8) (rest : Bytes) :
    read table ⟨3, version :: rest⟩ =
      if version ≠ formatVersion then .error (.version version)
      else (readForest table >>= close) ⟨4, rest⟩ := by
  have hbyte : byte ⟨3, version :: rest⟩ = .ok (version, ⟨4, rest⟩) := rfl
  unfold read readForest
  rw [bind_of_ok hbyte]
  split
  · rfl
  · simp only [bind_assoc, pure_bind]
    rfl

theorem decode_of_version {table : OpcodeTable} {version : UInt8} (h : version ≠ formatVersion)
    (rest : Bytes) : decode table (magic ++ version :: rest) = .error (.version version) := by
  change (·.1) <$> read table ⟨3, version :: rest⟩ = _
  rw [read_version, if_pos h]
  rfl

theorem decode_dump (table : OpcodeTable) (rest : Bytes) :
    decode table (magic ++ formatVersion :: rest) =
      (·.1) <$> (readForest table >>= close) ⟨4, rest⟩ := by
  change (·.1) <$> read table ⟨3, formatVersion :: rest⟩ = _
  rw [read_version, if_neg (not_not.2 rfl)]

theorem size_after_version (rest : Bytes) :
    (⟨4, rest⟩ : Feed).size = (magic ++ formatVersion :: rest).length := by
  simp only [Feed.size, magic, List.length_append, List.length_cons, List.length_nil]
  omega

/-- What can become of bytes that begin as a dump of the version does. -/
theorem decode_dump_cases (table : OpcodeTable) (rest : Bytes) :
    (∃ s, decode table (magic ++ formatVersion :: rest) = .ok s) ∨
      ∃ fault, decode table (magic ++ formatVersion :: rest) = .error fault ∧
        (fault.Flaw ∨ fault.Short (magic ++ formatVersion :: rest).length) := by
  rw [decode_dump, ← size_after_version]
  rcases steady_readForest table ⟨4, rest⟩ [] with ⟨found, f', -, hread, -⟩ |
    ⟨fault, hshort, hread⟩ | ⟨fault, hflaw, hread, -⟩
  · rw [bind_of_ok hread]
    rcases close_cases found f' with ⟨-, s, hclose⟩ | ⟨cause, hclose⟩
    · rw [hclose]
      exact .inl ⟨s, rfl⟩
    · rw [hclose]
      exact .inr ⟨_, rfl, .inl (.corrupted cause)⟩
  · rw [bind_of_error hread]
    exact .inr ⟨fault, rfl, .inr hshort⟩
  · rw [bind_of_error hread]
    exact .inr ⟨fault, rfl, .inl hflaw⟩

/-- Bytes that decode begin with the magic bytes and the version, and all of the rest is
records. -/
theorem dump_of_decode {table : OpcodeTable} {bytes : Bytes} {s : Script}
    (h : decode table bytes = .ok s) : ∃ rest found f, bytes = magic ++ formatVersion :: rest ∧
      readForest table ⟨4, rest⟩ = .ok (found, f) ∧ f.rest = [] := by
  rcases first_bytes bytes with hmagic | rfl | ⟨version, rest, rfl⟩
  · rw [decode_of_not_magic hmagic] at h
    cases h
  · rw [decode_magic] at h
    cases h
  · by_cases hversion : version = formatVersion
    · subst hversion
      rw [decode_dump] at h
      cases hread : readForest table ⟨4, rest⟩ with
      | error fault =>
        rw [bind_of_error hread] at h
        cases h
      | ok result =>
        obtain ⟨found, f⟩ := result
        rcases close_cases found f with ⟨hrest, -⟩ | ⟨cause, hclose⟩
        · exact ⟨rest, found, f, rfl, hread, hrest⟩
        · rw [bind_of_ok hread, hclose] at h
          cases h
    · rw [decode_of_version hversion] at h
      cases h

/-! ## Every failure -/

/-- After the version nothing but a flaw or a short read goes wrong. -/
theorem decode_dump_ne {table : OpcodeTable} {rest : Bytes} {fault : Fault} (hflaw : ¬fault.Flaw)
    (hshort : ∀ size, ¬fault.Short size) :
    decode table (magic ++ formatVersion :: rest) ≠ .error fault := by
  intro h
  rcases decode_dump_cases table rest with ⟨s, hok⟩ | ⟨other, herror, hother⟩
  · cases hok.symm.trans h
  · cases herror.symm.trans h
    rcases hother with hother | hother
    · exact hflaw hother
    · exact hshort _ hother

theorem decode_eq_notADump {table : OpcodeTable} {bytes : Bytes} :
    decode table bytes = .error .notADump ↔ ¬magic <+: bytes := by
  refine ⟨?_, decode_of_not_magic⟩
  intro h
  rcases first_bytes bytes with hmagic | rfl | ⟨version, rest, rfl⟩
  · exact hmagic
  · cases h
  · by_cases hversion : version = formatVersion
    · subst hversion
      exact absurd h (decode_dump_ne nofun nofun)
    · rw [decode_of_version hversion] at h
      cases h

theorem decode_eq_version {table : OpcodeTable} {bytes : Bytes} {version : UInt8} :
    decode table bytes = .error (.version version) ↔
      version ≠ formatVersion ∧ magic ++ [version] <+: bytes := by
  refine ⟨?_, ?_⟩
  · intro h
    rcases first_bytes bytes with hmagic | rfl | ⟨other, rest, rfl⟩
    · rw [decode_of_not_magic hmagic] at h
      cases h
    · cases h
    · by_cases hother : other = formatVersion
      · subst hother
        exact absurd h (decode_dump_ne nofun nofun)
      · rw [decode_of_version hother] at h
        cases h
        exact ⟨hother, rest, rfl⟩
  · rintro ⟨hversion, rest, rfl⟩
    rw [List.append_assoc]
    exact decode_of_version hversion rest

/-- The six ways in which decoding can end. -/
theorem decode_cases (table : OpcodeTable) (bytes : Bytes) :
    (∃ s, decode table bytes = .ok s) ∨ decode table bytes = .error .notADump ∨
      (∃ version, decode table bytes = .error (.version version)) ∨
      decode table bytes = .error .noPrototypeLeft ∨
      (∃ cause, decode table bytes = .error (.corrupted cause)) ∨
      ∃ offset needed, decode table bytes = .error (.outOfRange offset needed bytes.length) ∧
        offset ≤ bytes.length ∧ bytes.length < offset + needed := by
  rcases first_bytes bytes with hmagic | rfl | ⟨version, rest, rfl⟩
  · exact .inr (.inl (decode_of_not_magic hmagic))
  · exact .inr (.inr (.inr (.inr (.inr ⟨3, 1, decode_magic table, by decide, by decide⟩))))
  · by_cases hversion : version = formatVersion
    · subst hversion
      rcases decode_dump_cases table rest with hok | ⟨fault, herror, hflaw | hshort⟩
      · exact .inl hok
      · cases hflaw with
        | noPrototypeLeft => exact .inr (.inr (.inr (.inl herror)))
        | corrupted cause => exact .inr (.inr (.inr (.inr (.inl ⟨cause, herror⟩))))
      · cases hshort with
        | outOfRange begins ends =>
          exact .inr (.inr (.inr (.inr (.inr ⟨_, _, herror, begins, ends⟩))))
    · exact .inr (.inr (.inl ⟨version, decode_of_version hversion rest⟩))

/-! ## The laws -/

/-- Decoding fails in one of five ways, and each is true of the bytes: they do not begin
with the magic bytes; they do, and with another version; a child constant finds no prototype;
the bytes contradict themselves; or a read that began inside the bytes went past their end. -/
theorem faults_of_decoding_are_true (table : OpcodeTable) (bytes : Bytes) :
    let found := decode table bytes
    (found = .error .notADump ↔ ¬magic <+: bytes) ∧
      (∀ version, found = .error (.version version) ↔
        version ≠ formatVersion ∧ magic ++ [version] <+: bytes) ∧
      ((∃ s, found = .ok s) ∨ found = .error .notADump ∨
        (∃ version, found = .error (.version version)) ∨ found = .error .noPrototypeLeft ∨
        (∃ cause, found = .error (.corrupted cause)) ∨
        ∃ offset needed, found = .error (.outOfRange offset needed bytes.length) ∧
          offset ≤ bytes.length ∧ bytes.length < offset + needed) ∧
      (∀ tag, found ≠ .error (.constantTag tag)) ∧ (∀ tag, found ≠ .error (.tableValueTag tag)) ∧
      (∀ width, found ≠ .error (.width width)) ∧
      (∀ opcode letter, found ≠ .error (.operand opcode letter)) ∧
      (∀ list expected count, found ≠ .error (.debugCount list expected count)) ∧
      ∀ cause, found ≠ .error (.invalidGraph cause) := by
  intro found
  have hcases := decode_cases table bytes
  refine ⟨decode_eq_notADump, fun _ => decode_eq_version, hcases, ?_⟩
  rcases hcases with ⟨s, h⟩ | h | ⟨version, h⟩ | h | ⟨cause, h⟩ | ⟨offset, needed, h, -⟩
  all_goals simp [found, h]

section Dumps

variable {table : OpcodeTable} {bytes : Bytes} {s : Script}

/-- What is cut off of a dump is missed by a read that ran to the end of what is there. -/
theorem decode_of_cut (h : decode table bytes = .ok s) {part : Bytes} (hpart : part <+: bytes)
    (hcut : part ≠ bytes) (hlength : 3 ≤ part.length) :
    ∃ offset needed, decode table part = .error (.outOfRange offset needed part.length) := by
  obtain ⟨rest, found, f, rfl, hread, hrest⟩ := dump_of_decode h
  rcases first_bytes part with hmagic | rfl | ⟨version, others, rfl⟩
  · exact absurd (List.prefix_of_prefix_length_le (List.prefix_append magic _) hpart hlength) hmagic
  · exact ⟨3, 1, decode_magic table⟩
  · rw [List.prefix_append_right_inj, List.cons_prefix_cons] at hpart
    obtain ⟨rfl, more, rfl⟩ := hpart
    have hmore : more ≠ [] := by
      rintro rfl
      exact hcut (by rw [List.append_nil])
    have hread' : readForest table (Feed.extend ⟨4, others⟩ more) = .ok (found, f) := hread
    rcases steady_readForest table ⟨4, others⟩ more with ⟨found', f', -, -, hthere⟩ |
      ⟨fault, hshort, hhere⟩ | ⟨fault, -, -, hthere⟩
    · -- All records are in the part, so the dump would go on after them.
      cases hread'.symm.trans hthere
      exact absurd (List.append_eq_nil_iff.1 hrest).2 hmore
    · obtain ⟨begins, ends⟩ := hshort
      rw [decode_dump, bind_of_error hhere, ← size_after_version]
      exact ⟨_, _, rfl⟩
    · cases hread'.symm.trans hthere

/-- What follows a dump is all left over. -/
theorem decode_of_more (h : decode table bytes = .ok s) {more : Bytes} (hmore : more ≠ []) :
    decode table (bytes ++ more) = .error (.corrupted (.trailing more.length)) := by
  obtain ⟨rest, found, f, rfl, hread, hrest⟩ := dump_of_decode h
  rcases steady_readForest table ⟨4, rest⟩ more with ⟨found', f', -, hhere, hthere⟩ |
    ⟨fault, -, hhere⟩ | ⟨fault, -, hhere, -⟩
  · cases hread.symm.trans hhere
    have hleft : (f.extend more).rest = more := by
      rw [Feed.extend, hrest, List.nil_append]
    have hclose := close_trailing found (f := f.extend more) (by rwa [hleft])
    have hthere' : readForest table ⟨4, rest ++ more⟩ = .ok (found, f.extend more) := hthere
    rw [List.append_assoc, List.cons_append, decode_dump, bind_of_ok hthere', hclose, hleft]
    rfl
  · cases hread.symm.trans hhere
  · cases hread.symm.trans hhere

/-- No dump is the beginning of another one. What is left of a dump that was cut off fails
with a read past its end, or, in the magic bytes, as no dump; a dump that goes on fails with
what is left over. -/
theorem no_dump_begins_another (h : decode table bytes = .ok s) :
    (∀ part, part <+: bytes → part ≠ bytes → 3 ≤ part.length →
        ∃ offset needed, decode table part = .error (.outOfRange offset needed part.length)) ∧
      (∀ part, part <+: bytes → part.length < 3 → decode table part = .error .notADump) ∧
      ∀ more, more ≠ [] → ∃ cause, decode table (bytes ++ more) = .error (.corrupted cause) := by
  refine ⟨fun part => decode_of_cut h, ?_, fun more hmore => ⟨_, decode_of_more h hmore⟩⟩
  intro part _ hlength
  refine decode_of_not_magic fun hmagic => ?_
  exact absurd hmagic.length_le (Nat.not_le.2 hlength)

theorem cut_and_longer_dumps_fail :
    let dump : Bytes := [0x1B, 0x4C, 0x4A, 2, 2, 7, 0, 0, 1, 0, 0, 0, 0, 0]
    (∃ s, decode bareTable dump = .ok s) ∧
      (∃ offset needed, decode bareTable (dump.take 8) = .error (.outOfRange offset needed 8)) ∧
      decode bareTable (dump.take 2) = .error .notADump ∧
      ∃ cause, decode bareTable (dump ++ [0]) = .error (.corrupted cause) := by
  intro dump
  have hdump : decode bareTable dump =
      .ok { chunkName := [], root := .node { maxSlot := 1 } none [] } := by decide +kernel
  obtain ⟨hcut, hmagic, hmore⟩ := no_dump_begins_another hdump
  refine ⟨⟨_, hdump⟩, ?_, ?_, ?_⟩
  · exact hcut (dump.take 8) (List.take_prefix 8 dump) (by decide) (by decide)
  · exact hmagic (dump.take 2) (List.take_prefix 2 dump) (by decide)
  · exact hmore [0] (by decide)

end Dumps

end Script

end BytecodeDump
