-- What records yield when they are surveyed. A body that was read fits into a dump, and
-- reading it once more would not change it.
import BytecodeDump.Proofs.ConstantYield
import BytecodeDump.Proofs.DebugYield

namespace BytecodeDump

open Survey

variable (table : OpcodeTable)

namespace Body

/-! ## Debug blocks -/

/-- Any length up to the one that was read may be written in the header of a block. -/
theorem debugHeader_shrinks {layout : Layout} {header : Option DebugHeader} {f f' : Feed}
    {parts : List Part} (h : surveyDebugHeader layout f = .ok ((header, parts), f')) :
    Took f parts f' ∧
      (header = none → Rewrites table True parts (if layout.debug then [0] else [])) ∧
      ∀ x, header = some x → layout.debug = true ∧ x.length < 0x100000000 ∧
        ∀ m ≤ x.length, Rewrites table (m = x.length) parts
          (Leb128.encode m ++ Output.leb32 x.firstLine ++ Output.leb32 x.lineCount) := by
  unfold surveyDebugHeader at h
  by_cases hdebug : layout.debug
  · rw [if_pos hdebug] at h
    obtain ⟨length, p₁, f₁, q₁, hlength, hk₁, rfl⟩ := bind_eq_ok.1 h
    obtain ⟨t₁, r₁⟩ := leb32_shrinks table hlength
    by_cases hzero : length = 0
    · rw [if_pos hzero] at hk₁
      obtain ⟨rfl, rfl, rfl⟩ := pure_eq_ok.1 hk₁
      refine ⟨t₁.append (.nil _), fun _ => ?_, fun x hx => by cases hx⟩
      obtain ⟨-, -, hform⟩ := yields_leb32 table _ _ _ _ hlength
      have henc : Output.leb32 length = [0] := by
        rw [hzero]
        exact Leb128.encode_of_lt (by decide)
      rw [if_pos hdebug, List.append_nil, ← henc]
      exact hform
    · rw [if_neg hzero] at hk₁
      obtain ⟨firstLine, p₂, f₂, q₂, hfirst, hk₂, rfl⟩ := bind_eq_ok.1 hk₁
      obtain ⟨lineCount, hcount, rfl⟩ := bind_pure_eq_ok.1 hk₂
      obtain ⟨t₂, -, r₂⟩ := yields_leb32 table _ _ _ _ hfirst
      obtain ⟨t₃, -, r₃⟩ := yields_leb32 table _ _ _ _ hcount
      refine ⟨t₁.append (t₂.append t₃), fun hnone => (by cases hnone), ?_⟩
      rintro x hx
      cases hx
      refine ⟨hdebug, length.toNat_lt, ?_⟩
      intro m hm
      rw [List.append_assoc]
      exact (r₁ m hm).append (r₂.append r₃).weaken
  · rw [if_neg hdebug] at h
    obtain ⟨rfl, rfl, rfl⟩ := pure_eq_ok.1 h
    refine ⟨.nil _, fun _ => ?_, fun x hx => by cases hx⟩
    rw [if_neg hdebug]
    exact .nil

/-- A block is as long as its header says. -/
theorem yields_debug (e : Endian) (header : DebugHeader) (instructions upvalues : Nat) {f f' : Feed}
    {info : DebugInfo} {parts : List Part}
    (h : surveyDebug e header instructions upvalues f = .ok ((info, parts), f')) :
    Took f parts f' ∧ info.Fits instructions upvalues ∧ info.firstLine = header.firstLine ∧
      info.lineCount = header.lineCount ∧ (Part.join parts).length = header.length ∧
      Rewrites table True parts (info.written e) := by
  unfold surveyDebug at h
  rw [pos_bind] at h
  obtain ⟨found, ps, f₁, qs, hfound, hk, rfl⟩ := bind_eq_ok.1 h
  rw [pos_bind] at hk
  obtain ⟨htook, ⟨hfits, hfirst, hcount⟩, hrewrites⟩ :=
    DebugInfo.yields table _ _ _ _ _ _ _ _ _ hfound
  by_cases hused : f₁.pos - f.pos = header.length
  · simp only [hused, if_true] at hk
    obtain ⟨rfl, rfl, rfl⟩ := pure_eq_ok.1 hk
    have hpos := htook.pos
    rw [List.append_nil]
    exact ⟨htook, hfits, hfirst, hcount, by omega, hrewrites⟩
  · simp only [hused, if_false] at hk
    cases hk

/-- The header of the debug block, what stands between it and the block, and the block. -/
theorem rewrites_debug {layout : Layout} {header : Option DebugHeader} {b : Body}
    {instructions upvalues : Nat} {f f₁ f₂ f₃ : Feed} {ps qs rs : List Part} {form : Bytes}
    (hheader : surveyDebugHeader layout f = .ok ((header, ps), f₁))
    (hblock : surveyBlock layout.endian header instructions upvalues f₂ = .ok ((b.debug, rs), f₃))
    (hform : Rewrites table True qs form) :
    Took f ps f₁ ∧ Took f₂ rs f₃ ∧ b.kept layout = b.debug ∧
      (∀ info, b.debug = some info → info.Fits instructions upvalues ∧
        (info.written layout.endian).length < 0x100000000) ∧
      Rewrites table True (ps ++ (qs ++ rs))
        (b.writtenDebugHeader layout ++ (form ++ b.writtenBlock layout)) := by
  obtain ⟨htook, hnone, hsome⟩ := debugHeader_shrinks table hheader
  cases header with
  | none =>
    obtain ⟨hdebug, rfl, rfl⟩ := pure_eq_ok.1 hblock
    have hkept : b.kept layout = none := by simp [kept, hdebug]
    refine ⟨htook, .nil _, by rw [hkept, hdebug], fun info hinfo => ?_, ?_⟩
    · rw [hdebug] at hinfo
      cases hinfo
    · simp only [writtenDebugHeader, writtenBlock, hkept, Option.elim_none, List.append_nil]
      exact (hnone rfl).append hform
  | some header =>
    obtain ⟨hlayout, hlt, hshrinks⟩ := hsome header rfl
    obtain ⟨info, hinfo, hdebug⟩ := bind_pure_eq_ok.1 hblock
    obtain ⟨htook', hfits, hfirst, hcount, hlength, hrewrites⟩ := yields_debug table _ _ _ _ hinfo
    have hkept : b.kept layout = some info := by rw [kept, if_pos hlayout, hdebug]
    have hle := hrewrites.length_le
    refine ⟨htook, htook', by rw [hkept, hdebug], fun other hother => ?_, ?_⟩
    · rw [hdebug] at hother
      cases hother
      exact ⟨hfits, by omega⟩
    · simp only [writtenDebugHeader, writtenBlock, hkept, Option.elim_some, hfirst, hcount]
      rw [← List.append_assoc, ← List.append_assoc]
      refine ((hshrinks _ (hlength ▸ hle)).append hform.weaken).close hrewrites ?_
      intro heq
      rw [heq, hlength]

/-! ## Bodies -/

/-- The body fits into a dump, and reading it once more does not change it. -/
structure Sound (layout : Layout) (b : Body) : Prop where
  fits : b.Fits table layout
  stable : b.Stable table
  same : b.readBack layout = b

section Fields

variable {count : Nat} {f f' : Feed} {parts : List Part}

/-- Words stand for instructions that have the operands of their opcodes. -/
theorem yields_code (code : List Instruction) {e : Endian} {words : List Nat}
    (h : Survey.times (Survey.word e) count f = .ok ((words, parts), f'))
    (hcode : code = words.map fun word => Instruction.ofWord table (.ofNat word)) :
    Took f parts f' ∧ code.length = count ∧ (∀ i ∈ code, i.slots = table.slots i.opcode) ∧
      (∀ i ∈ code, Instruction.ofWord table i.toWord = i) ∧
      Rewrites table True parts (code.flatMap fun i => e.write 4 i.toWord.toNat) := by
  obtain ⟨htook, ⟨hlength, -⟩, hrewrites⟩ := yields_times (yields_word table e) _ _ _ _ _ h
  refine ⟨htook, ?_, ?_, ?_, ?_⟩
  · rw [hcode, List.length_map, hlength]
  · intro i hi
    rw [hcode] at hi
    obtain ⟨word, -, rfl⟩ := List.mem_map.1 hi
    rfl
  · intro i hi
    rw [hcode] at hi
    obtain ⟨word, -, rfl⟩ := List.mem_map.1 hi
    rw [Instruction.toWord_ofWord, Instruction.ofWord_declared]
  · rw [hcode, List.flatMap_map]
    simp only [Instruction.toWord_ofWord]
    exact hrewrites

/-- Any two bytes stand for an upvalue. -/
theorem yields_upvalues (upvalues : List Upvalue) {e : Endian} {packed : List Nat}
    (h : Survey.times (Survey.fixed e 2) count f = .ok ((packed, parts), f'))
    (hupvalues : upvalues = packed.map fun raw => Upvalue.unpack (.ofNat raw)) :
    Took f parts f' ∧ upvalues.length = count ∧ (∀ u ∈ upvalues, u.index ≤ Upvalue.maxIndex) ∧
      Rewrites table True parts (upvalues.flatMap fun u => e.write 2 u.pack.toNat) := by
  obtain ⟨htook, ⟨hlength, hspan⟩, hrewrites⟩ := yields_times (yields_fixed table e 2) _ _ _ _ _ h
  have hform : (upvalues.flatMap fun u => e.write 2 u.pack.toNat) =
      packed.flatMap (e.write 2) := by
    rw [hupvalues, List.flatMap_map]
    refine List.flatMap_congr fun raw hraw => ?_
    have hlt : raw < UInt16.size := hspan raw hraw
    rw [Upvalue.pack_unpack, UInt16.toNat_ofNat_of_lt' hlt]
  refine ⟨htook, ?_, ?_, ?_⟩
  · rw [hupvalues, List.length_map, hlength]
  · intro u hu
    rw [hupvalues] at hu
    obtain ⟨raw, -, rfl⟩ := List.mem_map.1 hu
    exact Upvalue.index_unpack_le _
  · rw [hform]
    exact hrewrites

/-- The constants stand in the reverse order, in which the children count up. -/
theorem yields_constants (constants : List Constant) {pending : Nat} {found : List Constant}
    (h : Constant.surveyAll pending 0 count f = .ok ((found, parts), f'))
    (hconstants : constants = found.reverse) :
    Took f parts f' ∧ constants.length = count ∧ (∀ k ∈ constants, k.Fits ∧ k.Keyed) ∧
      Constant.countDown constants = constants ∧
      Rewrites table True parts (constants.reverse.flatMap Constant.written) := by
  obtain ⟨htook, ⟨hlength, hgood, hcount⟩, hrewrites⟩ :=
    Constant.yields_all table _ _ _ _ _ _ _ h
  refine ⟨htook, ?_, ?_, ?_, ?_⟩
  · rw [hconstants, List.length_reverse, hlength]
  · intro k hk
    rw [hconstants, List.mem_reverse] at hk
    exact hgood k hk
  · rw [← Constant.reverse_countUp_reverse, hconstants, List.reverse_reverse, hcount]
  · rw [hconstants, List.reverse_reverse]
    exact hrewrites

end Fields

theorem yields (layout : Layout) (pending : Nat) :
    Yields table (survey table layout pending) (Sound table layout) (written layout) := by
  intro f b parts f' h
  obtain ⟨flags, p₁, f₁, q₁, h₁, hk₁, rfl⟩ := bind_eq_ok.1 h
  obtain ⟨args, p₂, f₂, q₂, h₂, hk₂, rfl⟩ := bind_eq_ok.1 hk₁
  obtain ⟨maxSlot, p₃, f₃, q₃, h₃, hk₃, rfl⟩ := bind_eq_ok.1 hk₂
  obtain ⟨upvalueCount, p₄, f₄, q₄, h₄, hk₄, rfl⟩ := bind_eq_ok.1 hk₃
  obtain ⟨constantCount, p₅, f₅, q₅, h₅, hk₅, rfl⟩ := bind_eq_ok.1 hk₄
  obtain ⟨numberCount, p₆, f₆, q₆, h₆, hk₆, rfl⟩ := bind_eq_ok.1 hk₅
  obtain ⟨instructionCount, p₇, f₇, q₇, h₇, hk₇, rfl⟩ := bind_eq_ok.1 hk₆
  obtain ⟨header, p₈, f₈, q₈, hheader, hk₈, rfl⟩ := bind_eq_ok.1 hk₇
  obtain ⟨words, p₉, f₉, q₉, hwords, hk₉, rfl⟩ := bind_eq_ok.1 hk₈
  obtain ⟨packed, p₁₀, f₁₀, q₁₀, hpacked, hk₁₀, rfl⟩ := bind_eq_ok.1 hk₉
  obtain ⟨constants, p₁₁, f₁₁, q₁₁, hconstants, hk₁₁, rfl⟩ := bind_eq_ok.1 hk₁₀
  obtain ⟨numbers, p₁₂, f₁₂, q₁₂, hnumbers, hk₁₂, rfl⟩ := bind_eq_ok.1 hk₁₁
  obtain ⟨debug, hblock, hb⟩ := bind_pure_eq_ok.1 hk₁₂
  have hdebug : b.debug = debug := by rw [hb]
  have hnumbersBack : b.numbers.reverse = numbers := by rw [hb, List.reverse_reverse]
  rw [← hdebug] at hblock
  rw [← hnumbersBack] at hnumbers
  obtain ⟨t₁, -, r₁⟩ := yields_byte table _ _ _ _ h₁
  obtain ⟨t₂, -, r₂⟩ := yields_byte table _ _ _ _ h₂
  obtain ⟨t₃, -, r₃⟩ := yields_byte table _ _ _ _ h₃
  obtain ⟨t₄, -, r₄⟩ := yields_byte table _ _ _ _ h₄
  obtain ⟨t₅, -, r₅⟩ := yields_leb32 table _ _ _ _ h₅
  obtain ⟨t₆, -, r₆⟩ := yields_leb32 table _ _ _ _ h₆
  obtain ⟨t₇, -, r₇⟩ := yields_leb32 table _ _ _ _ h₇
  obtain ⟨t₉, hcodeLength, hslots, hcode, r₉⟩ :=
    yields_code table b.code hwords (by rw [hb])
  obtain ⟨t₁₀, hupvaluesLength, hindex, r₁₀⟩ :=
    yields_upvalues table b.upvalues hpacked (by rw [hb])
  obtain ⟨t₁₁, hconstantsLength, hgood, hdown, r₁₁⟩ :=
    yields_constants table b.constants hconstants (by rw [hb])
  obtain ⟨t₁₂, ⟨hnumbersLength, -⟩, r₁₂⟩ :=
    yields_times (NumberConstant.yields table) _ _ _ _ _ hnumbers
  rw [List.length_reverse] at hnumbersLength
  obtain ⟨t₈, t₁₃, hkept, hdebugFits, hdebugForm⟩ :=
    rewrites_debug table hheader hblock (r₉.append (r₁₀.append (r₁₁.append r₁₂)))
  refine ⟨?_, ⟨⟨?_, ?_, ?_, ?_, ?_, ?_, hslots, hindex, fun k hk => (hgood k hk).1⟩,
    ⟨hcode, fun k hk => (hgood k hk).2⟩, ?_⟩, ?_⟩
  · exact t₁.append (t₂.append (t₃.append (t₄.append (t₅.append (t₆.append (t₇.append (t₈.append
      (t₉.append (t₁₀.append (t₁₁.append (t₁₂.append t₁₃)))))))))))
  · rw [hupvaluesLength]
    exact upvalueCount.toNat_lt
  · rw [hconstantsLength]
    exact constantCount.toNat_lt
  · rw [hnumbersLength]
    exact numberCount.toNat_lt
  · rw [hcodeLength]
    exact instructionCount.toNat_lt
  · intro info hinfo
    rw [hcodeLength, hupvaluesLength]
    exact (hdebugFits info (hkept ▸ hinfo)).1
  · intro info hinfo
    exact (hdebugFits info (hkept ▸ hinfo)).2
  · rw [readBack, hkept, hdown]
  · have hflags : b.flags.bits = flags := by rw [hb]
    have hargs : b.args = args := by rw [hb]
    have hmaxSlot : b.maxSlot = maxSlot := by rw [hb]
    have hcounts := r₁.append (r₂.append (r₃.append (r₄.append (r₅.append (r₆.append r₇)))))
    have hall := hcounts.append hdebugForm
    simp only [written, writtenCounts, hflags, hargs, hmaxSlot, hupvaluesLength, hconstantsLength,
      hnumbersLength, hcodeLength, UInt8.ofNat_toNat]
    simp only [Output.leb32, List.append_assoc, List.cons_append, List.nil_append] at hall ⊢
    exact hall

/-- A record is as long as it says. -/
theorem yields_record (layout : Layout) (pending : Nat) :
    Yields table (surveyRecord table layout pending)
      (fun b => b.RecordFits table layout ∧ b.Sound table layout) (record layout) := by
  intro f b parts f' h
  obtain ⟨length, ps, f₁, qs, hlength, hk, rfl⟩ := bind_eq_ok.1 h
  rw [pos_bind, left_bind] at hk
  by_cases hleft : f₁.rest.length < length.toNat
  · rw [if_pos hleft] at hk
    cases hk
  · rw [if_neg hleft] at hk
    obtain ⟨found, rs, f₂, ss, hfound, hend, rfl⟩ := bind_eq_ok.1 hk
    rw [pos_bind] at hend
    by_cases hused : f₂.pos - f₁.pos = length.toNat
    · simp only [hused, if_true] at hend
      obtain ⟨rfl, rfl, rfl⟩ := pure_eq_ok.1 hend
      obtain ⟨t₁, r₁⟩ := leb32_shrinks table hlength
      obtain ⟨t₂, hsound, r₂⟩ := yields table _ _ _ _ _ _ hfound
      have hpos := t₂.pos
      have hjoin : (Part.join rs).length = length.toNat := by omega
      have hle := r₂.length_le
      have hlt := length.toNat_lt
      rw [List.append_nil]
      refine ⟨t₁.append t₂, ⟨⟨hsound.fits, by omega⟩, hsound⟩, ?_⟩
      refine (r₁ _ (hjoin ▸ hle)).close r₂ ?_
      intro heq
      rw [heq, hjoin]
    · simp only [hused, if_false] at hend
      cases hend

end Body

end BytecodeDump
