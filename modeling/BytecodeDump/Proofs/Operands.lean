-- The laws of instructions and their words. An instruction that was made in any way and had
-- any operands set, declared or not, keeps zero in the fields that its opcode does not declare,
-- gives back for the others what they were last set to, and is told by its word.
import BytecodeDump.Proofs.NormalForm

namespace BytecodeDump

namespace Instruction

/-! ## Making an instruction and setting its operands -/

/-- How an instruction is made. -/
inductive Origin where
  | blank (opcode : UInt8) (slots : OperandSlots)
  | ofTable (table : OpcodeTable) (opcode : UInt8)
  | ofWord (table : OpcodeTable) (word : UInt32)

/-- The instruction as it was made. -/
def Origin.instruction : Origin → Instruction
  | blank opcode slots => Instruction.blank opcode slots
  | ofTable table opcode => Instruction.ofTable table opcode
  | ofWord table word => Instruction.ofWord table word

/-- A call that sets an operand. -/
structure Setting where
  operand : Operand
  value : operand.Word

/-- The outcome of the call, and the instruction after it: a call that fails leaves the one
that was there. -/
def Setting.call (s : Setting) (i : Instruction) : Except Fault Unit × Instruction :=
  match i.set s.operand s.value with
  | .ok changed => (.ok (), changed)
  | .error fault => (.error fault, i)

/-- The instruction after some calls. -/
def run (settings : List Setting) (i : Instruction) : Instruction :=
  settings.foldl (fun i s => (s.call i).2) i

/-- The operand was last set to the value. -/
def LastSet (settings : List Setting) (o : Operand) (value : o.Word) : Prop :=
  ∃ before after, settings = before ++ ⟨o, value⟩ :: after ∧ ∀ s ∈ after, s.operand ≠ o

variable {i j : Instruction} {s : Setting} {o o' : Operand} {table : OpcodeTable}

/-! ## One call -/

theorem call_of_undeclared (h : i.slots.declares s.operand = false) :
    s.call i = (.error (.operand i.opcode s.operand.letter), i) := by
  simp [Setting.call, set, h]

theorem call_of_declared (h : i.slots.declares s.operand = true) :
    s.call i = (.ok (), i.withField s.operand s.value) := by
  simp [Setting.call, set, h]

theorem withField_opcode (o : Operand) (v : o.Word) : (i.withField o v).opcode = i.opcode := by
  cases o <;> rfl

theorem withField_slots (o : Operand) (v : o.Word) : (i.withField o v).slots = i.slots := by
  cases o <;> rfl

theorem field_withField_self (o : Operand) (v : o.Word) : (i.withField o v).field o = v := by
  cases o <;> rfl

theorem field_withField_of_ne {v : o.Word} (h : o' ≠ o) :
    (i.withField o v).field o' = i.field o' := by
  cases o <;> cases o' <;> first | rfl | exact absurd rfl h

/-- An instruction that is clean before a declared operand is set is so after it. -/
theorem Clean.withField (hi : i.Clean) {v : o.Word} (h : i.slots.declares o = true) :
    (i.withField o v).Clean := by
  cases o with
  | a => exact ⟨fun ha => absurd (h.symm.trans ha) (by decide), hi.b, hi.c, hi.d⟩
  | b => exact ⟨hi.a, fun hb => absurd (h.symm.trans hb) (by decide), hi.c, hi.d⟩
  | c => exact ⟨hi.a, hi.b, fun hc => absurd (h.symm.trans hc) (by decide), hi.d⟩
  | d => exact ⟨hi.a, hi.b, hi.c, fun hd => absurd (h.symm.trans hd) (by decide)⟩

@[simp] theorem call_opcode (s : Setting) (i : Instruction) : (s.call i).2.opcode = i.opcode := by
  by_cases h : i.slots.declares s.operand
  · rw [call_of_declared h, withField_opcode]
  · rw [call_of_undeclared (by simpa using h)]

@[simp] theorem call_slots (s : Setting) (i : Instruction) : (s.call i).2.slots = i.slots := by
  by_cases h : i.slots.declares s.operand
  · rw [call_of_declared h, withField_slots]
  · rw [call_of_undeclared (by simpa using h)]

theorem field_call_of_ne (h : o ≠ s.operand) : (s.call i).2.field o = i.field o := by
  by_cases hs : i.slots.declares s.operand
  · rw [call_of_declared hs, field_withField_of_ne h]
  · rw [call_of_undeclared (by simpa using hs)]

theorem get_call_of_ne (h : o ≠ s.operand) : (s.call i).2.get o = i.get o := by
  rw [get, get, call_slots, call_opcode, field_call_of_ne h]

theorem Clean.call (h : i.Clean) (s : Setting) : (s.call i).2.Clean := by
  by_cases hs : i.slots.declares s.operand
  · rw [call_of_declared hs]
    exact h.withField hs
  · rwa [call_of_undeclared (by simpa using hs)]

/-! ## Any calls -/

theorem run_cons (s : Setting) (settings : List Setting) (i : Instruction) :
    run (s :: settings) i = run settings (s.call i).2 := rfl

theorem run_append (before after : List Setting) (i : Instruction) :
    run (before ++ after) i = run after (run before i) :=
  List.foldl_append

@[simp] theorem run_opcode (settings : List Setting) (i : Instruction) :
    (run settings i).opcode = i.opcode := by
  induction settings generalizing i with
  | nil => rfl
  | cons s settings ih => rw [run_cons, ih, call_opcode]

@[simp] theorem run_slots (settings : List Setting) (i : Instruction) :
    (run settings i).slots = i.slots := by
  induction settings generalizing i with
  | nil => rfl
  | cons s settings ih => rw [run_cons, ih, call_slots]

theorem Clean.run (h : i.Clean) (settings : List Setting) : (run settings i).Clean := by
  induction settings generalizing i with
  | nil => exact h
  | cons s settings ih => exact ih (h.call s)

/-- Calls on other operands do not change what an operand gives. -/
theorem get_run_of_never {settings : List Setting} (h : ∀ s ∈ settings, s.operand ≠ o)
    (i : Instruction) : (run settings i).get o = i.get o := by
  induction settings generalizing i with
  | nil => rfl
  | cons s settings ih =>
    obtain ⟨hs, hrest⟩ := List.forall_mem_cons.1 h
    rw [run_cons, ih hrest, get_call_of_ne (Ne.symm hs)]

/-- A declared operand gives what it was last set to. -/
theorem get_run_of_lastSet {settings : List Setting} {value : o.Word}
    (h : LastSet settings o value) (ho : i.slots.declares o = true) :
    (run settings i).get o = .ok value := by
  obtain ⟨before, after, rfl, hafter⟩ := h
  have hset : (run before i).slots.declares o = true := by rwa [run_slots]
  rw [run_append, run_cons, get_run_of_never hafter, call_of_declared hset, get, withField_slots,
    if_pos hset, field_withField_self]

/-! ## Words -/

theorem Origin.clean (origin : Origin) : origin.instruction.Clean := by
  cases origin with
  | blank opcode slots => exact ⟨fun _ => rfl, fun _ => rfl, fun _ => rfl, fun _ => rfl⟩
  | ofTable table opcode => exact ⟨fun _ => rfl, fun _ => rfl, fun _ => rfl, fun _ => rfl⟩
  | ofWord table word => exact clean_ofWord table word

/-- The instruction has the operands that the table gives its opcode, and D is not one of them
together with B or C. -/
structure Fits (table : OpcodeTable) (i : Instruction) : Prop where
  slots : i.slots = table.slots i.opcode
  alone : i.slots.d = true → i.slots.b = false ∧ i.slots.c = false

theorem Clean.ofWord_toWord (h : i.Clean) (hi : i.Fits table) : ofWord table i.toWord = i :=
  ofWord_toWord_of_alone hi.slots h hi.alone

theorem toWord_inj (hi : i.Clean) (hj : j.Clean) (hfits : i.Fits table) (hfits' : j.Fits table) :
    i.toWord = j.toWord ↔ i = j := by
  constructor
  · intro h
    rw [← hi.ofWord_toWord hfits, h, hj.ofWord_toWord hfits']
  · rintro rfl
    rfl

/-! ## The law -/

/-- A word comes back from its instruction without the bits outside the opcode and the declared
fields, also where these overlap. However an instruction was made and whatever was called on it,
the opcode and its operands are those it was made with; the fields that are not declared are
zero; a call on one of these names it in its fault and changes nothing, and the field cannot be
read; a declared operand gives what it was last set to, or what it was made with; and a call
changes no other operand. Where D is not declared together with B or C, such an instruction
comes back from its word, so that two of them are equal when their words are. -/
theorem words_and_operands_agree (table : OpcodeTable) :
    (∀ word, (ofWord table word).toWord = word &&& (table.slots word.toUInt8).mask) ∧
      ∀ (origin : Origin) (settings : List Setting) (i : Instruction),
        i = run settings origin.instruction →
        i.opcode = origin.instruction.opcode ∧ i.slots = origin.instruction.slots ∧ i.Clean ∧
        (∀ o, i.slots.declares o = false →
          i.get o = .error (.operand i.opcode o.letter) ∧
            ∀ value, Setting.call ⟨o, value⟩ i = (.error (.operand i.opcode o.letter), i)) ∧
        (∀ o, i.slots.declares o = true →
          (∀ value, LastSet settings o value → i.get o = .ok value) ∧
            ((∀ s ∈ settings, s.operand ≠ o) → i.get o = .ok (origin.instruction.field o)) ∧
            ∀ value, (Setting.call ⟨o, value⟩ i).1 = .ok () ∧
              (Setting.call ⟨o, value⟩ i).2.get o = .ok value) ∧
        (∀ (s : Setting) (o : Operand), o ≠ s.operand →
          (s.call i).2.field o = i.field o ∧ (s.call i).2.get o = i.get o) ∧
        (i.Fits table → ofWord table i.toWord = i ∧
          ∀ (origin' : Origin) (settings' : List Setting) (j : Instruction),
            j = run settings' origin'.instruction → j.Fits table →
              (i.toWord = j.toWord ↔ i = j)) := by
  refine ⟨fun word => toWord_ofWord table word, ?_⟩
  rintro origin settings i rfl
  have hclean := origin.clean.run settings
  refine ⟨run_opcode .., run_slots .., hclean, ?_, ?_, ?_, ?_⟩
  · intro o ho
    refine ⟨?_, fun value => call_of_undeclared ho⟩
    rw [get, ho]
    rfl
  · intro o ho
    have hmade : origin.instruction.slots.declares o = true := by rwa [run_slots] at ho
    refine ⟨fun value h => get_run_of_lastSet h hmade, ?_, ?_⟩
    · intro hnever
      rw [get_run_of_never hnever, get, if_pos hmade]
    · intro value
      rw [call_of_declared ho, get, withField_slots, if_pos ho, field_withField_self]
      exact ⟨rfl, rfl⟩
  · intro s o hne
    exact ⟨field_call_of_ne hne, get_call_of_ne hne⟩
  · intro hfits
    refine ⟨hclean.ofWord_toWord hfits, ?_⟩
    rintro origin' settings' j rfl hfits'
    exact toWord_inj hclean (origin'.clean.run settings') hfits hfits'

/-- Where D is declared together with B, their words tell instructions apart no longer. -/
example : (⟨0, ⟨false, true, false, true⟩, 0, 1, 0, 0⟩ : Instruction).toWord =
    (⟨0, ⟨false, true, false, true⟩, 0, 1, 0, 0x100⟩ : Instruction).toWord := by
  decide

end Instruction

end BytecodeDump
