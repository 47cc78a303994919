-- Which local variables live at an instruction. The search through the scopes ends early, and
-- counts their ends in 32 bits, but where the scopes stand in the order in which they begin it
-- finds just what is in scope, and every debug block of a decoded dump has them in this order.
import BytecodeDump.Opcode.InstructionSet
import BytecodeDump.Proofs.NormalForm
import BytecodeDump.Proofs.Walk

namespace BytecodeDump

namespace LocalVariable

/-- The instruction is one of those that the scope covers. -/
def LivesAt (v : LocalVariable) (pc : Nat) : Prop :=
  v.first.toNat ≤ pc ∧ pc < v.first.toNat + v.count.toNat

instance (v : LocalVariable) (pc : Nat) : Decidable (v.LivesAt pc) :=
  inferInstanceAs (Decidable (_ ∧ _))

variable {v : LocalVariable} {pc : UInt32}

/-- The end of a scope past 32 bits is past every instruction too. -/
theorem lt_scopeEnd_iff (h : pc.toNat < 2 ^ 32 - 1) :
    pc < v.scopeEnd ↔ pc.toNat < v.first.toNat + v.count.toNat := by
  have hend : min (v.first.toNat + v.count.toNat) 0xFFFFFFFF < 2 ^ 32 := by omega
  rw [UInt32.lt_iff_toNat_lt, scopeEnd, UInt32.toNat_ofNat_of_lt' hend]
  omega

theorem livesAt_iff (h : pc.toNat < 2 ^ 32 - 1) :
    v.LivesAt pc.toNat ↔ v.first ≤ pc ∧ pc < v.scopeEnd := by
  rw [LivesAt, lt_scopeEnd_iff h, UInt32.le_iff_toNat_le]

end LocalVariable

namespace DebugInfo

open LocalVariable

/-- The variables stand in the order in which their scopes begin. -/
def InOrder (info : DebugInfo) : Prop := (info.locals.map first).Pairwise (· ≤ ·)

variable {pc : UInt32} {vs : List LocalVariable}

/-! ## The search -/

/-- Whatever the order of the scopes, the search counts those that have not ended, among the
ones before the first that begins later. -/
theorem liveVariable?_eq (pc : UInt32) (slot : Nat) (vs : List LocalVariable) :
    liveVariable? pc slot vs =
      ((vs.takeWhile (·.first ≤ pc)).filter (pc < ·.scopeEnd))[slot]? := by
  induction vs generalizing slot with
  | nil => rfl
  | cons v vs ih =>
    unfold liveVariable?
    by_cases hlater : pc < v.first
    · have hfirst : ¬v.first ≤ pc := UInt32.not_le.2 hlater
      rw [if_pos hlater, List.takeWhile_cons_of_neg (by simpa using hfirst)]
      rfl
    · have hfirst : v.first ≤ pc := UInt32.not_lt.1 hlater
      rw [if_neg hlater, List.takeWhile_cons_of_pos (by simpa using hfirst)]
      by_cases hlive : pc < v.scopeEnd
      · rw [if_pos hlive, List.filter_cons_of_pos (by simpa using hlive)]
        cases slot with
        | zero => rfl
        | succ slot => exact ih slot
      · rw [if_neg hlive, List.filter_cons_of_neg (by simpa using hlive)]
        exact ih slot

/-- In order, none of the scopes that the search leaves out has begun. -/
theorem filter_takeWhile_of_ordered (h : (vs.map first).Pairwise (· ≤ ·)) :
    (vs.takeWhile (·.first ≤ pc)).filter (pc < ·.scopeEnd) =
      vs.filter fun v => v.first ≤ pc ∧ pc < v.scopeEnd := by
  induction vs with
  | nil => rfl
  | cons v vs ih =>
    rw [List.map_cons, List.pairwise_cons] at h
    by_cases hfirst : v.first ≤ pc
    · rw [List.takeWhile_cons_of_pos (by simpa using hfirst), List.filter_cons, List.filter_cons,
        ih h.2]
      simp [hfirst]
    · rw [List.takeWhile_cons_of_neg (by simpa using hfirst), List.filter_nil, eq_comm,
        List.filter_eq_nil_iff]
      intro other hother hlive
      have hbegun : other.first ≤ pc := (of_decide_eq_true hlive).1
      rcases List.mem_cons.1 hother with rfl | hother
      · exact hfirst hbegun
      · exact hfirst (UInt32.le_trans (h.1 _ (List.mem_map_of_mem hother)) hbegun)

theorem variableName?_of_ordered {info : DebugInfo} (h : info.InOrder)
    (hpc : pc.toNat < 2 ^ 32 - 1) (slot : Nat) :
    info.variableName? pc slot =
      ((info.locals.filter (·.LivesAt pc.toNat))[slot]?).map (·.name.bytes) := by
  rw [variableName?, liveVariable?_eq, filter_takeWhile_of_ordered h]
  simp only [livesAt_iff hpc]

/-- The largest number of 32 bits is no instruction, and no variable is found there. -/
example : ({ locals := [⟨.loop .index, 0xFFFFFFFF, 1⟩] } : DebugInfo).variableName? 0xFFFFFFFF 0 =
    none := by
  decide

/-! ## Decoded blocks -/

theorem inOrder_of_decode {table : OpcodeTable} {bytes : Bytes} {s : Script}
    (h : Script.decode table bytes = .ok s) {path : Path} {p : Prototype}
    (hp : s.prototype? path = some p) {info : DebugInfo} (hinfo : p.body.debug = some info) :
    info.InOrder := by
  obtain ⟨_, -, hsound⟩ := Script.sound_of_decode table h
  have hbody := (Script.normal_of_sound hsound).bodies _ (Script.mem_walk_iff.2 hp)
  exact (hbody.debug info hinfo).scopes

/-! ## The law -/

/-- Where the scopes stand in the order in which they begin, the variable number `slot` at an
instruction is number `slot` of those whose scopes cover it, however long these are, and there
is none where they are fewer. Every debug block of a decoded dump is in this order. -/
theorem variables_are_those_in_scope :
    (∀ info : DebugInfo, info.InOrder → ∀ pc : UInt32, pc.toNat < 2 ^ 32 - 1 → ∀ slot,
      info.variableName? pc slot =
        ((info.locals.filter (·.LivesAt pc.toNat))[slot]?).map (·.name.bytes)) ∧
    ∀ table bytes s, Script.decode table bytes = .ok s →
      ∀ path p info, s.prototype? path = some p → p.body.debug = some info → info.InOrder := by
  refine ⟨fun info h pc hpc slot => variableName?_of_ordered h hpc slot, ?_⟩
  intro table bytes s h path p info hp hinfo
  exact inOrder_of_decode h hp hinfo

/-- Three variables: one that lives nowhere, one up to the largest number of 32 bits, and one
past it. -/
def scopedDebug : DebugInfo where
  lineCount := 1
  lines := [0]
  locals := [⟨.named [0x78], 0, 0⟩, ⟨.named [0x79], 0, 0xFFFFFFFF⟩, ⟨.loop .index, 1, 0xFFFFFFFF⟩]

/-- A function with these variables. -/
def scopedScript : Script where
  flags := ⟨0⟩
  chunkName := [0x3D]
  root := .node { code := [⟨75, .ad, 0, 0, 0, 1⟩], debug := some scopedDebug } none []

/-- The dump of this function. -/
def scopedDump : Bytes :=
  [0x1B, 0x4C, 0x4A, 2, 0, 1, 0x3D, 35, 0, 0, 0, 0, 0, 0, 1, 21, 0, 1, 75, 0, 1, 0, 0, 0x78, 0, 0,
    0, 0x79, 0, 0, 0xFF, 0xFF, 0xFF, 0xFF, 0x0F, 1, 1, 0xFF, 0xFF, 0xFF, 0xFF, 0x0F, 0, 0]

theorem scopedDump_has_two_variables :
    Script.decode .builtin scopedDump = .ok scopedScript ∧ scopedDebug.InOrder ∧
      (0xFFFFFFFE : UInt32).toNat < 2 ^ 32 - 1 ∧
      ∀ slot, scopedDebug.variableName? 0xFFFFFFFE slot =
        [[0x79], [0x28, 0x66, 0x6F, 0x72, 0x20, 0x69, 0x6E, 0x64, 0x65, 0x78, 0x29]][slot]? := by
  have hdecode : Script.decode .builtin scopedDump = .ok scopedScript := by decide +kernel
  obtain ⟨hnames, hdecoded⟩ := variables_are_those_in_scope
  have horder : scopedDebug.InOrder :=
    hdecoded _ _ _ hdecode .root scopedScript.root scopedDebug rfl rfl
  have hlast : (0xFFFFFFFE : UInt32).toNat < 2 ^ 32 - 1 := by decide
  have hlive : (scopedDebug.locals.filter (·.LivesAt (0xFFFFFFFE : UInt32).toNat)).map
      (·.name.bytes) =
        [[0x79], [0x28, 0x66, 0x6F, 0x72, 0x20, 0x69, 0x6E, 0x64, 0x65, 0x78, 0x29]] := by
    decide +kernel
  refine ⟨hdecode, horder, hlast, ?_⟩
  intro slot
  rw [hnames scopedDebug horder _ hlast slot, ← List.getElem?_map, hlive]

end DebugInfo

end BytecodeDump
