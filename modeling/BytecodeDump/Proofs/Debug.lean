-- The laws of debug blocks in a dump: when a block fits, its form, and that reading
-- the form gives the block back. Scopes are written as distances, so the variables
-- have to stand in the order in which their scopes begin.
import BytecodeDump.Proofs.Field
import BytecodeDump.Proofs.Output
import BytecodeDump.Wire.Debug

namespace BytecodeDump

open Reader Output

/-! ## Names of local variables -/

namespace LocalName

/-- The form of the name in a dump. -/
def written : LocalName → Bytes
  | loop v => [v.code]
  | named bytes => bytes ++ [0]

/-- No code of a loop variable and no end of the list is taken for the name. -/
def Fits : LocalName → Prop
  | loop _ => True
  | named bytes => 7 ≤ bytes.headD 0 ∧ 0 ∉ bytes

end LocalName

namespace DebugInfo

theorem writeName_eq_ok (path : Path) (name out : Bytes) :
    writeName path name = .ok out ↔ 0 ∉ name ∧ out = name ++ [0] := by
  unfold writeName
  by_cases hzero : 0 ∈ name
  · simp [hzero]
  · simp [hzero, eq_comm]

theorem writeLocalName_eq_ok (path : Path) (name : LocalName) (out : Bytes) :
    writeLocalName path name = .ok out ↔ name.Fits ∧ out = name.written := by
  cases name with
  | loop v =>
    simp only [writeLocalName, Except.ok.injEq, LocalName.Fits, true_and, LocalName.written]
    exact eq_comm
  | named name =>
    unfold writeLocalName
    dsimp only
    by_cases hlead : name.headD 0 < 7
    · rw [if_pos hlead]
      simp only [reduceCtorEq, false_iff, not_and]
      intro hfits
      exact absurd hfits.1 (UInt8.not_le.2 hlead)
    · rw [if_neg hlead, writeName_eq_ok]
      simp only [LocalName.Fits, LocalName.written, UInt8.not_lt.1 hlead, true_and]

end DebugInfo

namespace LoopVariable

theorem ofCode_code (v : LoopVariable) : ofCode? v.code = some v := by
  cases v <;> rfl

theorem code_ofCode {code : UInt8} {v : LoopVariable} (h : ofCode? code = some v) :
    v.code = code := by
  have hcode : code.toNat = v.code.toNat := by
    unfold ofCode? at h
    split at h <;> cases h <;> assumption
  exact UInt8.toNat_inj.1 hcode.symm

theorem code_ne_zero (v : LoopVariable) : v.code ≠ 0 := by
  cases v <;> decide

theorem ofCode_of_ge {code : UInt8} (h : 7 ≤ code) : ofCode? code = none := by
  have hge : 7 ≤ code.toNat := UInt8.le_iff_toNat_le.1 h
  unfold ofCode?
  split <;> first | omega | rfl

theorem le_of_ofCode {code : UInt8} (h : ofCode? code = none) (hzero : code ≠ 0) : 7 ≤ code := by
  have hne : code.toNat ≠ 0 := fun h0 => hzero (UInt8.toNat_inj.1 h0)
  by_contra hlt
  have hsmall : code.toNat < 7 := UInt8.lt_iff_toNat_lt.1 (UInt8.not_le.1 hlt)
  unfold ofCode? at h
  interval_cases code.toNat
  · exact hne rfl
  all_goals cases h

end LoopVariable

/-! ## Local variables -/

namespace LocalName

/-- The first byte of the form tells the kinds of names apart. -/
theorem reads {name : LocalName} (h : name.Fits) :
    ∃ lead tail, name.written = lead :: tail ∧ lead ≠ 0 ∧
      Reads (LocalVariable.readName lead) name.written name := by
  cases name with
  | loop v =>
    refine ⟨v.code, [], rfl, v.code_ne_zero, ?_⟩
    unfold LocalVariable.readName
    rw [v.ofCode_code]
    exact reads_bind_nil (reads_byte v.code) (reads_pure _)
  | named bytes =>
    obtain ⟨hlead, hzero⟩ := h
    cases bytes with
    | nil => exact absurd hlead (by decide)
    | cons lead tail =>
      refine ⟨lead, tail ++ [0], rfl, ?_, ?_⟩
      · rintro rfl
        exact hzero List.mem_cons_self
      · unfold LocalVariable.readName
        have hcode : LoopVariable.ofCode? lead = none := LoopVariable.ofCode_of_ge hlead
        rw [hcode]
        exact reads_bind_nil (reads_cstring hzero) (reads_pure _)

end LocalName

namespace LocalVariable

/-- The form of a variable that is listed after a scope that starts at `previous`. -/
def written (previous : UInt32) (v : LocalVariable) : Bytes :=
  v.name.written ++ Output.leb32 (v.first - previous) ++ Output.leb32 v.count

/-- The forms of the variables that follow a scope that starts at `previous`. -/
def writtenAll : UInt32 → List LocalVariable → Bytes
  | _, [] => []
  | previous, v :: vs => v.written previous ++ writtenAll v.first vs

/-- Every name fits, and the scopes begin in order, none before `previous`. -/
def FitAll : UInt32 → List LocalVariable → Prop
  | _, [] => True
  | previous, v :: vs => v.name.Fits ∧ previous ≤ v.first ∧ FitAll v.first vs

theorem length_written (previous : UInt32) (v : LocalVariable) :
    0 < (v.written previous).length := by
  simp only [written, List.length_append]
  have := Leb128.length_encode_pos v.count.toNat
  unfold Output.leb32
  omega

theorem reads {previous : UInt32} {v : LocalVariable} {lead : UInt8} (hprev : previous ≤ v.first)
    (hname : Reads (readName lead) v.name.written v.name) :
    Reads (read lead previous) (v.written previous) v := by
  have hle : previous.toNat ≤ v.first.toNat := UInt32.le_iff_toNat_le.1 hprev
  have hdistance : (v.first - previous).toNat = v.first.toNat - previous.toNat :=
    UInt32.toNat_sub_of_le _ _ hprev
  have hsum : previous.toNat + (v.first - previous).toNat < 0x100000000 := by
    have := v.first.toNat_lt
    omega
  have hfirst : previous + (v.first - previous) = v.first := by
    rw [add_comm]
    exact sub_add_cancel _ _
  unfold written
  rw [List.append_assoc]
  apply reads_pos
  intro start
  apply reads_bind hname
  apply reads_bind (reads_leb32 (v.first - previous))
  apply reads_bind_nil (reads_leb32 v.count)
  rw [if_pos hsum, hfirst]
  exact reads_pure v

/-- With a step for each variable and one for the end, the steps do not run out. -/
theorem reads_all {previous : UInt32} {vs : List LocalVariable} {steps : Nat}
    (h : FitAll previous vs) (hsteps : vs.length < steps) :
    Reads (readAll steps previous) (writtenAll previous vs ++ [0]) vs := by
  induction vs generalizing previous steps with
  | nil =>
    obtain ⟨steps, rfl⟩ : ∃ k, steps = k + 1 := ⟨steps - 1, by omega⟩
    apply reads_peek
    rw [if_pos rfl]
    exact reads_bind_nil (reads_byte 0) (reads_pure [])
  | cons v vs ih =>
    rw [List.length_cons] at hsteps
    obtain ⟨steps, rfl⟩ : ∃ k, steps = k + 1 := ⟨steps - 1, by omega⟩
    obtain ⟨hname, hprev, hvs⟩ := h
    obtain ⟨lead, tail, hlead, hne, hreads⟩ := LocalName.reads hname
    have hform : writtenAll previous (v :: vs) ++ [0] =
        v.written previous ++ (writtenAll v.first vs ++ [0]) := by
      rw [writtenAll, List.append_assoc]
    have hstep : Reads (do
        let first ← read lead previous
        let others ← readAll steps first.first
        return first :: others) (v.written previous ++ (writtenAll v.first vs ++ [0])) (v :: vs) :=
      reads_bind (reads hprev hreads) (reads_bind_nil (ih hvs (by omega)) (reads_pure _))
    have hcons : ∃ rest, v.written previous ++ (writtenAll v.first vs ++ [0]) = lead :: rest := by
      rw [written, hlead]
      exact ⟨_, rfl⟩
    obtain ⟨rest, hcons⟩ := hcons
    rw [hform, hcons]
    apply reads_peek
    rw [if_neg hne, ← hcons]
    exact hstep

theorem length_le_writtenAll (previous : UInt32) (vs : List LocalVariable) :
    vs.length ≤ (writtenAll previous vs).length := by
  induction vs generalizing previous with
  | nil => exact Nat.le_refl 0
  | cons v vs ih =>
    have := length_written previous v
    have := ih v.first
    rw [writtenAll, List.length_append, List.length_cons]
    omega

theorem local_readName (lead : UInt8) : Local (readName lead) := by
  unfold readName
  split
  · exact local_bind local_byte fun _ => local_pure _
  · exact local_bind local_cstring fun _ => local_pure _

theorem local_read (lead : UInt8) (previous : UInt32) : Local (read lead previous) := by
  apply local_pos
  · intro start
    apply local_bind (local_readName lead)
    intro name
    apply local_bind local_leb32
    intro distance
    exact local_bind local_leb32 fun _ => local_ite (local_pure _) (local_fail _)
  · intro start other
    apply follows_bind
    intro name
    apply follows_bind
    intro distance
    apply follows_bind
    intro count f x h
    by_cases hsum : previous.toNat + distance.toNat < 0x100000000
    · rw [if_pos hsum] at h ⊢
      exact h
    · rw [if_neg hsum] at h
      cases h

/-- A variable takes at least the byte that its name begins with. -/
theorem readName_nil (lead : UInt8) (start : Nat) :
    ∃ fault, readName lead ⟨start, []⟩ = .error fault := by
  unfold readName
  cases LoopVariable.ofCode? lead with
  | some v => exact ⟨_, rfl⟩
  | none => exact ⟨_, rfl⟩

theorem not_reads_nil {lead : UInt8} {previous : UInt32} {v : LocalVariable} :
    ¬Reads (read lead previous) [] v := by
  intro h
  obtain ⟨fault, hfault⟩ := readName_nil lead 0
  obtain ⟨start, f, hstart, hread⟩ := bind_eq_ok.1 (h 0 [])
  cases hstart
  obtain ⟨name, f, hname, -⟩ := bind_eq_ok.1 hread
  rw [List.nil_append, hfault] at hname
  cases hname

/-- The variables are the bytes up to the zero, for any number of steps that is no
less than the number of these bytes. -/
theorem readAll_eq_ok {steps : Nat} {previous : UInt32} {f f' : Feed} {vs : List LocalVariable}
    (h : readAll steps previous f = .ok (vs, f')) :
    ∃ bytes, f.rest = bytes ++ f'.rest ∧ f'.pos = f.pos + bytes.length ∧
      ∀ others, bytes.length ≤ others → Reads (readAll others previous) bytes vs := by
  induction steps generalizing previous f vs with
  | zero => cases h
  | succ steps ih =>
    obtain ⟨lead, f₀, hpeek, h⟩ := bind_eq_ok.1 h
    obtain ⟨start, rest⟩ := f
    cases rest with
    | nil => cases hpeek
    | cons b bs =>
      cases hpeek
      by_cases hzero : lead = 0
      · subst hzero
        rw [if_pos rfl] at h
        cases h
        refine ⟨[0], rfl, rfl, ?_⟩
        intro others hothers
        obtain ⟨others, rfl⟩ : ∃ k, others = k + 1 := ⟨others - 1, by simp at hothers; omega⟩
        apply reads_peek
        rw [if_pos rfl]
        exact reads_bind_nil (reads_byte 0) (reads_pure [])
      · rw [if_neg hzero] at h
        obtain ⟨first, f₁, hfirst, h⟩ := bind_eq_ok.1 h
        obtain ⟨tail, f₂, htail, h⟩ := bind_eq_ok.1 h
        cases h
        obtain ⟨bytes, hrest, hpos, hreads⟩ := local_read lead previous _ _ _ hfirst
        obtain ⟨bytes', hrest', hpos', hreads'⟩ := ih htail
        -- The first variable took the byte that was looked at, and maybe more.
        obtain ⟨bytes, rfl⟩ : ∃ more, bytes = lead :: more := by
          cases bytes with
          | nil => exact absurd hreads not_reads_nil
          | cons c cs =>
            rw [List.cons_append, List.cons.injEq] at hrest
            exact ⟨cs, by rw [hrest.1]⟩
        refine ⟨lead :: bytes ++ bytes', ?_, ?_, ?_⟩
        · rw [hrest, hrest', List.append_assoc]
        · rw [hpos', hpos, List.length_append, Nat.add_assoc]
        · intro others hothers
          rw [List.length_append, List.length_cons] at hothers
          obtain ⟨others, rfl⟩ : ∃ k, others = k + 1 := ⟨others - 1, by omega⟩
          apply reads_peek
          rw [if_neg hzero]
          exact reads_bind hreads (reads_bind_nil (hreads' others (by omega)) (reads_pure _))

theorem local_readAll (previous : UInt32) :
    Local (left >>= fun steps => readAll steps previous) := by
  intro f vs f' h
  obtain ⟨bytes, hrest, hpos, hreads⟩ := readAll_eq_ok h
  exact ⟨bytes, hrest, hpos, reads_left hreads⟩

end LocalVariable

/-! ## Debug blocks -/

namespace DebugInfo

theorem writeLine_eq_ok (e : Endian) (path : Path) (width pc : Nat) (line : UInt32) (out : Bytes) :
    writeLine e path width pc line = .ok out ↔
      line.toNat < Endian.span width ∧ out = e.write width line.toNat := by
  unfold writeLine
  exact check_eq_ok

theorem writeLocals_eq_ok (path : Path) (previous : UInt32) (vs : List LocalVariable)
    (out : Bytes) :
    writeLocals path previous vs = .ok out ↔
      LocalVariable.FitAll previous vs ∧ out = LocalVariable.writtenAll previous vs := by
  induction vs generalizing previous out with
  | nil =>
    simp only [writeLocals, Except.ok.injEq, LocalVariable.FitAll, true_and,
      LocalVariable.writtenAll]
    exact eq_comm
  | cons v vs ih =>
    simp only [writeLocals, andThen_eq_ok, writeLocalName_eq_ok, LocalVariable.FitAll]
    refine ⟨?_, ?_⟩
    · rintro ⟨_, ⟨hname, rfl⟩, hrest⟩
      by_cases hprev : v.first < previous
      · rw [if_pos hprev] at hrest
        cases hrest
      · rw [if_neg hprev] at hrest
        obtain ⟨_, hothers, hout⟩ := andThen_eq_ok.1 hrest
        obtain ⟨hvs, rfl⟩ := (ih _ _).1 hothers
        refine ⟨⟨hname, UInt32.not_lt.1 hprev, hvs⟩, ?_⟩
        exact pure_eq_ok.1 hout
    · rintro ⟨⟨hname, hprev, hvs⟩, rfl⟩
      refine ⟨_, ⟨hname, rfl⟩, ?_⟩
      rw [if_neg (UInt32.not_lt.2 hprev)]
      exact andThen_eq_ok.2 ⟨_, (ih _ _).2 ⟨hvs, rfl⟩, rfl⟩

/-- The form of the block in a dump. -/
def written (e : Endian) (info : DebugInfo) : Bytes :=
  info.lines.flatMap (fun line => e.write info.lineWidth line.toNat)
    ++ info.upvalueNames.flatMap (· ++ [0]) ++ LocalVariable.writtenAll 0 info.locals ++ [0]

/-- The block has a line for each instruction and a name for each upvalue; lines fit
their width, no name would end before its end, and the variables fit. -/
structure Fits (info : DebugInfo) (instructions upvalues : Nat) : Prop where
  lines_length : info.lines.length = instructions
  names_length : info.upvalueNames.length = upvalues
  lines : ∀ line ∈ info.lines, line.toNat < Endian.span info.lineWidth
  names : ∀ name ∈ info.upvalueNames, 0 ∉ name
  locals : LocalVariable.FitAll 0 info.locals

theorem write_eq_ok (e : Endian) (path : Path) (instructions upvalues : Nat) (info : DebugInfo)
    (out : Bytes) :
    info.write e path instructions upvalues = .ok out ↔
      info.Fits instructions upvalues ∧ out = info.written e := by
  have hline (line : UInt32) (pc : Nat) := writeLine_eq_ok e path info.lineWidth pc line
  have hlines :=
    each_zipIdx_eq_ok (fun x => writeLine e path info.lineWidth x.2 x.1) info.lines hline
  have hnames := each_eq_ok fun name (_ : name ∈ info.upvalueNames) piece =>
    writeName_eq_ok path name piece
  unfold write
  by_cases h1 : info.lines.length = instructions
  · by_cases h2 : info.upvalueNames.length = upvalues
    · simp only [h1, h2, ne_eq, not_true_eq_false, if_false]
      simp only [andThen_eq_ok, hlines, hnames, writeLocals_eq_ok, pure_eq_ok]
      refine ⟨?_, ?_⟩
      · rintro ⟨_, ⟨h3, rfl⟩, _, ⟨h4, rfl⟩, _, ⟨h5, rfl⟩, rfl⟩
        exact ⟨⟨h1, h2, h3, h4, h5⟩, rfl⟩
      · rintro ⟨⟨_, _, h3, h4, h5⟩, rfl⟩
        exact ⟨_, ⟨h3, rfl⟩, _, ⟨h4, rfl⟩, _, ⟨h5, rfl⟩, rfl⟩
    · simp only [h1, h2, ne_eq, not_true_eq_false, not_false_eq_true, if_false, if_true]
      refine ⟨?_, ?_⟩
      · intro h
        cases h
      · rintro ⟨hfits, _⟩
        exact absurd hfits.names_length h2
  · simp only [h1, ne_eq, not_false_eq_true, if_true]
    refine ⟨?_, ?_⟩
    · intro h
      cases h
    · rintro ⟨hfits, _⟩
      exact absurd hfits.lines_length h1

theorem reads {e : Endian} {instructions upvalues : Nat} {info : DebugInfo}
    (h : info.Fits instructions upvalues) :
    Reads (read e info.firstLine info.lineCount instructions upvalues) (info.written e) info := by
  obtain ⟨rfl, rfl, hlines, hnames, hlocals⟩ := h
  have hmap : (info.lines.map UInt32.toNat).map UInt32.ofNat = info.lines := by
    rw [List.map_map]
    exact List.map_id'' (fun line => UInt32.ofNat_toNat) _
  unfold written
  rw [List.append_assoc, List.append_assoc]
  apply reads_bind (reads_times fun line hline => reads_fixed_write e (hlines line hline))
  apply reads_bind (reads_times fun name hname => reads_cstring (hnames name hname))
  apply reads_left
  intro count hcount
  have hle := LocalVariable.length_le_writtenAll 0 info.locals
  rw [List.length_append, List.length_singleton] at hcount
  apply reads_bind_nil (LocalVariable.reads_all hlocals (by omega))
  rw [hmap, List.map_id']
  exact reads_pure info

theorem local_read (e : Endian) (firstLine lineCount : UInt32) (instructions upvalues : Nat) :
    Local (read e firstLine lineCount instructions upvalues) := by
  apply local_bind (local_times (local_fixed e _) _)
  intro lines
  apply local_bind (local_times local_cstring _)
  intro names
  have hlocals := local_bind (LocalVariable.local_readAll 0) fun locals => local_pure
    ({ firstLine, lineCount, lines := lines.map UInt32.ofNat, upvalueNames := names, locals } :
      DebugInfo)
  rw [bind_assoc] at hlocals
  exact hlocals

end DebugInfo

end BytecodeDump
