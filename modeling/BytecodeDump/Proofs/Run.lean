-- The laws of a run in a folder: what its arguments ask for, what one effect after the
-- other leaves there, and how the outcome becomes the exit status.
import BytecodeDump.CommandLine.Folder
import BytecodeDump.Proofs.Split
import Mathlib.Data.List.TakeWhile

namespace BytecodeDump

namespace CommandLine

/-! ## Arguments -/

/-- The name does not begin with a dash, so that no argument takes it for an option. -/
def NoOption (name : String) : Prop := name.toList.head? ≠ some '-'

instance : DecidablePred NoOption := fun name =>
  inferInstanceAs (Decidable (name.toList.head? ≠ some '-'))

namespace NoOption

variable {name : String}

theorem ne_of_dash (h : NoOption name) {option : String} (hdash : ¬NoOption option) :
    name ≠ option := by
  rintro rfl
  exact hdash h

theorem ne_standardInput (h : NoOption name) : name ≠ standardInput := h.ne_of_dash (by decide)

theorem startsWith (h : NoOption name) : name.startsWith "--" = false := by
  rw [String.startsWith_string_eq_false_iff]
  rintro ⟨cs, hcs⟩
  rw [NoOption, ← hcs] at h
  exact h rfl

theorem looksLikeOption (h : NoOption name) : Options.looksLikeOption name = false := by
  unfold Options.looksLikeOption
  split
  · rename_i hcs
    rw [NoOption, hcs] at h
    exact absurd rfl h
  · rfl

end NoOption

namespace Options

variable {o : Options} {arg : String}

theorem parse_input (rest : List String) (h : NoOption arg) :
    o.parse (arg :: rest) = (o.addInput arg).parse rest := by
  have hne : arg ≠ "--" := h.ne_of_dash (by decide)
  conv => lhs; unfold parse
  split <;> rename_i heq <;> cases heq
  · exact absurd rfl hne
  · rw [if_neg (by simp [h.startsWith]), if_neg (by simp [h.looksLikeOption])]

/-- The argument names a long option, has no value in it, and asks neither for help nor
for the version. -/
def IsLong (arg : String) : Prop :=
  "--".toList <+: arg.toList ∧ '=' ∉ arg.toList ∧ arg ∉ ["--", "--help", "--version"]

instance : DecidablePred IsLong := fun _ => inferInstanceAs (Decidable (_ ∧ _ ∧ _))

theorem IsLong.nameAndValue (h : IsLong arg) : nameAndValue arg = (arg, none) := by
  have hall : ∀ c ∈ arg.toList, decide (c ≠ '=') = true := by
    intro c hc
    rw [decide_eq_true_eq]
    rintro rfl
    exact h.2.1 hc
  simp only [Options.nameAndValue, List.takeWhile_eq_self_iff.2 hall,
    List.dropWhile_eq_nil_iff.2 hall, String.ofList_toList]

/-- An option without a value is set; one with a value takes the next argument. -/
theorem parse_long (rest : List String) (h : IsLong arg) :
    o.parse (arg :: rest) =
      if takesValue arg then
        match rest with
        | value :: rest =>
          if looksLikeOption value then .error (.missingValue arg)
          else o.setValue arg value >>= (parse · rest)
        | [] => .error (.missingValue arg)
      else o.setFlag arg >>= (parse · rest) := by
  have hlong : arg.startsWith "--" = true := String.startsWith_string_iff.2 h.1
  have hname := h.nameAndValue
  obtain ⟨-, -, hne⟩ := h
  conv => lhs; unfold parse
  split <;> rename_i heq <;> cases heq
  · exact absurd (by simp) hne
  · rw [if_pos hlong]
    split <;> rename_i heq <;> cases hname.symm.trans heq
    · exact absurd (by simp) hne
    · exact absurd (by simp) hne
    · rfl

end Options

namespace Request

variable {name out : String}

theorem ofArguments_verify (h : NoOption name) :
    ofArguments [name, "--verify"] = .ok (.inspect { inputs := [name], verify := true }) := by
  rw [ofArguments, Options.parse_input _ h, Options.parse_long _ (by decide)]
  rfl

theorem ofArguments_strip (h : NoOption name) (hout : NoOption out) :
    ofArguments [name, "--strip", "--out", out] =
      .ok (.inspect { inputs := [name], strip := true, out := some out }) := by
  rw [ofArguments, Options.parse_input _ h, Options.parse_long _ (by decide),
    if_neg (by decide)]
  show Options.parse { inputs := [name], strip := true } ["--out", out] = _
  rw [Options.parse_long _ (by decide), if_pos (by decide)]
  simp only [hout.looksLikeOption]
  rfl

end Request

/-! ## Paths -/

/-- A path without a slash needs no directory to be made. -/
theorem makeParent_of_plain {m : Type → Type} [Monad m] (host : Host m) {path : String}
    (h : '/' ∉ path.toList) : makeParent host path = pure (.ok ()) := by
  have hsegments : PathText.segments path = [path] := by
    simp [PathText.segments, Text.split_of_notMem h]
  have habsolute : PathText.isAbsolute path = false := by
    rw [PathText.isAbsolute, decide_eq_false_iff_not]
    exact fun hhead => h (List.mem_of_head? hhead)
  have hcounted : PathText.counted path = [path].filter (· ≠ "") := by
    rw [PathText.counted, habsolute, hsegments]
    rfl
  have hparent : (PathText.parent? path).filter (· ≠ "") = none := by
    rw [PathText.parent?, hcounted, habsolute]
    by_cases hempty : path = "" <;> simp [hempty, PathText.trimmed]
  rw [makeParent, hparent]

/-! ## Effects -/

namespace Session

variable {s : Session} {o : Options} {name path : String} {bytes : Bytes} {folder : Folder}

/-- What is there after some effects, and whether they came to the end. -/
def outcome (s : Session) (effects : List Effect) : Except String Unit × Session :=
  (performAll host effects).run s

theorem outcome_nil : s.outcome [] = (.ok (), s) := rfl

theorem outcome_report (line : String) (rest : List Effect) :
    s.outcome (.report line :: rest) =
      outcome { s with errors := s.errors ++ (line ++ "\n") } rest := rfl

theorem outcome_fail (reason : String) (rest : List Effect) :
    s.outcome (.fail reason :: rest) = (.error reason, s) := rfl

theorem writeFile_of_write (h : s.folder.write path bytes = .ok folder) :
    (host.writeFile path bytes).run s = (.ok (), { s with folder }) := by
  simp only [host, change, StateT.run_bind, StateT.run_get, pure_bind, h]
  rfl

/-- A file is written to the folder; a plain name asks for no other directory. -/
theorem outcome_write (hplain : '/' ∉ path.toList)
    (hwrite : s.folder.write path bytes = .ok folder) (rest : List Effect) :
    s.outcome (.write path bytes :: rest) = outcome { s with folder } rest := by
  have hperform : (perform host (.write path bytes)).run s = (.ok (), { s with folder }) := by
    rw [perform, writeOutput, makeParent_of_plain host hplain, pure_bind]
    simp only [StateT.run_bind, writeFile_of_write hwrite]
    rfl
  rw [outcome, performAll, StateT.run_bind, hperform]
  rfl

/-! ## Runs on one file -/

/-- A failure ends the run with status 1 and is reported. -/
def close : Except String Unit × Session → UInt32 × Session
  | (.ok (), s) => (0, s)
  | (.error reason, s) => (1, { s with errors := s.errors ++ ("❌ " ++ reason ++ "\n") })

theorem inspectFile_of_read (hname : name ≠ standardInput)
    (hread : s.folder.read name = .ok bytes) :
    (inspectFile host o name).run s = s.outcome (inspect o name bytes) := by
  have hfile : (host.readFile name).run s = (.ok bytes, s) := congrArg (·, s) hread
  unfold inspectFile
  rw [if_neg hname, StateT.run_bind, hfile]
  rfl

theorem inspectAll_of_read (hinputs : o.inputs = [name]) (hname : name ≠ standardInput)
    (hread : s.folder.read name = .ok bytes) :
    (inspectAll host o).run s = s.outcome (inspect o name bytes) := by
  unfold inspectAll
  rw [hinputs, if_neg (by simp), if_neg (by simp), if_neg (by simpa using hname)]
  unfold inspectFiles
  rw [StateT.run_bind, inspectFile_of_read hname hread]
  obtain ⟨result, after⟩ := s.outcome (inspect o name bytes)
  cases result with
  | ok => rfl
  | error reason => rfl

/-- A run on one file does what is worked out from its bytes. -/
theorem run_file {args : List String} (hargs : Request.ofArguments args = .ok (.inspect o))
    (hinputs : o.inputs = [name]) (hname : name ≠ standardInput)
    (hread : s.folder.read name = .ok bytes) :
    s.run args = close (s.outcome (inspect o name bytes)) := by
  unfold run CommandLine.run
  rw [hargs, StateT.run_bind, inspectAll_of_read hinputs hname hread]
  obtain ⟨result, after⟩ := s.outcome (inspect o name bytes)
  cases result with
  | ok => rfl
  | error reason => rfl

end Session

end CommandLine

end BytecodeDump
