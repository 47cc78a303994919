-- What a run that strips leaves in its file: a dump that verifies, and that another run
-- that strips does not change.
import BytecodeDump.Proofs.Folder
import BytecodeDump.Proofs.Stripping
import BytecodeDump.Proofs.Verification

namespace BytecodeDump

/-! ## Stripped dumps -/

namespace Script

variable {table : OpcodeTable} {s : Script} {bytes : Bytes}

/-- A script that was decoded is read back as it is. -/
theorem readBack_of_decode (h : decode table bytes = .ok s) : s.readBack table = s := by
  obtain ⟨_, -, hsound⟩ := sound_of_decode table h
  have hconstants : ∀ q ∈ s.root.postOrder, ∀ k ∈ q.body.constants, k.Keyed :=
    fun q hq => (hsound.stable q hq).constants
  have hback := decode_of_fits hsound.fits hconstants
  rw [decode_written hsound.fits hsound.stable, hsound.same] at hback
  exact (Except.ok.inj hback).symm

/-- Stripping what was decoded gives a script that is read back as it is, too. -/
theorem decode_stripDebug (h : decode table bytes = .ok s) :
    decode table s.stripDebug.written = .ok s.stripDebug := by
  obtain ⟨_, -, hsound⟩ := sound_of_decode table h
  have hfits := fits_stripDebug hsound.fits
  have hconstants : ∀ q ∈ s.stripDebug.root.postOrder, ∀ k ∈ q.body.constants, k.Keyed := by
    rw [stripDebug, Prototype.strip_eq_mapBodies]
    exact (Prototype.forall_mapBodies (P := fun b => ∀ k ∈ b.constants, k.Keyed)
      Body.childIndices_strip).2 fun q hq => (hsound.stable q hq).constants
  rw [decode_of_fits hfits hconstants, readBack_stripDebug, readBack_of_decode h]

end Script

namespace CommandLine

open Inspection

/-- A name that stands for itself: no option, and no path with directories. -/
structure PlainName (name : String) : Prop where
  noOption : NoOption name
  noSlash : '/' ∉ name.toList

theorem inspect_strip {name out : String} {bytes stripped : Bytes} {script : Script}
    (hdecode : Script.decode .builtin bytes = .ok script)
    (hencode : Script.encode .builtin script.stripDebug = .ok stripped) :
    inspect { inputs := [name], strip := true, out := some out } name bytes =
      [.write out stripped,
        .report ("✂️  Strip → " ++ out ++ " (" ++ toString bytes.length ++ " → "
          ++ toString stripped.length ++ " octets)")] := by
  simp [inspect, hdecode, summary, listing, json, verify, strip, hencode, time]

namespace Session

variable {s : Session} {name out : String} {bytes : Bytes} {script : Script}

/-- A run that strips a file that decodes writes the dump of the stripped script. -/
theorem run_strip (hname : NoOption name) (hout : PlainName out)
    (hread : s.folder.read name = .ok bytes)
    (hdecode : Script.decode .builtin bytes = .ok script) (hwritable : s.folder.Writable out) :
    ∃ after, s.run [name, "--strip", "--out", out] = (0, after) ∧
      s.folder.write out script.stripDebug.written = .ok after.folder := by
  obtain ⟨folder, hwrite⟩ := hwritable script.stripDebug.written
  have hencode := Script.encode_of_decode (Script.decode_stripDebug hdecode)
  rw [run_file (Request.ofArguments_strip hname hout.noOption) rfl hname.ne_standardInput hread,
    inspect_strip hdecode hencode, outcome_write hout.noSlash hwrite, outcome_report, outcome_nil]
  exact ⟨_, rfl, hwrite⟩

/-- A run that verifies a file with the dump of the script in it succeeds, and leaves the
folder as it is. -/
theorem run_verify (hname : NoOption name) (hread : s.folder.read name = .ok script.written)
    (hdecode : Script.decode .builtin script.written = .ok script) :
    ∃ after, s.run [name, "--verify"] = (0, after) ∧ after.folder = s.folder := by
  have hencode := Script.encode_of_decode hdecode
  rw [run_file (Request.ofArguments_verify hname) rfl hname.ne_standardInput hread,
    inspect_verify hdecode hencode, if_pos rfl, outcome_report, outcome_nil]
  exact ⟨_, rfl, rfl⟩

/-! ## The law -/

/-- Stripping a file that decodes writes a dump of the stripped script. This dump
verifies, and stripping it once more writes the same bytes. -/
theorem strip_output_is_fixed {file out again : String} (hfile : NoOption file)
    (hout : PlainName out) (hagain : PlainName again) (hread : s.folder.read file = .ok bytes)
    (hdecode : Script.decode .builtin bytes = .ok script) (hwritable : s.folder.Writable out)
    (hwritable' : s.folder.Writable again) :
    ∃ (stripped : Bytes) (s₁ s₂ s₃ : Session),
      s.run [file, "--strip", "--out", out] = (0, s₁) ∧
      s₁.folder.read out = .ok stripped ∧
      Script.decode .builtin stripped = .ok script.stripDebug ∧
      s₁.run [out, "--verify"] = (0, s₂) ∧
      s₂.run [out, "--strip", "--out", again] = (0, s₃) ∧
      s₃.folder.read again = .ok stripped := by
  have hback := Script.decode_stripDebug hdecode
  obtain ⟨s₁, hrun₁, hwrite₁⟩ := run_strip hfile hout hread hdecode hwritable
  have hread₁ := Folder.read_of_write hwrite₁
  obtain ⟨s₂, hrun₂, hfolder₂⟩ := run_verify hout.noOption hread₁ hback
  have hread₂ : s₂.folder.read out = .ok script.stripDebug.written := hfolder₂ ▸ hread₁
  have hwritable₂ : s₂.folder.Writable again := hfolder₂ ▸ hwritable'.of_write hwrite₁
  obtain ⟨s₃, hrun₃, hwrite₃⟩ := run_strip hout.noOption hagain hread₂ hback hwritable₂
  rw [Script.written_stripDebug_of_stripped script.hasDebug_stripDebug] at hwrite₃
  exact ⟨_, s₁, s₂, s₃, hrun₁, hread₁, hback, hrun₂, hrun₃, Folder.read_of_write hwrite₃⟩

/-- A folder with a dump of two functions, one of which has a name and a line. -/
def namedSession : Session where
  folder := .ofFiles [("a", Script.namedDump)]

theorem namedDump_is_stripped_and_verified : ∃ (stripped : Bytes) (s₁ s₂ s₃ : Session),
    namedSession.run ["a", "--strip", "--out", "b"] = (0, s₁) ∧
      Script.decode .builtin stripped = .ok Script.namedScript.linkParents.stripDebug ∧
      s₁.run ["b", "--verify"] = (0, s₂) ∧
      s₂.run ["b", "--strip", "--out", "c"] = (0, s₃) ∧ s₃.folder.read "c" = .ok stripped := by
  have hread : namedSession.folder.read "a" = .ok Script.namedDump := by decide +kernel
  have hdecode : Script.decode .builtin Script.namedDump = .ok Script.namedScript.linkParents := by
    decide +kernel
  have hb : namedSession.folder.Writable "b" := fun bytes => ⟨_, rfl⟩
  have hc : namedSession.folder.Writable "c" := fun bytes => ⟨_, rfl⟩
  obtain ⟨stripped, s₁, s₂, s₃, hrun₁, -, hback, hrun₂, hrun₃, hread₃⟩ :=
    strip_output_is_fixed (by decide) ⟨by decide, by decide⟩ ⟨by decide, by decide⟩ hread hdecode
      hb hc
  exact ⟨stripped, s₁, s₂, s₃, hrun₁, hback, hrun₂, hrun₃, hread₃⟩

end Session

end CommandLine

end BytecodeDump
