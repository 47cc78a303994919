-- The verdict of a run that verifies a file: success just if the file holds a dump of some
-- script, and else where the dump that is written for it first differs.
import BytecodeDump.Proofs.ReadBack
import BytecodeDump.Proofs.Run

namespace BytecodeDump

/-! ## Dumps of some script -/

namespace Script

variable {table : OpcodeTable} {s : Script} {bytes : Bytes}

theorem encode_of_decode (h : decode table bytes = .ok s) : encode table s = .ok s.written := by
  obtain ⟨_, -, hsound⟩ := sound_of_decode table h
  exact encode_eq_ok.2 ⟨hsound.fits, rfl⟩

/-- The script that a dump decodes to has this dump just if any script has it. -/
theorem comes_back_iff :
    (∃ s, decode table bytes = .ok s ∧ encode table s = .ok bytes) ↔
      ∃ s : Script, (∀ x ∈ s.walk, ∀ k ∈ x.2.body.constants, k.Keyed) ∧
        encode table s = .ok bytes := by
  refine ⟨?_, ?_⟩
  · rintro ⟨s, hdecode, hencode⟩
    obtain ⟨_, -, hsound⟩ := sound_of_decode table hdecode
    exact ⟨s, fun x hx => ((normal_of_sound hsound).bodies x hx).constants, hencode⟩
  · rintro ⟨s, hconstants, hencode⟩
    obtain ⟨hfits, rfl⟩ := encode_eq_ok.1 hencode
    have hdecode := decode_of_fits hfits (hfits.keyed hconstants)
    have hagain := encode_of_decode hdecode
    rw [written_readBack hfits] at hagain
    exact ⟨_, hdecode, hagain⟩

end Script

namespace CommandLine

namespace Inspection

/-! ## The first difference -/

/-- The bytes stand at the front of both others, and are the most that do. -/
structure LongestCommon (common as bs : Bytes) : Prop where
  left : common <+: as
  right : common <+: bs
  longest : ∀ other, other <+: as → other <+: bs → other.length ≤ common.length

theorem LongestCommon.nil_of_ne {a b : UInt8} (h : a ≠ b) (as bs : Bytes) :
    LongestCommon [] (a :: as) (b :: bs) where
  left := List.nil_prefix
  right := List.nil_prefix
  longest := by
    intro other hleft hright
    cases other with
    | nil => exact Nat.le_refl 0
    | cons c other =>
      rw [List.cons_prefix_cons] at hleft hright
      exact absurd (hleft.1.symm.trans hright.1) h

theorem LongestCommon.cons {common as bs : Bytes} (h : LongestCommon common as bs) (a : UInt8) :
    LongestCommon (a :: common) (a :: as) (a :: bs) where
  left := List.cons_prefix_cons.2 ⟨rfl, h.left⟩
  right := List.cons_prefix_cons.2 ⟨rfl, h.right⟩
  longest := by
    intro other hleft hright
    cases other with
    | nil => exact Nat.zero_le _
    | cons c other =>
      rw [List.cons_prefix_cons] at hleft hright
      exact Nat.succ_le_succ (h.longest other hleft.2 hright.2)

theorem exists_longestCommon (as bs : Bytes) :
    ∃ common, LongestCommon common as bs ∧ common.length = commonLength as bs := by
  induction as generalizing bs with
  | nil => exact ⟨[], ⟨List.nil_prefix, List.nil_prefix, by simp⟩, by simp [commonLength]⟩
  | cons a as ih =>
    cases bs with
    | nil => exact ⟨[], ⟨List.nil_prefix, List.nil_prefix, by simp⟩, by simp [commonLength]⟩
    | cons b bs =>
      by_cases h : a = b
      · subst h
        obtain ⟨common, hcommon, hlength⟩ := ih bs
        exact ⟨a :: common, hcommon.cons a, by simp [commonLength, hlength]⟩
      · exact ⟨[], .nil_of_ne h as bs, by simp [commonLength, h]⟩

/-- The number that is reported is the length of all bytes that are the same. -/
theorem LongestCommon.length_eq {common as bs : Bytes} (h : LongestCommon common as bs) :
    common.length = commonLength as bs := by
  obtain ⟨other, hother, hlength⟩ := exists_longestCommon as bs
  rw [← hlength]
  exact Nat.le_antisymm (hother.longest common h.left h.right)
    (h.longest other hother.left hother.right)

end Inspection

open Inspection

/-! ## The run -/

theorem inspect_of_error (o : Options) (name : String) {bytes : Bytes} {fault : Fault}
    (h : Script.decode .builtin bytes = .error fault) :
    inspect o name bytes = [.fail ("Décodage échoué: " ++ name ++ ": " ++ fault.message)] := by
  unfold inspect
  rw [h]

/-- The words for a file that is not what is written for its script: how many bytes at the
front are the same, and how long what is written and what was read are. -/
def divergence (name : String) (common : Nat) (again bytes : Bytes) : String :=
  "round-trip divergent (" ++ name ++ "): premier écart à l'octet " ++ toString common ++ " ("
    ++ toString again.length ++ " vs " ++ toString bytes.length ++ " octets)"

theorem inspect_verify {name : String} {bytes again : Bytes} {script : Script}
    (hdecode : Script.decode .builtin bytes = .ok script)
    (hencode : Script.encode .builtin script = .ok again) :
    inspect { inputs := [name], verify := true } name bytes =
      if again = bytes then [.report (paint true "32" "✓ verify round-trip OK")]
      else [.fail (divergence name (commonLength again bytes) again bytes)] := by
  unfold divergence
  simp [inspect, hdecode, summary, listing, json, verify, hencode, strip, time, colored]

namespace Session

variable {s : Session} {name : String} {bytes : Bytes}

/-- A run that verifies ends in one of three ways: the file is no dump, or what is written
for its script differs from it, or it is the same. -/
theorem run_verify_cases (hname : NoOption name) (hread : s.folder.read name = .ok bytes) :
    (∃ fault, Script.decode .builtin bytes = .error fault ∧
      s.run [name, "--verify"] =
        close (.error ("Décodage échoué: " ++ name ++ ": " ++ fault.message), s)) ∨
    ∃ script again, Script.decode .builtin bytes = .ok script ∧
      Script.encode .builtin script = .ok again ∧
      ((again = bytes ∧ s.run [name, "--verify"] =
        (0, { s with errors := s.errors ++ (paint true "32" "✓ verify round-trip OK" ++ "\n") })) ∨
      (again ≠ bytes ∧ s.run [name, "--verify"] =
        close (.error (divergence name (commonLength again bytes) again bytes), s))) := by
  rw [run_file (Request.ofArguments_verify hname) rfl hname.ne_standardInput hread]
  cases hdecode : Script.decode .builtin bytes with
  | error fault =>
    rw [inspect_of_error _ name hdecode, outcome_fail]
    exact .inl ⟨fault, rfl, rfl⟩
  | ok script =>
    have hencode := Script.encode_of_decode hdecode
    rw [inspect_verify hdecode hencode]
    refine .inr ⟨script, script.written, rfl, hencode, ?_⟩
    by_cases h : script.written = bytes
    · rw [if_pos h, outcome_report, outcome_nil]
      exact .inl ⟨h, rfl⟩
    · rw [if_neg h, outcome_fail]
      exact .inr ⟨h, rfl⟩

/-! ## The law -/

/-- Verifying a file succeeds just if the file is the dump of any script whose tables list
no key twice, and fails with status 1 if not. It never fails because the script that was
read cannot be written. If the file decodes and is not what is written for its script, then
it says how many bytes at the front of both are the same, and how long both are. -/
theorem verdict_is_exact (hname : NoOption name) (hread : s.folder.read name = .ok bytes) :
    ∃ status after, s.run [name, "--verify"] = (status, after) ∧
      (status = 0 ↔ ∃ script : Script, (∀ x ∈ script.walk, ∀ k ∈ x.2.body.constants, k.Keyed) ∧
        Script.encode .builtin script = .ok bytes) ∧
      (status ≠ 0 → status = 1) ∧
      (∀ reason, after.errors ≠ s.errors ++ ("❌ Ré-encodage échoué: " ++ reason)) ∧
      ∀ script, Script.decode .builtin bytes = .ok script →
        ∃ again, Script.encode .builtin script = .ok again ∧
          (again ≠ bytes → ∃ common, LongestCommon common again bytes ∧ after.errors =
            s.errors ++ ("❌ " ++ divergence name common.length again bytes ++ "\n")) := by
  rw [← Script.comes_back_iff]
  obtain ⟨fault, hdecode, hrun⟩ | ⟨script, again, hdecode, hencode,
    ⟨hsame, hrun⟩ | ⟨hother, hrun⟩⟩ := run_verify_cases hname hread
  · refine ⟨_, _, hrun, ?_, fun _ => rfl, ?_, ?_⟩
    · simp [hdecode]
    · intro reason h
      simpa using congrArg String.toList h
    · simp [hdecode]
  · refine ⟨_, _, hrun, ?_, fun h => absurd rfl h, ?_, ?_⟩
    · simp [hdecode, hencode, hsame]
    · intro reason h
      simpa [paint] using congrArg String.toList h
    · intro script' hdecode'
      cases hdecode.symm.trans hdecode'
      exact ⟨again, hencode, fun hother => absurd hsame hother⟩
  · refine ⟨_, _, hrun, ?_, fun _ => rfl, ?_, ?_⟩
    · simp [hdecode, hencode, hother]
    · intro reason h
      unfold divergence at h
      simpa using congrArg String.toList h
    · intro script' hdecode'
      cases hdecode.symm.trans hdecode'
      obtain ⟨common, hcommon, hlength⟩ := exists_longestCommon again bytes
      rw [← hlength]
      exact ⟨again, hencode, fun _ => ⟨common, hcommon, rfl⟩⟩

/-- A folder with one dump that spells a number in more bytes than it takes, and one that
does not. -/
def looseSession : Session where
  folder := .ofFiles [("loose", Script.looseDump), ("tight", Script.looseScript.written)]

theorem looseDump_is_not_verified :
    (∃ after, looseSession.run ["tight", "--verify"] = (0, after)) ∧
      ∃ status after, looseSession.run ["loose", "--verify"] = (status, after) ∧
        after.errors =
          "❌ round-trip divergent (loose): premier écart à l'octet 5 (14 vs 15 octets)\n" := by
  have htight : looseSession.folder.read "tight" = .ok Script.looseScript.written := by
    decide +kernel
  have hloose : looseSession.folder.read "loose" = .ok Script.looseDump := by decide +kernel
  have hdecode : Script.decode .builtin Script.looseDump = .ok Script.looseScript := by
    decide +kernel
  have hencode : Script.encode .builtin Script.looseScript = .ok Script.looseScript.written := by
    decide +kernel
  refine ⟨?_, ?_⟩
  · obtain ⟨status, after, hrun, hzero, -⟩ := verdict_is_exact (by decide) htight
    have hstatus := hzero.2 ⟨Script.looseScript, by decide +kernel, hencode⟩
    exact ⟨after, hstatus ▸ hrun⟩
  · obtain ⟨status, after, hrun, -, -, -, hdiffers⟩ := verdict_is_exact (by decide) hloose
    obtain ⟨again, hagain, hreport⟩ := hdiffers _ hdecode
    cases hencode.symm.trans hagain
    obtain ⟨common, hcommon, herrors⟩ := hreport (by decide +kernel)
    refine ⟨status, after, hrun, ?_⟩
    rw [herrors, hcommon.length_eq]
    decide +kernel

end Session

end CommandLine

end BytecodeDump
