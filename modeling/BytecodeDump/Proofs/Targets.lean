-- Which files a run changes, and what is in them then. An effect writes at most the file that
-- it names, and the effects of one input write nothing but the listing and, after everything
-- that can fail for another reason, the stripped dump. So a run that had to strip and succeeds
-- leaves the stripped dump, and whatever else it changed holds the listing.
import BytecodeDump.Proofs.Folder
import BytecodeDump.Proofs.StripOutput

namespace BytecodeDump

namespace CommandLine

open Output

/-! ## Places -/

namespace Folder

variable {f f' : Folder} {path last : String} {place above next : List String} {bytes : Bytes}

/-- Where a name leads from a place, whether there is anything or not. -/
def onward (place : List String) (name : String) : List String :=
  if PathText.idle name then place else if name = ".." then place.dropLast else place ++ [name]

/-- The place that a path names, whether there is anything or not. -/
def destination (f : Folder) (path : String) : List String :=
  (names path).foldl onward (f.start path)

theorem destination_congr (h : f'.here = f.here) (path : String) :
    f'.destination path = f.destination path := by
  rw [destination, destination, start, start, h]

theorem onward_of_step {name : String} (h : f.step place name = .ok next) :
    next = onward place name := by
  unfold step at h
  unfold onward
  split at h
  · cases h
    rw [if_pos ‹_›]
  split at h
  · cases h
    rw [if_neg ‹_›, if_pos ‹_›]
  obtain ⟨_, -, h⟩ := andThen_eq_ok.1 h
  rw [if_neg ‹_›, if_neg ‹_›]
  split at h
  · cases h
    rfl
  · split at h <;> cases h

theorem foldl_onward_of_walk {names : List String} (h : f.walk above names = .ok next) :
    next = names.foldl onward above := by
  induction names generalizing above with
  | nil =>
    cases h
    rfl
  | cons name rest ih =>
    unfold walk at ih h
    rw [List.foldlM_cons] at h
    obtain ⟨middle, hstep, hrest⟩ := andThen_eq_ok.1 h
    rw [List.foldl_cons, ← onward_of_step hstep]
    exact ih hrest

theorem ne_empty_of_mem_names {name : String} (h : name ∈ names path) : name ≠ "" := by
  simpa using (List.mem_filter.1 h).2

/-- A path that leads to a file leads to the place that it names. -/
theorem Leads.destination_eq (h : f.Leads path above last) :
    f.destination path = above ++ [last] := by
  have hnames : names path = (names path).dropLast ++ [last] :=
    (List.dropLast_append_getLast? last h.names_last).symm
  have hempty : last ≠ "" := ne_empty_of_mem_names (List.mem_of_getLast? h.names_last)
  have hdots : last ≠ "." ∧ last ≠ ".." := by
    have hfile := h.names_file
    simp only [namesDirectory, h.names_last, Option.any_some, Bool.or_eq_false_iff,
      decide_eq_false_iff_not, List.mem_cons, List.not_mem_nil, or_false, not_or] at hfile
    exact hfile.2
  rw [destination, hnames, List.foldl_append, ← foldl_onward_of_walk h.walks]
  simp [onward, PathText.idle, hempty, hdots.1, hdots.2]

/-! ## Other files -/

/-- There are the same files, and paths start from the same place. -/
structure SameFiles (f f' : Folder) : Prop where
  files : f'.files = f.files
  here : f'.here = f.here

namespace SameFiles

variable {f f' : Folder}

theorem refl (f : Folder) : SameFiles f f := ⟨rfl, rfl⟩

theorem file?_eq (h : SameFiles f f') (place : List String) : f'.file? place = f.file? place := by
  rw [file?, file?, h.files]

theorem destination_eq (h : SameFiles f f') (path : String) :
    f'.destination path = f.destination path :=
  destination_congr h.here path

end SameFiles

/-- Only directories are made. -/
theorem sameFiles_of_makeBelow {names : List String} (h : f.makeBelow place names = .ok f') :
    SameFiles f f' := by
  induction names generalizing f place with
  | nil =>
    cases h
    exact .refl _
  | cons name rest ih =>
    unfold makeBelow at h
    split at h
    · exact ih h
    · split at h
      · obtain ⟨hfiles, hhere⟩ := ih h
        exact ⟨hfiles, hhere⟩
      · cases h

theorem sameFiles_of_makeDirectory (h : f.makeDirectory path = .ok f') : SameFiles f f' := by
  obtain ⟨_, -, h⟩ := andThen_eq_ok.1 h
  exact sameFiles_of_makeBelow h

theorem file?_put_of_ne (f : Folder) (bytes : Bytes) {other : List String} (h : other ≠ place) :
    (f.put place bytes).file? other = f.file? other := by
  have hfilter : ∀ files : List (List String × Bytes),
      (files.filter (·.1 ≠ place)).lookup other = files.lookup other := by
    intro files
    induction files with
    | nil => rfl
    | cons x files ih =>
      by_cases hx : x.1 = place
      · have hne : (other == x.1) = false := by simpa [hx] using h
        rw [List.filter_cons_of_neg (by simpa using hx), ih, List.lookup_cons, hne]
      · rw [List.filter_cons_of_pos (by simpa using hx), List.lookup_cons, List.lookup_cons, ih]
  have hlast : (other == place) = false := by simpa using h
  rw [file?, put, List.lookup_append, hfilter, List.lookup_cons, hlast]
  exact Option.or_none

/-- Writing a file puts the bytes at the place that the path names. -/
theorem put_of_write (h : f.write path bytes = .ok f') : f' = f.put (f.destination path) bytes := by
  obtain ⟨above, last, hleads⟩ := leads_of_write h
  rw [hleads.destination_eq]
  exact (Except.ok.inj ((hleads.write bytes).symm.trans h)).symm

end Folder

/-! ## Effects -/

namespace Session

variable {s after : Session} {o : Options} {name path : String} {bytes : Bytes}
  {place : List String} {effects : List Effect}

theorem outcome_cons (s : Session) (e : Effect) (rest : List Effect) :
    s.outcome (e :: rest) =
      match (perform host e).run s with
      | (.ok (), after) => after.outcome rest
      | (.error reason, after) => (.error reason, after) := by
  rw [outcome, performAll, StateT.run_bind]
  obtain ⟨result, after⟩ := (perform host e).run s
  cases result with
  | ok => rfl
  | error reason => rfl

/-- Some effects after others are done in what those leave, unless one of those fails. -/
theorem outcome_append (s : Session) (before later : List Effect) :
    s.outcome (before ++ later) =
      match s.outcome before with
      | (.ok (), after) => after.outcome later
      | (.error reason, after) => (.error reason, after) := by
  induction before generalizing s with
  | nil => rfl
  | cons e rest ih =>
    rw [List.cons_append, outcome_cons, outcome_cons]
    generalize (perform host e).run s = made
    obtain ⟨result, middle⟩ := made
    cases result with
    | ok => exact ih middle
    | error reason => rfl

/-- Effects that come to their end hold no failure. -/
theorem fail_notMem_of_ok (h : (s.outcome effects).1 = .ok ()) (reason : String) :
    .fail reason ∉ effects := by
  induction effects generalizing s with
  | nil => exact List.not_mem_nil
  | cons e rest ih =>
    rw [outcome_cons] at h
    rintro (_ | ⟨_, hmem⟩)
    · cases h
    · generalize (perform host e).run s = made at h
      obtain ⟨result, middle⟩ := made
      cases result with
      | ok => exact ih h hmem
      | error other => cases h

/-- One step after another, in the state that the first one left. -/
theorem run_andThen {α β : Type} (s : Session) (x : StateM Session α)
    (f : α → StateM Session β) : (x >>= f).run s = (f (x.run s).1).run (x.run s).2 := rfl

theorem run_change (s : Session) (f : Folder → Except SystemError Folder) :
    (change f).run s =
      match f s.folder with
      | .ok folder => (.ok (), { s with folder })
      | .error e => (.error e, s) := by
  simp only [change, StateT.run_bind, StateT.run_get, pure_bind]
  cases f s.folder with
  | ok folder => rfl
  | error e => rfl

/-- A file may get a directory before it is written, and a directory is no file. -/
theorem sameFiles_makeParent (s : Session) (path : String) :
    s.folder.SameFiles ((makeParent host path).run s).2.folder := by
  unfold makeParent
  split
  · exact .refl _
  · rename_i parent _
    rw [run_andThen, host, run_change]
    cases hmake : s.folder.makeDirectory parent with
    | ok folder => exact Folder.sameFiles_of_makeDirectory hmake
    | error e => exact .refl _

/-- Writing a file puts its bytes at its place, or fails and leaves all files as they were. -/
theorem writeOutput_cases (s : Session) (path : String) (bytes : Bytes) :
    ((writeOutput host path bytes).run s).1 ≠ .ok () ∧
        s.folder.SameFiles ((writeOutput host path bytes).run s).2.folder ∨
      ((writeOutput host path bytes).run s).1 = .ok () ∧
        ∃ folder, s.folder.SameFiles folder ∧ ((writeOutput host path bytes).run s).2.folder =
          folder.put (folder.destination path) bytes := by
  have hsame := sameFiles_makeParent s path
  unfold writeOutput
  rw [run_andThen]
  generalize (makeParent host path).run s = made at hsame ⊢
  obtain ⟨result, middle⟩ := made
  cases result with
  | error reason => exact .inl ⟨by simp, hsame⟩
  | ok =>
    dsimp only
    rw [run_andThen, host, run_change]
    cases hwrite : middle.folder.write path bytes with
    | ok folder => exact .inr ⟨rfl, middle.folder, hsame, Folder.put_of_write hwrite⟩
    | error e => exact .inl ⟨by simp, hsame⟩

/-- One effect changes no file but the one that it writes. -/
theorem perform_cases (s : Session) (e : Effect) :
    s.folder.SameFiles ((perform host e).run s).2.folder ∨
      ∃ path bytes folder, e = .write path bytes ∧ s.folder.SameFiles folder ∧
        ((perform host e).run s).2.folder = folder.put (folder.destination path) bytes := by
  cases e with
  | print text => exact .inl (.refl _)
  | report line => exact .inl (.refl _)
  | time => exact .inl (.refl _)
  | fail reason => exact .inl (.refl _)
  | write path bytes =>
    rcases writeOutput_cases s path bytes with ⟨-, hsame⟩ | ⟨-, folder, hsame, hput⟩
    · exact .inl hsame
    · exact .inr ⟨path, bytes, folder, rfl, hsame, hput⟩

theorem here_perform (s : Session) (e : Effect) :
    ((perform host e).run s).2.folder.here = s.folder.here := by
  rcases s.perform_cases e with hsame | ⟨path, bytes, folder, -, hsame, hput⟩
  · exact hsame.here
  · rw [hput]
    exact hsame.here

theorem here_outcome (s : Session) (effects : List Effect) :
    (s.outcome effects).2.folder.here = s.folder.here := by
  induction effects generalizing s with
  | nil => rfl
  | cons e rest ih =>
    have hhere := s.here_perform e
    rw [outcome_cons]
    generalize (perform host e).run s = made at hhere ⊢
    obtain ⟨result, middle⟩ := made
    cases result with
    | ok => exact (ih middle).trans hhere
    | error reason => exact hhere

/-- A file that one effect changed is the one that it wrote. -/
theorem file_of_perform (s : Session) (place : List String) (e : Effect)
    (h : ((perform host e).run s).2.folder.file? place ≠ s.folder.file? place) :
    ∃ path bytes, e = .write path bytes ∧ s.folder.destination path = place ∧
      ((perform host e).run s).2.folder.file? place = some bytes := by
  rcases s.perform_cases e with hsame | ⟨path, bytes, folder, he, hsame, hput⟩
  · exact absurd (hsame.file?_eq place) h
  · rw [hput] at h ⊢
    have hplace : folder.destination path = place := by
      by_contra hne
      exact h ((folder.file?_put_of_ne bytes (Ne.symm hne)).trans (hsame.file?_eq place))
    refine ⟨path, bytes, he, hsame.destination_eq path ▸ hplace, ?_⟩
    rw [hplace]
    exact folder.file?_put place bytes

/-- A file that some effects changed holds what one of them wrote. -/
theorem write_of_changed
    (h : (s.outcome effects).2.folder.file? place ≠ s.folder.file? place) :
    ∃ path bytes, .write path bytes ∈ effects ∧ s.folder.destination path = place ∧
      (s.outcome effects).2.folder.file? place = some bytes := by
  induction effects generalizing s with
  | nil => exact absurd rfl h
  | cons e rest ih =>
    have hhere := s.here_perform e
    have hfile := file_of_perform s place e
    rw [outcome_cons] at h ⊢
    generalize (perform host e).run s = made at h hhere hfile ⊢
    obtain ⟨result, middle⟩ := made
    cases result with
    | error reason =>
      obtain ⟨path, bytes, rfl, hplace, hbytes⟩ := hfile h
      exact ⟨path, bytes, List.mem_cons_self, hplace, hbytes⟩
    | ok =>
      by_cases hrest : (middle.outcome rest).2.folder.file? place = middle.folder.file? place
      · obtain ⟨path, bytes, rfl, hplace, hbytes⟩ := hfile (fun heq => h (hrest.trans heq))
        exact ⟨path, bytes, List.mem_cons_self, hplace, hrest.trans hbytes⟩
      · obtain ⟨path, bytes, hmem, hplace, hbytes⟩ := ih hrest
        rw [Folder.destination_congr hhere] at hplace
        exact ⟨path, bytes, List.mem_cons_of_mem e hmem, hplace, hbytes⟩

end Session

/-! ## The effects of one input -/

namespace Inspection

variable {o : Options} {name path : String} {bytes content : Bytes} {script : Script}

/-- Nothing that is shown is written to a file. -/
theorem write_notMem_shown (o : Options) (name path : String) (bytes content : Bytes)
    (script : Script) : .write path content ∉ summary o name script ∧
    .write path content ∉ json o name script ∧
    .write path content ∉ verify o name bytes script ∧ .write path content ∉ time o := by
  refine ⟨?_, ?_, ?_, ?_⟩
  · simp [summary]
  · simp [json]
  · unfold verify encodeFailure
    split
    · split
      · simp
      · split <;> simp
    · simp
  · simp [time]

theorem write_of_mem_listing (h : .write path content ∈ listing o script) :
    o.emit = some path ∧ content = Utf8.encode (listingText o script) := by
  unfold listing at h
  split at h
  · rename_i target htarget
    simp only [List.mem_cons, Effect.write.injEq, reduceCtorEq, List.not_mem_nil, or_false] at h
    exact ⟨h.1 ▸ htarget, h.2⟩
  · split at h <;> simp at h

theorem write_of_mem_strip (h : .write path content ∈ strip o name bytes script) :
    o.out = some path ∧ o.strip = true ∧
      Script.encode .builtin script.stripDebug = .ok content := by
  unfold strip at h
  split at h
  · rename_i target hstrip htarget
    split at h
    · simp [encodeFailure] at h
    · rename_i stripped hencode
      simp only [List.mem_cons, Effect.write.injEq, reduceCtorEq, List.not_mem_nil, or_false] at h
      exact ⟨h.1 ▸ htarget, hstrip, h.2 ▸ hencode⟩
  · simp at h

/-- Verifying fails unless the input is what is written for its script. -/
theorem encode_of_verify_passes (h : ∀ reason, .fail reason ∉ verify o name bytes script)
    (hverify : o.verify = true) : Script.encode .builtin script = .ok bytes := by
  unfold verify encodeFailure at h
  rw [if_pos hverify] at h
  split at h
  · simp at h
  · rename_i again hencode
    split at h
    · rw [hencode, ‹again = bytes›]
    · simp at h

/-- What is done with an input before a stripped dump is written. -/
def front (o : Options) (name : String) (bytes : Bytes) (script : Script) : List Effect :=
  summary o name script ++ listing o script ++ json o name script ++ verify o name bytes script

theorem inspect_of_decode (h : Script.decode .builtin bytes = .ok script) :
    inspect o name bytes =
      front o name bytes script ++ (strip o name bytes script ++ time o) := by
  rw [inspect, h]
  simp only [front, List.append_assoc]

/-- Only the listing is written before. -/
theorem write_of_mem_front (h : .write path content ∈ front o name bytes script) :
    o.emit = some path ∧ content = Utf8.encode (listingText o script) := by
  obtain ⟨hsummary, hjson, hverify, -⟩ := write_notMem_shown o name path bytes content script
  simp only [front, List.mem_append, hsummary, hjson, hverify, false_or, or_false] at h
  exact write_of_mem_listing h

end Inspection

/-! ## Runs -/

namespace Session

variable {s : Session} {o : Options} {name : String} {place : List String}

/-- The bytes of an input: a dash stands for the standard input. -/
def bytesOf (s : Session) (input : String) : Except SystemError Bytes :=
  if input = standardInput then .ok s.input else s.folder.read input

/-- The listing is asked for at a place. -/
def Lists (s : Session) (o : Options) (place : List String) : Prop :=
  ∃ path, o.emit = some path ∧ s.folder.destination path = place

/-- The stripped dump is asked for at a place. -/
def Strips (s : Session) (o : Options) (place : List String) : Prop :=
  o.strip = true ∧ ∃ path, o.out = some path ∧ s.folder.destination path = place

/-- What stands at a place after a run with this status, for its input: the stripped dump, where
it was asked for and the run succeeded, and else the listing. Where verifying was asked for too,
the run succeeded only if the input is what is written for its script. -/
def Wrote (s : Session) (o : Options) (status : UInt32) (bytes : Bytes) (place : List String)
    (content : Bytes) : Prop :=
  ∃ script, Script.decode .builtin bytes = .ok script ∧
    ((status = 0 ∧ s.Strips o place) ∧
        (o.verify = true → Script.encode .builtin script = .ok bytes) ∧
        Script.encode .builtin script.stripDebug = .ok content ∨
      ¬(status = 0 ∧ s.Strips o place) ∧ s.Lists o place ∧
        content = Utf8.encode (Inspection.listingText o script))

/-- Something was done at a place: the file there has changed, or the stripped dump was asked
for there and nothing failed. -/
def Reached (s : Session) (o : Options) (place : List String)
    (r : Except String Unit × Session) : Prop :=
  r.2.folder.file? place ≠ s.folder.file? place ∨ r.1 = .ok () ∧ s.Strips o place

theorem not_reached_of_error (reason : String) : ¬s.Reached o place (.error reason, s) := by
  rintro (h | ⟨h, -⟩)
  · exact h rfl
  · cases h

theorem status_eq_zero (r : Except String Unit × Session) : (close r).1 = 0 ↔ r.1 = .ok () := by
  obtain ⟨result, after⟩ := r
  cases result with
  | ok => exact ⟨fun _ => rfl, fun _ => rfl⟩
  | error reason => exact ⟨fun h => absurd (show (1 : UInt32) = 0 from h) (by decide), fun h => by cases h⟩

section Effects

variable (s o name) (bytes : Bytes) (script : Script)

/-- A file that changed before a stripped dump is written holds the listing. -/
theorem listed_of_changed (place : List String)
    (h : (s.outcome (Inspection.front o name bytes script)).2.folder.file? place ≠
      s.folder.file? place) :
    s.Lists o place ∧ (s.outcome (Inspection.front o name bytes script)).2.folder.file? place =
      some (Utf8.encode (Inspection.listingText o script)) := by
  obtain ⟨path, content, hmem, hplace, hcontent⟩ := write_of_changed h
  obtain ⟨hemit, rfl⟩ := Inspection.write_of_mem_front hmem
  exact ⟨⟨path, hemit, hplace⟩, hcontent⟩

theorem encode_of_front (h : (s.outcome (Inspection.front o name bytes script)).1 = .ok ()) :
    o.verify = true → Script.encode .builtin script = .ok bytes :=
  Inspection.encode_of_verify_passes fun reason hmem =>
    fail_notMem_of_ok h reason (List.mem_append_right _ hmem)

theorem outcome_time :
    (s.outcome (Inspection.time o)).1 = .ok () ∧
      (s.outcome (Inspection.time o)).2.folder = s.folder := by
  unfold Inspection.time
  split
  · exact ⟨rfl, rfl⟩
  · exact ⟨rfl, rfl⟩

/-- Stripping writes the stripped dump, and then nothing more can fail; or it leaves all files
as they were, since it was not asked for or it failed. -/
theorem outcome_strip_cases {r : Except String Unit × Session}
    (hr : s.outcome (Inspection.strip o name bytes script ++ Inspection.time o) = r) :
    s.folder.SameFiles r.2.folder ∧ (r.1 = .ok () → o.strip = true → o.out = none) ∨
      r.1 = .ok () ∧ o.strip = true ∧
        ∃ path content folder, o.out = some path ∧
          Script.encode .builtin script.stripDebug = .ok content ∧ s.folder.SameFiles folder ∧
          r.2.folder = folder.put (folder.destination path) content := by
  subst hr
  unfold Inspection.strip
  split
  · rename_i path hstrip hout
    cases hencode : Script.encode .builtin script.stripDebug with
    | error fault => exact .inl ⟨.refl _, fun h => by cases h⟩
    | ok content =>
      have hwrite := s.writeOutput_cases path content
      rw [List.cons_append, outcome_cons]
      simp only [perform]
      generalize (writeOutput host path content).run s = made at hwrite ⊢
      obtain ⟨result, middle⟩ := made
      cases result with
      | error reason =>
        obtain ⟨-, hsame⟩ | ⟨hok, -⟩ := hwrite
        · exact .inl ⟨hsame, fun h => by cases h⟩
        · cases hok
      | ok =>
        obtain ⟨hfailed, -⟩ | ⟨-, folder, hsame, hput⟩ := hwrite
        · exact absurd rfl hfailed
        · obtain ⟨hok, hfolder⟩ := outcome_time _ o
          exact .inr ⟨hok, hstrip, path, content, folder, hout, rfl, hsame, hfolder.trans hput⟩
  · rename_i hnone
    obtain ⟨-, hfolder⟩ := outcome_time s o
    refine .inl ⟨?_, ?_⟩
    · rw [List.nil_append, hfolder]
      exact .refl _
    · intro _ hstrip
      cases hout : o.out with
      | none => rfl
      | some path => exact absurd hout (hnone path hstrip)

/-- After stripping, a place holds the stripped dump, if that was to be written there and
nothing failed, and else what it held before. -/
theorem file?_outcome_strip {r : Except String Unit × Session}
    (hr : s.outcome (Inspection.strip o name bytes script ++ Inspection.time o) = r)
    (place : List String) :
    (r.1 = .ok () ∧ s.Strips o place) ∧
        (∃ content, Script.encode .builtin script.stripDebug = .ok content ∧
          r.2.folder.file? place = some content) ∨
      ¬(r.1 = .ok () ∧ s.Strips o place) ∧
        r.2.folder.file? place = s.folder.file? place := by
  obtain ⟨hsame, hnone⟩ | ⟨hok, hstrip, path, content, folder, hout, hcontent, hsame, hput⟩ :=
    outcome_strip_cases s o name bytes script hr
  · refine .inr ⟨?_, hsame.file?_eq place⟩
    rintro ⟨hok, hstrip, path, hout, -⟩
    cases hout.symm.trans (hnone hok hstrip)
  · rw [hsame.destination_eq] at hput
    by_cases hplace : s.folder.destination path = place
    · subst hplace
      refine .inl ⟨⟨hok, hstrip, path, hout, rfl⟩, content, hcontent, ?_⟩
      rw [hput]
      exact folder.file?_put _ content
    · refine .inr ⟨?_, ?_⟩
      · rintro ⟨-, -, other, hother, hat⟩
        cases hout.symm.trans hother
        exact hplace hat
      · rw [hput]
        exact (folder.file?_put_of_ne content (Ne.symm hplace)).trans (hsame.file?_eq place)

end Effects

/-- What stands at a place that the effects of one input reached. -/
theorem wrote_of_outcome {bytes : Bytes} {r : Except String Unit × Session}
    (hr : s.outcome (inspect o name bytes) = r) (h : s.Reached o place r) :
    ∃ content, r.2.folder.file? place = some content ∧
      s.Wrote o (close r).1 bytes place content := by
  cases hdecode : Script.decode .builtin bytes with
  | error fault =>
    rw [inspect, hdecode] at hr
    subst hr
    exact absurd h (not_reached_of_error _)
  | ok script =>
    have hlisted := s.listed_of_changed o name bytes script place
    have hencode := s.encode_of_front o name bytes script
    have hhere := s.here_outcome (Inspection.front o name bytes script)
    rw [Inspection.inspect_of_decode hdecode, outcome_append] at hr
    generalize s.outcome (Inspection.front o name bytes script) = made at hr hlisted hencode hhere
    obtain ⟨result, middle⟩ := made
    have hstrips : middle.Strips o place ↔ s.Strips o place := by
      simp only [Strips, Folder.destination_congr hhere]
    cases result with
    -- What failed before stripping leaves at most the listing.
    | error reason =>
      subst hr
      obtain hchanged | ⟨hok, -⟩ := h
      · obtain ⟨hlists, hcontent⟩ := hlisted hchanged
        refine ⟨_, hcontent, script, hdecode, .inr ⟨?_, hlists, rfl⟩⟩
        rw [status_eq_zero]
        rintro ⟨hok, -⟩
        cases hok
      · cases hok
    | ok =>
      obtain ⟨hasked, content, hcontent, hfile⟩ | ⟨hnot, hkept⟩ :=
        middle.file?_outcome_strip o name bytes script hr place
      · rw [hstrips, ← status_eq_zero] at hasked
        exact ⟨content, hfile, script, hdecode, .inl ⟨hasked, hencode rfl, hcontent⟩⟩
      · rw [hstrips] at hnot
        obtain hchanged | hasked := h
        · obtain ⟨hlists, hcontent⟩ := hlisted (hkept ▸ hchanged)
          rw [← status_eq_zero] at hnot
          exact ⟨_, hkept.trans hcontent, script, hdecode, .inr ⟨hnot, hlists, rfl⟩⟩
        · exact absurd hasked hnot

theorem wrote_of_inspectFile {r : Except String Unit × Session}
    (hr : (inspectFile host o name).run s = r) (h : s.Reached o place r) :
    ∃ bytes content, s.bytesOf name = .ok bytes ∧ r.2.folder.file? place = some content ∧
      s.Wrote o (close r).1 bytes place content := by
  by_cases hname : name = standardInput
  · unfold inspectFile at hr
    rw [if_pos hname] at hr
    subst hr
    exact absurd h (not_reached_of_error _)
  · cases hread : s.folder.read name with
    | ok bytes =>
      rw [inspectFile_of_read hname hread] at hr
      obtain ⟨content, hcontent, hwrote⟩ := wrote_of_outcome hr h
      refine ⟨bytes, content, ?_, hcontent, hwrote⟩
      rw [bytesOf, if_neg hname, hread]
    | error e =>
      have hfile : (host.readFile name).run s = (.error e, s) := congrArg (·, s) hread
      unfold inspectFile at hr
      rw [if_neg hname, run_andThen, hfile] at hr
      subst hr
      exact absurd h (not_reached_of_error _)

/-- Without a target no input changes any file. -/
theorem file?_inspectFiles (hemit : o.emit = none) (hout : o.out = none) (names : List String)
    (s : Session) : ((inspectFiles host o names).run s).2.folder.file? place =
      s.folder.file? place := by
  induction names generalizing s with
  | nil => rfl
  | cons name rest ih =>
    have hone : ((inspectFile host o name).run s).2.folder.file? place =
        s.folder.file? place := by
      by_contra h
      obtain ⟨_, _, -, -, _, -, ⟨⟨-, -, _, htarget, -⟩, -⟩ | ⟨-, ⟨_, htarget, -⟩, -⟩⟩ :=
        wrote_of_inspectFile rfl (.inl h)
      · cases hout.symm.trans htarget
      · cases hemit.symm.trans htarget
    unfold inspectFiles
    rw [run_andThen]
    generalize (inspectFile host o name).run s = made at hone ⊢
    obtain ⟨result, middle⟩ := made
    cases result with
    | error reason => exact hone
    | ok => exact (ih middle).trans hone

theorem inspectFiles_single (s : Session) (o : Options) (name : String) :
    (inspectFiles host o [name]).run s = (inspectFile host o name).run s := by
  unfold inspectFiles
  rw [run_andThen]
  obtain ⟨result, after⟩ := (inspectFile host o name).run s
  cases result with
  | ok => rfl
  | error reason => rfl

/-- A place is reached only for a single input. -/
theorem wrote_of_inspectAll {r : Except String Unit × Session}
    (hr : (inspectAll host o).run s = r) (h : s.Reached o place r) :
    ∃ input bytes content, o.inputs = [input] ∧ s.bytesOf input = .ok bytes ∧
      r.2.folder.file? place = some content ∧ s.Wrote o (close r).1 bytes place content := by
  unfold inspectAll at hr
  split at hr
  · subst hr
    exact absurd h (not_reached_of_error _)
  rename_i hsome
  split at hr
  · subst hr
    exact absurd h (not_reached_of_error _)
  rename_i htargets
  split at hr
  · rename_i hdash
    obtain ⟨content, hcontent, hwrote⟩ := wrote_of_outcome hr h
    refine ⟨standardInput, s.input, content, hdash, ?_, hcontent, hwrote⟩
    rw [bytesOf, if_pos rfl]
  · rcases hinputs : o.inputs with _ | ⟨name, _ | ⟨second, others⟩⟩
    · exact absurd hinputs (by simpa using hsome)
    · rw [hinputs, inspectFiles_single] at hr
      obtain ⟨bytes, content, hbytes, hcontent, hwrote⟩ := wrote_of_inspectFile hr h
      exact ⟨name, bytes, content, rfl, hbytes, hcontent, hwrote⟩
    · obtain ⟨hemit, hout⟩ : o.emit = none ∧ o.out = none := by
        simpa [hinputs] using htargets
      subst hr
      obtain hchanged | ⟨-, -, path, htarget, -⟩ := h
      · exact absurd (file?_inspectFiles hemit hout _ s) hchanged
      · cases hout.symm.trans htarget

/-- A failure is reported, and no file is changed after it. -/
theorem folder_close (r : Except String Unit × Session) : (close r).2.folder = r.2.folder := by
  obtain ⟨result, after⟩ := r
  cases result with
  | ok => rfl
  | error reason => rfl

theorem run_inspect {args : List String} (h : Request.ofArguments args = .ok (.inspect o))
    (s : Session) : s.run args = close ((inspectAll host o).run s) := by
  unfold run CommandLine.run
  rw [h, run_andThen]
  obtain ⟨result, after⟩ := (inspectAll host o).run s
  cases result with
  | ok => rfl
  | error reason => rfl

/-- Help and usage errors change no file. -/
theorem inspects_of_changed {args : List String}
    (h : (s.run args).2.folder.file? place ≠ s.folder.file? place) :
    ∃ o, Request.ofArguments args = .ok (.inspect o) := by
  unfold run CommandLine.run at h
  cases hargs : Request.ofArguments args with
  | error e =>
    rw [hargs] at h
    exact absurd rfl h
  | ok request =>
    rw [hargs] at h
    cases request with
    | help => exact absurd rfl h
    | version => exact absurd rfl h
    | inspect o => exact ⟨o, rfl⟩

theorem wrote_of_run {args : List String} (hargs : Request.ofArguments args = .ok (.inspect o))
    (h : (s.run args).2.folder.file? place ≠ s.folder.file? place ∨
      (s.run args).1 = 0 ∧ s.Strips o place) :
    ∃ input bytes content, o.inputs = [input] ∧ s.bytesOf input = .ok bytes ∧
      (s.run args).2.folder.file? place = some content ∧
      s.Wrote o (s.run args).1 bytes place content := by
  rw [run_inspect hargs, folder_close, status_eq_zero] at h
  rw [run_inspect hargs, folder_close]
  exact wrote_of_inspectAll rfl h

/-! ## The law -/

/-- A file that a run created or changed is one that its arguments name. There is a single
input, it was read and it decodes; and the file holds the stripped dump, if that was asked for
there and the run succeeded, and else the listing that was chosen. Verifying, if that was asked
for too, had found before a stripped dump was written that the input is what is written for its
script. And the stripped dump stands wherever a run that succeeded was to write it, also where
the file did not change. -/
theorem just_the_targets_change {args : List String} {status : UInt32} {after : Session}
    (hrun : s.run args = (status, after)) :
    (∀ place, after.folder.file? place ≠ s.folder.file? place →
      ∃ o input bytes content, Request.ofArguments args = .ok (.inspect o) ∧ o.inputs = [input] ∧
        s.bytesOf input = .ok bytes ∧ after.folder.file? place = some content ∧
        s.Wrote o status bytes place content) ∧
    ∀ o place, Request.ofArguments args = .ok (.inspect o) → status = 0 → s.Strips o place →
      ∃ input bytes content, o.inputs = [input] ∧ s.bytesOf input = .ok bytes ∧
        after.folder.file? place = some content ∧ s.Wrote o status bytes place content := by
  obtain rfl : (s.run args).1 = status := congrArg Prod.fst hrun
  obtain rfl : (s.run args).2 = after := congrArg Prod.snd hrun
  refine ⟨fun place hchanged => ?_, fun o place hargs hzero hstrips => ?_⟩
  · obtain ⟨o, hargs⟩ := inspects_of_changed hchanged
    obtain ⟨input, bytes, content, hwrote⟩ := wrote_of_run hargs (.inl hchanged)
    exact ⟨o, input, bytes, content, hargs, hwrote⟩
  · exact wrote_of_run hargs (.inr ⟨hzero, hstrips⟩)

/-- The arguments of a run that lists, verifies and strips one file. -/
def bothTargets : List String := ["a", "--emit", "l", "--verify", "--strip", "--out", "b"]

/-- The arguments of a run that lists and strips one file, and has one name for what it writes. -/
def oneTarget : List String := ["a", "--emit", "x", "--strip", "--out", "x"]

theorem both_targets_of_namedDump_change :
    (∃ after, namedSession.run bothTargets = (0, after) ∧
      (∃ o bytes content, after.folder.file? ["tmp", "work", "l"] = some content ∧
        namedSession.Wrote o 0 bytes ["tmp", "work", "l"] content) ∧
      ∃ o bytes content, after.folder.file? ["tmp", "work", "b"] = some content ∧
        namedSession.Wrote o 0 bytes ["tmp", "work", "b"] content) ∧
    ∃ after, namedSession.run oneTarget = (0, after) ∧
      after.folder.file? ["tmp", "work", "x"] =
        some Script.namedScript.linkParents.stripDebug.written := by
  refine ⟨?_, ?_⟩
  · have hrun : namedSession.run bothTargets = (0, (namedSession.run bothTargets).2) :=
      Prod.ext (by decide +kernel) rfl
    have hargs : Request.ofArguments bothTargets = .ok (.inspect
        { inputs := ["a"], emit := some "l", verify := true, strip := true, out := some "b" }) := by
      decide +kernel
    obtain ⟨hchanged, hstripped⟩ := just_the_targets_change hrun
    obtain ⟨o, _, bytes, content, -, -, -, hlisting⟩ :=
      hchanged ["tmp", "work", "l"] (by decide +kernel)
    obtain ⟨_, bytes', content', -, -, hdump⟩ :=
      hstripped _ ["tmp", "work", "b"] hargs rfl ⟨rfl, "b", rfl, by decide +kernel⟩
    exact ⟨_, hrun, ⟨o, bytes, content, hlisting⟩, _, bytes', content', hdump⟩
  · have hrun : namedSession.run oneTarget = (0, (namedSession.run oneTarget).2) :=
      Prod.ext (by decide +kernel) rfl
    obtain ⟨o, hargs, hinputs, hasked⟩ : ∃ o : Options,
        Request.ofArguments oneTarget = .ok (.inspect o) ∧ o.inputs = ["a"] ∧
          namedSession.Strips o ["tmp", "work", "x"] :=
      ⟨{ inputs := ["a"], emit := some "x", strip := true, out := some "x" },
        by decide +kernel, rfl, rfl, "x", rfl, by decide +kernel⟩
    have hread : namedSession.bytesOf "a" = .ok Script.namedDump := by decide +kernel
    have hdecode : Script.decode .builtin Script.namedDump =
        .ok Script.namedScript.linkParents := by decide +kernel
    have hwritten : Script.encode .builtin Script.namedScript.linkParents.stripDebug =
        .ok Script.namedScript.linkParents.stripDebug.written := by decide +kernel
    obtain ⟨_, _, content, hinput, hbytes, hcontent, script, hscript,
      ⟨-, -, hencode⟩ | ⟨hnot, -⟩⟩ := (just_the_targets_change hrun).2 _ _ hargs rfl hasked
    · cases hinputs.symm.trans hinput
      cases hread.symm.trans hbytes
      cases hdecode.symm.trans hscript
      cases hwritten.symm.trans hencode
      exact ⟨_, hrun, hcontent⟩
    · exact absurd ⟨rfl, hasked⟩ hnot

/-- A run creates or changes the file at a path. -/
def Changes (s : Session) (args : List String) (path : String) : Prop :=
  (s.run args).2.folder.file? (s.folder.destination path) ≠
    s.folder.file? (s.folder.destination path)

/-- The file for the stripped dump may also be the file for the listing. Then it changes where
nothing is stripped, and where verifying fails; and it is left with the listing where the
stripped dump cannot be written. -/
theorem out_file_may_hold_the_listing :
    (¬∀ (s : Session) (args : List String) (o : Options) (path : String),
      Request.ofArguments args = .ok (.inspect o) → o.out = some path → s.Changes args path →
        o.strip = true) ∧
    (¬∀ (s : Session) (args : List String) (o : Options) (path input : String) (bytes : Bytes)
        (script : Script), Request.ofArguments args = .ok (.inspect o) → o.out = some path →
      s.Changes args path → o.inputs = [input] → s.bytesOf input = .ok bytes →
      Script.decode .builtin bytes = .ok script → o.strip = true → o.verify = true →
        Script.encode .builtin script = .ok bytes) ∧
    ¬∀ (s : Session) (args : List String) (o : Options) (path input : String) (bytes : Bytes)
        (script : Script), Request.ofArguments args = .ok (.inspect o) → o.out = some path →
      s.Changes args path → o.inputs = [input] → s.bytesOf input = .ok bytes →
      Script.decode .builtin bytes = .ok script → o.strip = true → o.verify = false →
        ∃ content, Script.encode .builtin script.stripDebug = .ok content ∧
          (s.run args).2.folder.file? (s.folder.destination path) = some content := by
  refine ⟨fun h => ?_, fun h => ?_, fun h => ?_⟩
  · have hstrip := h namedSession ["a", "--emit", "x", "--out", "x"]
      { inputs := ["a"], emit := some "x", out := some "x" } "x" (by decide +kernel) rfl
      (by unfold Changes; decide +kernel)
    cases hstrip
  · have hsame := h looseSession ["loose", "--emit", "x", "--verify", "--strip", "--out", "x"]
      { inputs := ["loose"], emit := some "x", verify := true, strip := true, out := some "x" }
      "x" "loose" Script.looseDump Script.looseScript (by decide +kernel) rfl
      (by unfold Changes; decide +kernel) rfl (by decide +kernel) (by decide +kernel) rfl rfl
    revert hsame
    decide +kernel
  · -- A path that ends in a slash names no file.
    obtain ⟨content, hencode, hfile⟩ := h namedSession
      ["a", "--emit", "x", "--strip", "--out", "x/"]
      { inputs := ["a"], emit := some "x", strip := true, out := some "x/" }
      "x/" "a" Script.namedDump Script.namedScript.linkParents (by decide +kernel) rfl
      (by unfold Changes; decide +kernel) rfl (by decide +kernel) (by decide +kernel) rfl rfl
    have hother : (Script.encode .builtin Script.namedScript.linkParents.stripDebug).toOption ≠
        (namedSession.run ["a", "--emit", "x", "--strip", "--out", "x/"]).2.folder.file?
          (namedSession.folder.destination "x/") := by decide +kernel
    rw [hencode, hfile] at hother
    exact hother rfl

end Session

end CommandLine

end BytecodeDump
