-- The laws of files in a folder: what was written is read, and writing a file does not
-- change where a path leads or whether a file can be written.
import BytecodeDump.CommandLine.Folder
import BytecodeDump.Proofs.Output

namespace BytecodeDump

namespace CommandLine

namespace Folder

open Output

variable {f f' : Folder} {path last : String} {place above next : List String} {bytes : Bytes}

/-! ## One file -/

/-- The folder with these bytes in the file at a place. -/
def put (f : Folder) (place : List String) (bytes : Bytes) : Folder :=
  { f with files := f.files.filter (·.1 ≠ place) ++ [(place, bytes)] }

theorem file?_put (f : Folder) (place : List String) (bytes : Bytes) :
    (f.put place bytes).file? place = some bytes := by
  have hnone : (f.files.filter (·.1 ≠ place)).lookup place = none := by
    rw [List.lookup_eq_none_iff]
    intro x hx
    have hne : x.1 ≠ place := by simpa using (List.mem_filter.1 hx).2
    simp [hne.symm]
  rw [file?, put, List.lookup_append, hnone]
  simp

/-- Files are no directories, so a step that succeeds does not depend on them. -/
theorem step_put_eq_ok {name : String} :
    (f.put place bytes).step above name = .ok next ↔ f.step above name = .ok next := by
  have hdirectory : (f.put place bytes).isDirectory (above ++ [name]) =
      f.isDirectory (above ++ [name]) := rfl
  unfold step
  split
  · rfl
  split
  · rfl
  rw [andThen_eq_ok, andThen_eq_ok, hdirectory]
  split
  · rfl
  · split <;> split <;> simp [throw, throwThe, MonadExceptOf.throw]

theorem walk_put_eq_ok {names : List String} :
    (f.put place bytes).walk above names = .ok next ↔ f.walk above names = .ok next := by
  induction names generalizing above with
  | nil => rfl
  | cons name rest ih =>
    unfold walk at ih ⊢
    simp only [List.foldlM_cons, andThen_eq_ok, step_put_eq_ok, ih]

/-! ## Paths -/

/-- The path leads to a directory and names a file in it, whether there is one or not. -/
structure Leads (f : Folder) (path : String) (above : List String) (last : String) : Prop where
  path_length : checkPath path = .ok ()
  names_last : (names path).getLast? = some last
  walks : f.walk (f.start path) (names path).dropLast = .ok above
  names_file : namesDirectory path = false
  name_length : checkName last = .ok ()
  no_directory : f.isDirectory (above ++ [last]) = false

theorem leads_put : (f.put place bytes).Leads path above last ↔ f.Leads path above last := by
  refine ⟨?_, ?_⟩
  · rintro ⟨hpath, hlast, habove, hfile, hname, hfree⟩
    exact ⟨hpath, hlast, walk_put_eq_ok.1 habove, hfile, hname, hfree⟩
  · rintro ⟨hpath, hlast, habove, hfile, hname, hfree⟩
    exact ⟨hpath, hlast, walk_put_eq_ok.2 habove, hfile, hname, hfree⟩

theorem Leads.write (h : f.Leads path above last) (bytes : Bytes) :
    f.write path bytes = .ok (f.put (above ++ [last]) bytes) := by
  unfold Folder.write
  simp only [h.path_length, h.names_last, h.walks, h.names_file, h.name_length]
  show (if f.isDirectory (above ++ [last]) then _ else _) = _
  rw [if_neg (by simp [h.no_directory])]
  rfl

theorem leads_of_write (h : f.write path bytes = .ok f') :
    ∃ above last, f.Leads path above last := by
  unfold Folder.write at h
  obtain ⟨_, hpath, h⟩ := andThen_eq_ok.1 h
  split at h
  · cases h
  rename_i last hlast
  obtain ⟨above, habove, h⟩ := andThen_eq_ok.1 h
  split at h
  · cases h
  rename_i hfile
  obtain ⟨_, hname, h⟩ := andThen_eq_ok.1 h
  split at h
  · cases h
  rename_i hfree
  exact ⟨above, last, hpath, hlast, habove, by simpa using hfile, hname, by simpa using hfree⟩

theorem Leads.read (h : f.Leads path above last) (hfile : f.file? (above ++ [last]) = some bytes) :
    f.read path = .ok bytes := by
  unfold Folder.read
  simp only [h.path_length, h.names_last, h.walks, h.names_file, h.name_length, bind, Except.bind,
    hfile]
  rfl

/-- What was written to a file is read from it. -/
theorem read_of_write (h : f.write path bytes = .ok f') : f'.read path = .ok bytes := by
  obtain ⟨above, last, hleads⟩ := leads_of_write h
  cases (hleads.write bytes).symm.trans h
  exact (leads_put.2 hleads).read (file?_put f _ bytes)

/-! ## Files that can be written -/

/-- Any bytes can be written to the file. -/
def Writable (f : Folder) (path : String) : Prop := ∀ bytes, ∃ f', f.write path bytes = .ok f'

/-- A file that can be written can be written also after another one was. -/
theorem Writable.of_write {other : String} (h : f.Writable path)
    (hwrite : f.write other bytes = .ok f') : f'.Writable path := by
  obtain ⟨_, hpath⟩ := h bytes
  obtain ⟨above, last, hleads⟩ := leads_of_write hpath
  obtain ⟨_, _, hother⟩ := leads_of_write hwrite
  cases (hother.write bytes).symm.trans hwrite
  exact fun bytes => ⟨_, (leads_put.2 hleads).write bytes⟩

end Folder

end CommandLine

end BytecodeDump
