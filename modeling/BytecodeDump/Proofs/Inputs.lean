-- Runs over several inputs. What was shown before a step has no part in it, and a run
-- without a target leaves the folder alone; so each input is inspected as if it were the
-- only one, up to the first that fails.
import BytecodeDump.Proofs.Targets

namespace BytecodeDump

namespace CommandLine

/-! ## Arguments -/

namespace Options

/-- The options with more inputs before the others. -/
def prepend (names : List String) (o : Options) : Options :=
  { o with inputs := names ++ o.inputs }

end Options

/-- The request with more inputs before the others. -/
def Request.prepend (names : List String) : Request → Request
  | .inspect o => .inspect (o.prepend names)
  | request => request

namespace Options

variable {o : Options} {names : List String}

theorem setFlag_prepend (name : String) :
    (o.prepend names).setFlag name = (o.setFlag name).map (prepend names) := by
  unfold setFlag
  split <;> first | rfl | (dsimp only [prepend]; split <;> rfl)

theorem setValue_prepend (name value : String) :
    (o.prepend names).setValue name value = (o.setValue name value).map (prepend names) := by
  unfold setValue
  split
  · dsimp only [prepend]; split <;> rfl
  · dsimp only [prepend]; split <;> rfl
  · dsimp only [prepend]; split <;> rfl
  · split
    · dsimp only [prepend]; split <;> rfl
    · rfl
  · rfl

theorem letters_prepend (cs : List Char) : (o.prepend names).letters cs =
    (o.letters cs).map (Sum.map (prepend names) (Request.prepend names)) := by
  fun_induction letters o cs with
  | case1 o => rfl
  | case2 o rest ih => exact ih
  | case3 o rest => rfl
  | case4 o rest => rfl
  | case5 o c rest hv hh hV =>
    unfold letters
    split
    · cases ‹_ = _›
    · cases ‹_ = _›; exact absurd rfl hv
    · cases ‹_ = _›; exact absurd rfl hh
    · cases ‹_ = _›; exact absurd rfl hV
    · cases ‹_ = _›; rfl

theorem finish_prepend : (o.prepend names).finish = o.finish.map (Request.prepend names) := by
  rw [finish, finish, apply_ite (Except.map (Request.prepend names))]
  rfl

theorem bind_prepend {x : Except UsageError Options} {f g : Options → Except UsageError Request}
    (h : ∀ o, f (o.prepend names) = (g o).map (Request.prepend names)) :
    x.map (prepend names) >>= f = (x >>= g).map (Request.prepend names) := by
  cases x with
  | error e => rfl
  | ok o => exact h o

/-- Inputs before all arguments stand before those that the arguments name. -/
theorem parse_prepend (args : List String) :
    (o.prepend names).parse args = (o.parse args).map (Request.prepend names) := by
  fun_induction parse o args with
  | case1 o => exact finish_prepend
  | case2 o rest =>
    conv => lhs; unfold parse
    rw [← finish_prepend]
    simp only [prepend, List.append_assoc]
  | case3 o arg rest hdash hlong hname =>
    conv => lhs; unfold parse
    simp only [hlong, hname, if_true]
    rfl
  | case4 o arg rest hdash hlong hname =>
    conv => lhs; unfold parse
    simp only [hlong, hname, if_true]
    rfl
  | case5 o arg hdash hlong name value rest hname htakes ih =>
    conv => lhs; unfold parse
    simp only [hname, hlong, htakes, if_true, setValue_prepend]
    exact bind_prepend ih
  | case6 o arg hdash hlong name value rest hname htakes _ hends =>
    conv => lhs; unfold parse
    simp only [hname, hlong, htakes, Bool.false_eq_true, if_true, if_false, hends]
    rfl
  | case7 o arg hdash hlong name value rest hname htakes _ hends =>
    conv => lhs; unfold parse
    simp only [hname, hlong, htakes, Bool.false_eq_true, if_true, if_false, hends, setFlag_prepend]
    exact bind_prepend fun _ => rfl
  | case8 o arg hdash hlong name hhelp hversion hname htakes value rest hlooks =>
    conv => lhs; unfold parse
    simp only [hname, hlong, htakes, if_true, hlooks]
    rfl
  | case9 o arg hdash hlong name hhelp hversion hname htakes value rest hlooks ih =>
    conv => lhs; unfold parse
    simp only [hname, hlong, htakes, Bool.false_eq_true, if_true, if_false, hlooks,
      setValue_prepend]
    exact bind_prepend ih
  | case10 o arg hdash hlong name hhelp hversion hname htakes =>
    conv => lhs; unfold parse
    simp only [hname, hlong, htakes, if_true]
    rfl
  | case11 o arg hdash hlong name rest hhelp hversion hname htakes ih =>
    conv => lhs; unfold parse
    simp only [hname, hlong, htakes, Bool.false_eq_true, if_true, if_false, setFlag_prepend]
    exact bind_prepend ih
  | case12 o arg rest hdash hlong hlooks ih =>
    conv => lhs; unfold parse
    simp only [hlong, hlooks, Bool.false_eq_true, if_true, if_false, letters_prepend]
    cases o.letters (arg.toList.drop 1) with
    | error e => rfl
    | ok found =>
      cases found with
      | inl o => exact ih o
      | inr request => rfl
  | case13 o arg rest hdash hlong hlooks ih =>
    conv => lhs; unfold parse
    simp only [hlong, hlooks, Bool.false_eq_true, if_false]
    rw [← ih]
    simp only [addInput, prepend, List.append_assoc]

end Options

/-- The run only shows what it finds, and shows no time and no log. -/
structure Options.OnlyShows (o : Options) : Prop where
  emit : o.emit = none
  out : o.out = none
  time : o.time = false
  verbose : o.verbose = 0

namespace Request

variable {o : Options} {names flags : List String}

/-- Names before other arguments are inputs. -/
theorem ofArguments_append (hnames : ∀ name ∈ names, NoOption name)
    (hflags : ofArguments flags = .ok (.inspect o)) :
    ofArguments (names ++ flags) = .ok (.inspect (o.prepend names)) := by
  have hparse : ∀ (names : List String) (o : Options), (∀ name ∈ names, NoOption name) →
      o.parse (names ++ flags) = ({ o with inputs := o.inputs ++ names } : Options).parse flags := by
    intro names
    induction names with
    | nil =>
      intro o _
      rw [List.append_nil]
      rfl
    | cons name rest ih =>
      intro o hnames
      obtain ⟨hname, hrest⟩ := List.forall_mem_cons.1 hnames
      rw [List.cons_append, Options.parse_input _ hname, ih _ hrest]
      simp only [Options.addInput, List.append_assoc, List.singleton_append]
  have hempty : ({ inputs := [] ++ names } : Options) = ({} : Options).prepend names := by
    rw [Options.prepend, List.append_nil, List.nil_append]
  rw [ofArguments, hparse names {} hnames, hempty, Options.parse_prepend]
  exact congrArg (Except.map (prepend names)) hflags

end Request

/-! ## What was shown before -/

namespace Session

variable {s t : Session} {o : Options} {name : String} {names : List String}

/-- The state `t` with what `s` showed before what `t` shows. -/
def before (s t : Session) : Session :=
  { t with output := s.output ++ t.output, errors := s.errors ++ t.errors }

/-- What was shown before a step has no part in it. -/
def Appends {α : Type} (x : StateM Session α) : Prop :=
  ∀ s t : Session, x.run (s.before t) = ((x.run t).1, s.before (x.run t).2)

namespace Appends

variable {α β : Type}

theorem pure (a : α) : Appends (pure a) := fun _ _ => rfl

theorem bind {x : StateM Session α} {f : α → StateM Session β} (hx : Appends x)
    (hf : ∀ a, Appends (f a)) : Appends (x >>= f) := by
  intro s t
  rw [run_andThen, run_andThen, hx s t]
  exact hf _ s _

end Appends

theorem appends_print (text : String) : Appends (host.print text) := by
  intro s t
  have houtput : s.output ++ t.output ++ text = s.output ++ (t.output ++ text) :=
    String.append_assoc ..
  exact congrArg (fun output => ((), { s.before t with output })) houtput

theorem appends_report (text : String) : Appends (host.report text) := by
  intro s t
  have herrors : s.errors ++ t.errors ++ text = s.errors ++ (t.errors ++ text) :=
    String.append_assoc ..
  exact congrArg (fun errors => ((), { s.before t with errors })) herrors

theorem appends_change (f : Folder → Except SystemError Folder) : Appends (change f) := by
  intro s t
  have hfolder : (s.before t).folder = t.folder := rfl
  rw [run_change, run_change, hfolder]
  cases f t.folder with
  | ok folder => rfl
  | error e => rfl

theorem appends_makeParent (path : String) : Appends (makeParent host path) := by
  unfold makeParent
  split
  · exact .pure _
  · rename_i parent _
    refine .bind (appends_change (·.makeDirectory parent)) fun made => ?_
    cases made with
    | ok => exact .pure _
    | error e => exact .pure _

theorem appends_writeOutput (path : String) (bytes : Bytes) :
    Appends (writeOutput host path bytes) := by
  refine .bind (appends_makeParent path) fun made => ?_
  cases made with
  | error reason => exact .pure _
  | ok =>
    refine .bind (appends_change (·.write path bytes)) fun written => ?_
    cases written with
    | ok => exact .pure _
    | error e => exact .pure _

theorem appends_perform (e : Effect) : Appends (perform host e) := by
  cases e with
  | print text => exact .bind (appends_print text) fun _ => .pure _
  | report line => exact .bind (appends_report _) fun _ => .pure _
  | write path bytes => exact appends_writeOutput path bytes
  | time => exact .bind (.pure _) fun _ => .bind (appends_report _) fun _ => .pure _
  | fail reason => exact .pure _

theorem appends_performAll (effects : List Effect) : Appends (performAll host effects) := by
  induction effects with
  | nil => exact .pure _
  | cons e rest ih =>
    refine .bind (appends_perform e) fun result => ?_
    cases result with
    | ok => exact ih
    | error reason => exact .pure _

theorem appends_inspectFile (o : Options) (name : String) :
    Appends (inspectFile host o name) := by
  unfold inspectFile
  split
  · exact .pure _
  · refine .bind (fun _ _ => rfl) fun read => ?_
    cases read with
    | ok bytes => exact appends_performAll _
    | error e => exact .pure _

/-! ## Runs that only show -/

/-- Without a target nothing is written. -/
theorem write_notMem_inspect {o : Options} (h : o.OnlyShows) {name path : String}
    {bytes content : Bytes} : .write path content ∉ inspect o name bytes := by
  unfold inspect
  split
  · simp
  · rename_i script _
    obtain ⟨hsummary, hjson, hverify, htime⟩ :=
      Inspection.write_notMem_shown o name path bytes content script
    have hlisting : .write path content ∉ Inspection.listing o script := by
      intro hmem
      cases h.emit.symm.trans (Inspection.write_of_mem_listing hmem).1
    have hstrip : .write path content ∉ Inspection.strip o name bytes script := by
      intro hmem
      cases h.out.symm.trans (Inspection.write_of_mem_strip hmem).1
    simp [hsummary, hlisting, hjson, hverify, hstrip, htime]

/-- The folder and the input are as they were. -/
structure Untouched (s t : Session) : Prop where
  folder : t.folder = s.folder
  input : t.input = s.input

theorem untouched_outcome {effects : List Effect}
    (h : ∀ path content, .write path content ∉ effects) (s : Session) :
    s.Untouched (s.outcome effects).2 := by
  induction effects generalizing s with
  | nil => exact ⟨rfl, rfl⟩
  | cons e rest ih =>
    have hrest : ∀ path content, .write path content ∉ rest :=
      fun path content hmem => h path content (List.mem_cons_of_mem _ hmem)
    rw [outcome_cons]
    cases e with
    | print text =>
      obtain ⟨hfolder, hinput⟩ := ih hrest { s with output := s.output ++ text }
      exact ⟨hfolder, hinput⟩
    | report line =>
      obtain ⟨hfolder, hinput⟩ := ih hrest { s with errors := s.errors ++ (line ++ "\n") }
      exact ⟨hfolder, hinput⟩
    | write path content => exact absurd List.mem_cons_self (h path content)
    | time =>
      obtain ⟨hfolder, hinput⟩ :=
        ih hrest { s with errors := s.errors ++ ("⏱️  " ++ "0 ms" ++ "\n") }
      exact ⟨hfolder, hinput⟩
    | fail reason => exact ⟨rfl, rfl⟩

theorem untouched_inspectFile (h : o.OnlyShows) (s : Session) (name : String) :
    s.Untouched ((inspectFile host o name).run s).2 := by
  unfold inspectFile
  split
  · exact ⟨rfl, rfl⟩
  · rw [run_andThen]
    have hfile : (host.readFile name).run s = (s.folder.read name, s) := rfl
    rw [hfile]
    cases s.folder.read name with
    | ok bytes => exact untouched_outcome (fun _ _ => write_notMem_inspect h) s
    | error e => exact ⟨rfl, rfl⟩

/-- The run at its start: nothing was shown. -/
def start (folder : Folder) (input : Bytes) : Session := { folder, input }

theorem before_start {folder : Folder} {input : Bytes} (h : (start folder input).Untouched s) :
    s.before (start folder input) = s := by
  obtain ⟨hfolder, hinput⟩ := h
  rw [before, ← hfolder, ← hinput]
  simp only [start, String.append_empty]

theorem close_before (s : Session) (r : Except String Unit × Session) :
    close (r.1, s.before r.2) = ((close r).1, s.before (close r).2) := by
  obtain ⟨result, t⟩ := r
  cases result with
  | ok => rfl
  | error reason =>
    have herrors : s.errors ++ t.errors ++ ("❌ " ++ reason ++ "\n") =
        s.errors ++ (t.errors ++ ("❌ " ++ reason ++ "\n")) := String.append_assoc ..
    exact congrArg (fun errors => ((1 : UInt32), { s.before t with errors })) herrors

/-- The inputs up to the first whose run fails, that one included. -/
def inspected (single : String → UInt32 × Session) (names : List String) : List String :=
  names.takeWhile (fun name => (single name).1 = 0) ++
    (names.dropWhile fun name => (single name).1 = 0).take 1

theorem inspected_cons (single : String → UInt32 × Session) (name : String) (rest : List String) :
    inspected single (name :: rest) =
      name :: if (single name).1 = 0 then inspected single rest else [] := by
  by_cases h : (single name).1 = 0 <;> simp [inspected, h]

/-- The state after what some runs showed. -/
def gather (s : Session) (single : String → UInt32 × Session) (names : List String) : Session :=
  { s with
    output := s.output ++ String.join (names.map fun name => (single name).2.output)
    errors := s.errors ++ String.join (names.map fun name => (single name).2.errors) }

theorem gather_cons {folder : Folder} {input : Bytes} {single : String → UInt32 × Session}
    {rest : List String} (hs : (start folder input).Untouched s)
    (h : (start folder input).Untouched (single name).2) :
    s.gather single (name :: rest) = (s.before (single name).2).gather single rest := by
  simp only [gather, before, List.map_cons, String.join_cons, String.append_assoc, hs.folder,
    hs.input, h.folder, h.input]

theorem gather_nil (s : Session) (single : String → UInt32 × Session) : s.gather single [] = s := by
  simp only [gather, List.map_nil, String.join_nil, String.append_empty]

theorem untouched_close {r : Except String Unit × Session} (h : s.Untouched r.2) :
    s.Untouched (close r).2 := by
  obtain ⟨result, t⟩ := r
  obtain ⟨hfolder, hinput⟩ := h
  cases result with
  | ok => exact ⟨hfolder, hinput⟩
  | error reason => exact ⟨hfolder, hinput⟩

section

variable {folder : Folder} {input : Bytes} {single : String → UInt32 × Session}

/-- One input after the other shows what each of them shows alone, up to the first that
fails. -/
theorem close_inspectFiles (h : o.OnlyShows) (hsingle : ∀ name ∈ names,
      single name = close ((inspectFile host o name).run (start folder input)))
    {s : Session} (hs : (start folder input).Untouched s) :
    close ((inspectFiles host o names).run s) =
      (if ∀ name ∈ names, (single name).1 = 0 then 0 else 1,
        s.gather single (inspected single names)) := by
  induction names generalizing s with
  | nil =>
    rw [if_pos (by simp)]
    exact congrArg (Prod.mk 0) (s.gather_nil single).symm
  | cons name rest ih =>
    obtain ⟨hname, hrest⟩ := List.forall_mem_cons.1 hsingle
    have hrun := appends_inspectFile o name s (start folder input)
    rw [before_start hs] at hrun
    have huntouched := untouched_inspectFile h (start folder input) name
    unfold inspectFiles
    rw [run_andThen, hrun, inspected_cons]
    generalize (inspectFile host o name).run (start folder input) = r at hname huntouched ⊢
    rw [gather_cons hs (hname ▸ untouched_close huntouched)]
    simp only [List.forall_mem_cons]
    obtain ⟨result, t⟩ := r
    cases result with
    | ok =>
      replace hname : single name = (0, t) := hname
      simp only [hname, if_true, true_and]
      exact ih hrest ⟨huntouched.folder, huntouched.input⟩
    | error reason =>
      have hne : (single name).1 ≠ 0 := by
        rw [hname]
        exact (by decide : (1 : UInt32) ≠ 0)
      simp only [hne, false_and, if_false]
      rw [gather_nil, hname]
      exact close_before s (.error reason, t)

theorem inspectFiles_prepend (before names : List String) :
    inspectFiles host (o.prepend before) names = inspectFiles host o names := by
  induction names with
  | nil => rfl
  | cons name rest ih =>
    unfold inspectFiles
    rw [ih]
    rfl

/-- A run over inputs that are all names of files takes one after the other. -/
theorem run_names {flags : List String} (hflags : Request.ofArguments flags = .ok (.inspect o))
    (hshows : o.OnlyShows) (hinputs : o.inputs = []) (hsome : names ≠ [])
    (hnames : ∀ name ∈ names, NoOption name) (s : Session) :
    s.run (names ++ flags) = close ((inspectFiles host o names).run s) := by
  have hall : (o.prepend names).inputs = names := by
    rw [Options.prepend, hinputs, List.append_nil]
  have hdash : names ≠ [standardInput] := by
    rintro rfl
    exact (hnames standardInput (List.mem_singleton_self _)).ne_standardInput rfl
  have hemit : (o.prepend names).emit = none := hshows.emit
  have hout : (o.prepend names).out = none := hshows.out
  rw [run_inspect (Request.ofArguments_append hnames hflags)]
  unfold inspectAll
  rw [hall, hemit, hout, if_neg (by simpa using hsome), if_neg (by simp), if_neg hdash,
    inspectFiles_prepend]

end

/-! ## The law -/

/-- A run over several inputs shows what the runs over each of them show, in order, up to
the first that fails; and it succeeds just if all of them do. -/
theorem inputs_are_inspected_in_turn {flags : List String}
    (hflags : Request.ofArguments flags = .ok (.inspect o)) (hinputs : o.inputs = [])
    (hshows : o.OnlyShows) (hsome : names ≠ []) (hnames : ∀ name ∈ names, NoOption name)
    (folder : Folder) (input : Bytes) :
    let single := fun name => (start folder input).run (name :: flags)
    let whole := (start folder input).run (names ++ flags)
    whole.2.output =
        String.join ((inspected single names).map fun name => (single name).2.output) ∧
      whole.2.errors =
        String.join ((inspected single names).map fun name => (single name).2.errors) ∧
      (whole.1 = 0 ↔ ∀ name ∈ names, (single name).1 = 0) ∧ (whole.1 ≠ 0 → whole.1 = 1) := by
  intro single whole
  have hsingle : ∀ name ∈ names,
      single name = close ((inspectFile host o name).run (start folder input)) := by
    intro name hname
    have hone : ∀ n ∈ [name], NoOption n := by simpa using hnames name hname
    have hrun := run_names hflags hshows hinputs (List.cons_ne_nil name []) hone
      (start folder input)
    rw [inspectFiles_single] at hrun
    exact hrun
  have hwhole : whole = (if ∀ name ∈ names, (single name).1 = 0 then 0 else 1,
      (start folder input).gather single (inspected single names)) :=
    (run_names hflags hshows hinputs hsome hnames _).trans
      (close_inspectFiles hshows hsingle ⟨rfl, rfl⟩)
  rw [hwhole]
  refine ⟨String.empty_append, String.empty_append, ?_⟩
  by_cases hall : ∀ name ∈ names, (single name).1 = 0
  · rw [if_pos hall]
    exact ⟨⟨fun _ => hall, fun _ => rfl⟩, fun hne => absurd rfl hne⟩
  · have hne : (1 : UInt32) ≠ 0 := by decide
    rw [if_neg hall]
    exact ⟨⟨fun hzero => absurd hzero hne, fun h => absurd h hall⟩, fun _ => rfl⟩

theorem looseDump_ends_the_run :
    let whole := looseSession.run ["tight", "loose", "tight", "--verify", "--color", "never"]
    whole.1 = 1 ∧ whole.2.errors = "✓ verify round-trip OK\n" ++
      "❌ round-trip divergent (loose): premier écart à l'octet 5 (14 vs 15 octets)\n" := by
  have hflags : Request.ofArguments ["--verify", "--color", "never"] =
      .ok (.inspect { verify := true, color := some .never }) := by decide +kernel
  have hnames : ∀ name ∈ ["tight", "loose", "tight"], NoOption name := by decide
  obtain ⟨-, herrors, hzero, hone⟩ := inputs_are_inspected_in_turn hflags rfl ⟨rfl, rfl, rfl, rfl⟩
    (List.cons_ne_nil _ _) hnames looseSession.folder []
  refine ⟨hone fun h => absurd (hzero.1 h) (by decide +kernel), herrors.trans ?_⟩
  decide +kernel

end Session

end CommandLine

end BytecodeDump
