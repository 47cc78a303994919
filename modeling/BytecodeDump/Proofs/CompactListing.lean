-- The compact listing taken apart again. It has one line for each instruction of the tree, in
-- the order of a walk, and the start of a line tells which instruction that is: nothing that is
-- shown of an instruction can end the line, or look like the start of another one.
import BytecodeDump.Opcode.InstructionSet
import BytecodeDump.Proofs.OneLine
import BytecodeDump.Proofs.Totals

namespace BytecodeDump

namespace Text

/-! ## Numbers with zeros before them -/

theorem index4_injective : Function.Injective index4 := by
  -- zeros before a number do not change what its digits spell
  have hvalue : ∀ n, Nat.ofDigitChars 10 (index4 n).toList 0 = n := by
    intro n
    rw [index4, padLeft, String.toList_append, String.toList_ofList, Nat.ofDigitChars_append,
      Nat.ofDigitChars_replicate_zero, Nat.mul_zero, Nat.toString_eq_ofList_toDigits,
      String.toList_ofList, Nat.ofDigitChars_ten_toDigits]
  intro m n h
  rw [← hvalue m, h, hvalue]

end Text

namespace Path

/-- In the text of a path stand digits, points and the letters of one word. -/
theorem lacks_text {c : Char} (hdigit : c.isDigit = false) (hword : c ∉ ".main".toList)
    (p : Path) : Text.Lacks c p.text := by
  rw [Text.Lacks, toList_text]
  intro hc
  rcases mem_intercalate hc with hc | ⟨word, hmem, hc⟩
  · exact hword (List.mem_append_left "main".toList hc)
  · rcases List.mem_cons.1 hmem with rfl | hmem
    · exact hword (List.mem_append_right ['.'] hc)
    · obtain ⟨index, -, rfl⟩ := List.mem_map.1 hmem
      exact Json.Value.ne_of_isDigit (Json.Parser.isDigit_toDigits index c hc) hdigit rfl

end Path

namespace Listing

open Text

/-! ## Places -/

/-- The instructions of a script, in the order of a walk and then of the code. Each is known by
the path of its prototype and its number there. -/
def places (s : Script) : List (Path × Nat) :=
  s.walk.flatMap fun (path, p) => (List.range p.body.code.length).map (path, ·)

/-- What the line of an instruction begins with. -/
def label (place : Path × Nat) : String := place.1.text ++ ":" ++ index4 place.2 ++ ": "

/-- How the instruction at a place is shown, with what it loads. -/
def stepAt (table : OpcodeTable) (s : Script) (place : Path × Nat) : String :=
  ((s.prototype? place.1).bind fun p => (p.body.code[place.2]?).map (showStep table p)).getD ""

/-- The line of an instruction. -/
def lineAt (table : OpcodeTable) (s : Script) (place : Path × Nat) : String :=
  label place ++ stepAt table s place

variable {table : OpcodeTable} {s : Script} {place other : Path × Nat}

/-- There are as many places as instructions in the tree. -/
theorem length_places (s : Script) : (places s).length = s.root.sum (·.code.length) := by
  rw [places, List.length_flatMap, ← Prototype.sum_walk _ s.root .root]
  simp only [List.length_map, List.length_range]
  rfl

theorem exists_of_mem_places (h : place ∈ places s) :
    ∃ p i, s.prototype? place.1 = some p ∧ p.body.code[place.2]? = some i := by
  obtain ⟨⟨path, p⟩, hp, hmem⟩ := List.mem_flatMap.1 h
  obtain ⟨pc, hpc, rfl⟩ := List.mem_map.1 hmem
  exact ⟨p, _, Script.mem_walk_iff.1 hp, List.getElem?_eq_getElem (List.mem_range.1 hpc)⟩

theorem stepAt_eq {p : Prototype} {i : Instruction} (hp : s.prototype? place.1 = some p)
    (hi : p.body.code[place.2]? = some i) : stepAt table s place = showStep table p i := by
  rw [stepAt, hp, Option.bind_some, hi]
  rfl

/-- The lines of one prototype are those of its places. -/
theorem compactLines_eq {path : Path} {p : Prototype} (h : s.prototype? path = some p) :
    compactLines table path p =
      ((List.range p.body.code.length).map (path, ·)).map (lineAt table s) := by
  -- line by line: the walk has found `p` at its path, so the place number `pc` is in its code
  refine List.ext_getElem (by simp [compactLines]) fun pc hpc _ => ?_
  have hcode : pc < p.body.code.length := by simpa [compactLines] using hpc
  simp [compactLines, lineAt, stepAt, label, h, hcode]

/-- The compact listing has a line for each place. -/
theorem toList_compact (table : OpcodeTable) (s : Script) :
    (compact table s).toList =
      ((places s).map fun place => (lineAt table s place).toList).flatMap (· ++ ['\n']) := by
  have hlines : (s.walk.flatMap fun (path, p) => compactLines table path p) =
      (places s).map (lineAt table s) := by
    rw [places, List.map_flatMap]
    exact List.flatMap_congr fun x hx => compactLines_eq (Script.mem_walk_iff.1 hx)
  rw [compact, hlines, String.toList_join, List.flatMap_map, List.flatMap_map, List.flatMap_map]
  simp

/-! ## Labels -/

theorem split_label (place : Path × Nat) (rest : List Char) :
    split ':' ((label place).toList ++ rest) =
      place.1.text.toList :: (index4 place.2).toList :: split ':' (' ' :: rest) := by
  have hpath : ':' ∉ place.1.text.toList := Path.lacks_text (by decide) (by decide) place.1
  have hindex : ':' ∉ (index4 place.2).toList := lacks_index4 (by decide) place.2
  have hparts : (label place).toList ++ rest =
      place.1.text.toList ++ ':' :: ((index4 place.2).toList ++ ':' :: ' ' :: rest) := by
    simp [label]
  rw [hparts, split_append hpath, split_append hindex]

/-- A line begins with one label only. -/
theorem label_prefix_iff {rest : List Char} :
    (label other).toList <+: (label place).toList ++ rest ↔ other = place := by
  constructor
  · -- neither part of a label has a colon in it, so the colons tell where the parts end
    rintro ⟨after, h⟩
    have hparts := congrArg (split ':') h
    rw [split_label, split_label, List.cons.injEq, List.cons.injEq] at hparts
    obtain ⟨hpath, hindex, -⟩ := hparts
    exact Prod.ext (Path.text_injective (String.toList_inj.1 hpath))
      (index4_injective (String.toList_inj.1 hindex))
  · rintro rfl
    exact List.prefix_append _ _

/-- No instruction comes twice. -/
theorem nodup_places (s : Script) : (places s).Nodup := by
  refine List.nodup_flatMap.2 ⟨?_, ?_⟩
  · rintro ⟨path, p⟩ -
    exact List.nodup_range.map (Prod.mk_right_injective path)
  · refine (Prototype.pairwise_walk s.root .root).imp ?_
    rintro ⟨path, p⟩ ⟨path', p'⟩ hearlier place hplace hplace'
    obtain ⟨pc, -, rfl⟩ := List.mem_map.1 hplace
    obtain ⟨pc', -, heq⟩ := List.mem_map.1 hplace'
    cases heq
    rw [Prototype.Earlier, Path.compare_self] at hearlier
    cases hearlier

/-! ## Lines -/

/-- No newline stands in the line of a place. -/
theorem lacks_lineAt (h : PlainNames table) (s : Script) (place : Path × Nat) :
    Lacks '\n' (lineAt table s place) := by
  have hlabel : Lacks '\n' (label place) := by
    simp only [label, lacks_append]
    exact ⟨⟨⟨Path.lacks_text (by decide) (by decide) place.1, by decide⟩,
      lacks_index4 (by decide) place.2⟩, by decide⟩
  refine lacks_append.2 ⟨hlabel, ?_⟩
  unfold stepAt
  cases hstep : (s.prototype? place.1).bind fun p =>
      (p.body.code[place.2]?).map (showStep table p) with
  | none => exact List.not_mem_nil
  | some step =>
    obtain ⟨p, -, hp⟩ := Option.bind_eq_some_iff.1 hstep
    obtain ⟨i, -, rfl⟩ := Option.map_eq_some_iff.1 hp
    exact lacks_showStep h p i

/-- The lines of the listing. The listing ends with the last of them. -/
theorem split_compact (h : PlainNames table) (s : Script) :
    split '\n' (compact table s).toList =
      ((places s).map fun place => (lineAt table s place).toList) ++ [[]] := by
  rw [toList_compact]
  exact split_ended (List.forall_mem_map.2 fun place _ => lacks_lineAt h s place)

theorem getElem?_lines (h : PlainNames table) {k : Nat} (hk : (places s)[k]? = some place) :
    (split '\n' (compact table s).toList)[k]? = some (lineAt table s place).toList := by
  have hlt := (List.getElem?_eq_some_iff.1 hk).1
  rw [split_compact h, List.getElem?_append_left (by simpa using hlt), List.getElem?_map, hk]
  rfl

/-- What a line begins with tells the number of the line. -/
theorem place_of_label (h : PlainNames table) {k : Nat} {line : List Char}
    (hline : (split '\n' (compact table s).toList)[k]? = some line)
    (hlabel : (label place).toList <+: line) : (places s)[k]? = some place := by
  rw [split_compact h, List.getElem?_append] at hline
  split at hline
  · rw [List.getElem?_map] at hline
    obtain ⟨own, hown, rfl⟩ := Option.map_eq_some_iff.1 hline
    rw [lineAt, String.toList_append, label_prefix_iff] at hlabel
    rwa [hlabel]
  · -- nothing stands behind the last line, not even a label
    obtain rfl := List.mem_singleton.1 (List.mem_of_getElem? hline)
    have hnil := List.prefix_nil.1 hlabel
    simp [label] at hnil

/-! ## The law -/

/-- The compact listing has one line for each instruction of the tree, and each line ends with
a newline, whatever the strings hold. The line number `k` begins with the path and the number
of the place number `k`, and then shows the instruction that stands there. No two lines begin
with the same path and number. -/
theorem instructions_have_one_line_each (h : PlainNames table) (s : Script) :
    (compact table s).toList.count '\n' = s.root.sum (·.code.length) ∧
    (s.root.sum (·.code.length) ≠ 0 → (compact table s).toList.getLast? = some '\n') ∧
    (places s).length = s.root.sum (·.code.length) ∧
    (∀ (k : Nat) (place : Path × Nat), (places s)[k]? = some place →
      ∃ p i, s.prototype? place.1 = some p ∧ p.body.code[place.2]? = some i ∧
        (split '\n' (compact table s).toList)[k]? =
          some ((label place).toList ++ (showStep table p i).toList)) ∧
    ∀ (j k : Nat) (line line' : List Char) (place : Path × Nat),
      (split '\n' (compact table s).toList)[j]? = some line →
      (split '\n' (compact table s).toList)[k]? = some line' →
      (label place).toList <+: line → (label place).toList <+: line' → j = k := by
  refine ⟨?_, ?_, length_places s, ?_, ?_⟩
  · rw [toList_compact, count_ended, List.length_map, length_places]
    exact List.forall_mem_map.2 fun place _ => lacks_lineAt h s place
  · intro hsome
    rw [toList_compact]
    refine getLast?_ended fun hnil => hsome ?_
    rw [← length_places, List.map_eq_nil_iff.1 hnil, List.length_nil]
  · intro k place hk
    obtain ⟨p, i, hp, hi⟩ := exists_of_mem_places (List.mem_of_getElem? hk)
    refine ⟨p, i, hp, hi, ?_⟩
    rw [getElem?_lines h hk, lineAt, String.toList_append, stepAt_eq hp hi]
  · intro j k line line' place hj hk hlabel hlabel'
    have hplace := place_of_label h hj hlabel
    have hplace' := place_of_label h hk hlabel'
    obtain ⟨hlt, -⟩ := List.getElem?_eq_some_iff.1 hplace
    exact (List.getElem?_inj hlt (nodup_places s)).1 (hplace.trans hplace'.symm)

/-- No opcode of version 2 has a name with a newline in it. -/
theorem plainNames_builtin : PlainNames .builtin := by
  intro opcode name h
  obtain ⟨entry, hentry, rfl⟩ := Option.map_eq_some_iff.1 h
  have hall : ∀ e ∈ Opcode.entries, Lacks '\n' e.mnemonic := by decide +kernel
  exact hall entry (List.mem_of_getElem? hentry)

/-- A function that loads a string that goes on like a line, a table with a newline in it and a
child that is missing, and the function in it, with an opcode that has no name. -/
def forgingScript : Script where
  root := .node
    { code := [⟨39, .ad, 0, 0, 0, 0⟩, ⟨53, .ad, 1, 0, 0, 1⟩, ⟨39, .ad, 2, 0, 0, 2⟩]
      constants := [.string "a\nmain:0001: ".toUTF8.toList,
        .table ⟨[], [(.string [0x0A], .int32 7)]⟩, .child 7] }
    none [.node { code := [⟨200, .ad, 3, 0, 0, 4⟩] } none []]

theorem forgingScript_has_four_lines : PlainNames .builtin ∧
    compact .builtin forgingScript =
      "main:0000: KSTR    A=0 D=0 ;; \"a\\nmain:0001: \"\n"
        ++ "main:0001: TDUP    A=1 D=1 ;; \x7b[\"\\n\"]=7\x7d\n"
        ++ "main:0002: KSTR    A=2 D=2 ;; <function #7 missing>\n"
        ++ "main.0:0000: OP_C8   A=3 D=4\n" ∧
    (compact .builtin forgingScript).toList.count '\n' = 4 ∧
    ∃ p i, forgingScript.prototype? (Path.root.child 0) = some p ∧ p.body.code[0]? = some i ∧
      (split '\n' (compact .builtin forgingScript).toList)[3]? =
        some ((label (Path.root.child 0, 0)).toList ++ (showStep .builtin p i).toList) := by
  obtain ⟨hcount, -, -, hlines, -⟩ :=
    instructions_have_one_line_each plainNames_builtin forgingScript
  exact ⟨plainNames_builtin, by decide +kernel, hcount, hlines 3 (Path.root.child 0, 0) rfl⟩

end Listing

end BytecodeDump
