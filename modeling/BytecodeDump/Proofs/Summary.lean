-- The laws of summaries. The totals are sums over the tree and the depth is that of the
-- longest path; a dump changes neither, though it reverses the children of every prototype, nor
-- does stripping. A script that is written has at least as many constants as strings, tables and
-- prototypes below the root.
import BytecodeDump.Proofs.Stripping
import BytecodeDump.Proofs.Totals
import BytecodeDump.Summary

namespace BytecodeDump

/-! ## The kinds of the constants -/

namespace Constant

@[simp] theorem kind_withIndex (k : Constant) (index : Nat) : (k.withIndex index).kind = k.kind := by
  cases k <;> rfl

@[simp] theorem kind_merged (k : Constant) : k.merged.kind = k.kind := by
  cases k <;> rfl

theorem map_kind_countDown (ks : List Constant) : (countDown ks).map kind = ks.map kind := by
  induction ks with
  | nil => rfl
  | cons k ks ih => simp [countDown, ih]

/-- No constant is two of a string, a table and a child constant. -/
theorem kinds_le (ks : List Constant) :
    ks.countP (·.kind = .string) + ks.countP (·.kind = .table) + childCount ks ≤ ks.length := by
  induction ks with
  | nil => exact Nat.le_refl 0
  | cons k ks ih =>
    have hone : (if k.kind = .string then 1 else 0) + (if k.kind = .table then 1 else 0)
        + k.childIndex?.toList.length ≤ 1 := by
      cases k <;> simp [kind, childIndex?]
    simp only [List.countP_cons, childCount_cons, List.length_cons, decide_eq_true_eq]
    omega

end Constant

/-! ## Bodies -/

namespace Body

/-- What a summary looks at in a body. -/
def counts (b : Body) : Nat × Nat × Nat × List ConstantKind :=
  (b.code.length, b.numbers.length, b.upvalues.length, b.constants.map Constant.kind)

theorem counts_readBack (layout : Layout) (b : Body) : (b.readBack layout).counts = b.counts := by
  simp [counts, readBack, Constant.map_kind_countDown]

theorem counts_settled (table : OpcodeTable) (b : Body) : (b.settled table).counts = b.counts := by
  simp [counts, settled]

theorem counts_strip (b : Body) : b.strip.counts = b.counts := rfl

end Body

namespace Summary

/-- The amount depends on nothing else. -/
def Counted (amount : Body → Nat) : Prop :=
  ∀ b b' : Body, b.counts = b'.counts → amount b = amount b'

/-- What is found for a prototype depends on nothing else of its body. -/
def Blind (found : Body → Multiset Nat → Nat) : Prop :=
  ∀ b b' : Body, b.counts = b'.counts → found b = found b'

theorem Counted.blind {amount : Body → Nat} (h : Counted amount) :
    Blind fun b below => amount b + below.sum := by
  intro b b' hsame
  simp only [h b b' hsame]

theorem counted_code : Counted (·.code.length) := fun _ _ h => (Prod.ext_iff.1 h).1

theorem counted_numbers : Counted (·.numbers.length) := by
  intro b b' h
  simp only [Body.counts, Prod.mk.injEq] at h
  exact h.2.1

theorem counted_upvalues : Counted (·.upvalues.length) := by
  intro b b' h
  simp only [Body.counts, Prod.mk.injEq] at h
  exact h.2.2.1

theorem counted_constants : Counted (·.constants.length) := by
  intro b b' h
  simp only [Body.counts, Prod.mk.injEq] at h
  simpa using congrArg List.length h.2.2.2

theorem counted_kind (kind : ConstantKind) : Counted (countKind kind) := by
  intro b b' h
  have hkinds : ∀ b : Body, countKind kind b =
      (b.constants.map Constant.kind).countP (· = kind) := by
    intro b
    rw [countKind, List.countP_map]
    rfl
  simp only [Body.counts, Prod.mk.injEq] at h
  rw [hkinds, hkinds, h.2.2.2]

/-! ## The counts of a tree -/

/-- The counts of a script, as sums over its tree. -/
def ofTree (s : Script) : Summary where
  version := s.version
  flags := s.flags.bits
  chunkName := Utf8.decode s.chunkName
  stripped := !s.hasDebug
  prototypes := s.root.sum fun _ => 1
  maxDepth := s.root.height
  instructions := s.root.sum (·.code.length)
  constants := s.root.sum (·.constants.length)
  numbers := s.root.sum (·.numbers.length)
  upvalues := s.root.sum (·.upvalues.length)
  strings := s.root.sum (countKind .string)
  tables := s.root.sum (countKind .table)

/-- What a walk adds to a summary. -/
theorem foldl_count (xs : List (Path × Prototype)) (m : Summary) :
    xs.foldl (fun s (path, p) => s.count path p.body) m =
      { m with
        prototypes := m.prototypes + (xs.map fun _ => 1).sum
        maxDepth := max m.maxDepth ((xs.map fun x => x.1.depth).foldr max 0)
        instructions := m.instructions + (xs.map fun x => x.2.body.code.length).sum
        constants := m.constants + (xs.map fun x => x.2.body.constants.length).sum
        numbers := m.numbers + (xs.map fun x => x.2.body.numbers.length).sum
        upvalues := m.upvalues + (xs.map fun x => x.2.body.upvalues.length).sum
        strings := m.strings + (xs.map fun x => countKind .string x.2.body).sum
        tables := m.tables + (xs.map fun x => countKind .table x.2.body).sum } := by
  induction xs generalizing m with
  | nil => simp
  | cons x xs ih =>
    rw [List.foldl_cons, ih]
    simp only [count, List.map_cons, List.sum_cons, List.foldr_cons, Nat.add_assoc, max_assoc]

theorem ofScript_eq_ofTree (s : Script) : ofScript s = ofTree s := by
  have hdepths := Prototype.depths_walk s.root .root
  have hroot : Path.root.depth = 0 := rfl
  rw [hroot, Nat.zero_add] at hdepths
  rw [ofScript, foldl_count, ofTree, Script.walk]
  simp only [← Prototype.sum_walk _ s.root .root, hdepths, Nat.zero_add, Nat.zero_max]

/-- A script whose tree comes to the same in every fold that looks at the counts alone has the
same counts. -/
theorem ofScript_congr (s s' : Script) (hversion : s'.version = s.version)
    (hfold : ∀ found, Blind found → s'.root.fold found = s.root.fold found) :
    ofScript s' = { ofScript s with
      flags := s'.flags.bits
      chunkName := Utf8.decode s'.chunkName
      stripped := !s'.hasDebug } := by
  have hheight : s'.root.height = s.root.height := hfold _ fun _ _ _ => rfl
  have hsum : ∀ amount, Counted amount → s'.root.sum amount = s.root.sum amount :=
    fun amount h => hfold _ h.blind
  rw [ofScript_eq_ofTree, ofScript_eq_ofTree, ofTree, ofTree, hversion, hheight,
    hsum _ fun _ _ _ => rfl, hsum _ counted_code, hsum _ counted_constants, hsum _ counted_numbers,
    hsum _ counted_upvalues, hsum _ (counted_kind .string), hsum _ (counted_kind .table)]

theorem fold_dumped (table : OpcodeTable) {found : Body → Multiset Nat → Nat} (hfound : Blind found)
    {p : Prototype} (h : p.Complete) (layout : Layout) (parent : Option Path) (path : Path) :
    (((p.mapBodies (Body.settled table)).readBack layout).link parent path).fold found =
      p.fold found := by
  rw [Prototype.fold_link,
    Prototype.fold_readBack (fun b => hfound _ _ (b.counts_readBack layout))
      (h.mapBodies (Body.childIndices_settled table)),
    Prototype.fold_mapBodies fun b => hfound _ _ (b.counts_settled table)]

theorem fold_strip {found : Body → Multiset Nat → Nat} (hfound : Blind found) (p : Prototype) :
    p.strip.fold found = p.fold found := by
  rw [Prototype.strip_eq_mapBodies, Prototype.fold_mapBodies fun b => hfound _ _ b.counts_strip]

/-! ## The law -/

/-- The counts of the summary are sums over the tree of the script, and its depth is that of the
longest path. -/
structure Counts (m : Summary) (s : Script) : Prop where
  prototypes : m.prototypes = s.root.sum fun _ => 1
  instructions : m.instructions = s.root.sum (·.code.length)
  constants : m.constants = s.root.sum (·.constants.length)
  numbers : m.numbers = s.root.sum (·.numbers.length)
  upvalues : m.upvalues = s.root.sum (·.upvalues.length)
  strings : m.strings = s.root.sum (countKind .string)
  tables : m.tables = s.root.sum (countKind .table)
  deepest : ∃ path, (s.prototype? path).isSome ∧ path.depth = m.maxDepth
  deep : ∀ path, (s.prototype? path).isSome → path.depth ≤ m.maxDepth

theorem counts_ofScript (s : Script) : (ofScript s).Counts s := by
  have hdepth : (ofScript s).maxDepth = (s.walk.map fun x => x.1.depth).foldr max 0 := by
    rw [ofScript, foldl_count, Nat.zero_max]
  have hdeepest : (ofScript s).maxDepth ∈ s.walk.map fun x => x.1.depth := by
    have hne : (s.walk.map fun x => x.1.depth) ≠ [] := by
      rw [Script.walk, Prototype.walk_eq_cons]
      simp
    rw [hdepth]
    exact List.maximum_mem (List.foldr_max_of_ne_nil hne).symm
  have hdeep : ∀ x ∈ s.walk, x.1.depth ≤ (ofScript s).maxDepth := by
    intro x hx
    rw [hdepth]
    exact List.le_max_of_le (List.mem_map_of_mem hx) (Nat.le_refl _)
  rw [ofScript_eq_ofTree] at hdeepest hdeep ⊢
  refine ⟨rfl, rfl, rfl, rfl, rfl, rfl, rfl, ?_, ?_⟩
  · obtain ⟨⟨path, p⟩, hx, hpath⟩ := List.mem_map.1 hdeepest
    exact ⟨path, Option.isSome_of_mem (Script.mem_walk_iff.1 hx), hpath⟩
  · intro path hpath
    obtain ⟨p, hp⟩ := Option.isSome_iff_exists.1 hpath
    exact hdeep (path, p) (Script.mem_walk_iff.2 hp)

/-- A script that is written has a constant for each string, each table and each prototype below
the root. -/
theorem constants_ge {s : Script} (h : s.root.Complete) :
    (ofScript s).strings + (ofScript s).tables + ((ofScript s).prototypes - 1) ≤
      (ofScript s).constants := by
  have hchildren := h.sum_childIndices
  have hkinds : s.total (fun b => countKind .string b + countKind .table b + b.childIndices.length)
      ≤ s.total (·.constants.length) :=
    List.sum_le_sum fun x _ => Constant.kinds_le x.2.body.constants
  rw [Script.total_add, Script.total_add] at hkinds
  simp only [ofScript_eq_ofTree, ofTree, Script.sum_root] at hchildren ⊢
  omega

/-- The counts of a summary are those of the tree, and its depth is that of the longest path.
Stripping changes nothing in it but the flags, the mark that the script is stripped, and the
name. If the script is written, then its dump is decoded, and the summary of what it decodes to
differs from that of the script in nothing but the name, which is gone if the script is stripped.
The child constants of the script and its prototypes below the root go together one to one, and
so there are at least as many constants as strings, tables and prototypes below the root. -/
theorem summaries_survive_dumps (table : OpcodeTable) (s : Script) :
    (ofScript s).Counts s ∧
      ofScript s.stripDebug =
        { ofScript s with
          flags := s.flags.bits ||| ScriptFlags.stripDebug
          stripped := true
          chunkName := "" } ∧
      ∀ bytes, Script.encode table s = .ok bytes →
        (∃ s', Script.decode table bytes = .ok s' ∧
          ofScript s' =
            { ofScript s with chunkName := if s.hasDebug then (ofScript s).chunkName else "" }) ∧
        (∀ x path, s.ChildAt x path → path ≠ .root ∧ (s.prototype? path).isSome) ∧
        (∀ path, path ≠ .root → (s.prototype? path).isSome → ∃! x, s.ChildAt x path) ∧
        (ofScript s).strings + (ofScript s).tables + ((ofScript s).prototypes - 1) ≤
          (ofScript s).constants := by
  refine ⟨counts_ofScript s, ?_, ?_⟩
  · refine (ofScript_congr s s.stripDebug rfl fun found hfound => fold_strip hfound s.root).trans ?_
    rw [Script.hasDebug_stripDebug]
    rfl
  · intro bytes h
    obtain ⟨hfits, rfl⟩ := Script.encode_eq_ok.1 h
    have hcomplete := hfits.root.complete
    obtain ⟨hnamed, hunique⟩ := Script.childAt_bijective hcomplete
    refine ⟨⟨_, Script.decode_dumped hfits, ?_⟩, hnamed, hunique, constants_ge hcomplete⟩
    refine (ofScript_congr s (s.dumped table) rfl fun found hfound =>
      fold_dumped table hfound hcomplete s.layout none .root).trans ?_
    have hname : Utf8.decode (if s.hasDebug then s.chunkName else []) =
        if s.hasDebug then (ofScript s).chunkName else "" := by
      rw [ofScript_eq_ofTree]
      split <;> rfl
    rw [← hname, ofScript_eq_ofTree]
    rfl

/-- A stripped script with a name: a function, the two in it, and one in the second of these. -/
def familyScript : Script where
  chunkName := [0x61]
  root := .node
    { constants := [.child 1, .string [0x78], .child 0] }
    none
    [.node { args := 1, numbers := [.int 7] } none [],
      .node { args := 2, constants := [.table ⟨[.nil], []⟩, .child 0] } none
        [.node { args := 3 } none []]]

/-- The dump of these functions. -/
def familyDump : Bytes :=
  [0x1B, 0x4C, 0x4A, 2, 2, 7, 0, 3, 0, 0, 0, 0, 0, 12, 0, 2, 0, 0, 2, 0, 0, 0, 1, 1, 0, 0, 8, 0, 1,
    0, 0, 0, 1, 0, 14, 11, 0, 0, 0, 0, 3, 0, 0, 0, 6, 0x78, 0, 0]

theorem familyScript_keeps_its_counts :
    Script.encode Script.bareTable familyScript = .ok familyDump ∧
    (ofScript familyScript).maxDepth = 2 ∧
    ∃ s', Script.decode Script.bareTable familyDump = .ok s' ∧
      ofScript s' = { ofScript familyScript with chunkName := "" } := by
  have hencode : Script.encode Script.bareTable familyScript = .ok familyDump := by decide +kernel
  obtain ⟨-, -, hdump⟩ := summaries_survive_dumps Script.bareTable familyScript
  obtain ⟨⟨s', hdecode, hsummary⟩, -⟩ := hdump familyDump hencode
  exact ⟨hencode, by decide, s', hdecode, hsummary⟩

end Summary

end BytecodeDump
