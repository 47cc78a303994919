-- Which record each child constant takes. The records wait on a stack; a child constant takes
-- the one on top, and when its record is done, that record goes on the stack. So each path of
-- the tree leads to a record of the dump, the root to the last one.
import BytecodeDump.Proofs.Parents
import BytecodeDump.Proofs.Sections

namespace BytecodeDump

/-- What stands in the second list has something in its place in the first one. -/
theorem exists_of_forall₂ {α β : Type} {R : α → β → Prop} {as : List α} {bs : List β}
    (h : List.Forall₂ R as bs) {k : Nat} {b : β} (hb : bs[k]? = some b) :
    ∃ a, as[k]? = some a ∧ R a b := by
  induction h generalizing k with
  | nil => simp at hb
  | @cons a b' as bs hab _ ih =>
    cases k with
    | zero =>
      obtain rfl : b' = b := by simpa using hb
      exact ⟨a, rfl, hab⟩
    | succ k => exact ih hb

/-! ## The stack of waiting records -/

/-- Goes through constants in the order in which they stand in a record, with the numbers of the
records that wait: each child constant takes the one on top. What each constant takes, and what
still waits after them. -/
def claim : List Nat → List Constant → List (Option Nat) × List Nat
  | waiting, [] => ([], waiting)
  | waiting, k :: ks =>
    if k.childIndex?.isSome then
      let (taken, left) := claim waiting.tail ks
      (waiting.head? :: taken, left)
    else
      let (taken, left) := claim waiting ks
      (none :: taken, left)

section Claim

variable {k : Constant} {ks : List Constant} {waiting : List Nat}

theorem claim_child (h : k.childIndex?.isSome) :
    claim waiting (k :: ks) =
      (waiting.head? :: (claim waiting.tail ks).1, (claim waiting.tail ks).2) := by
  simp [claim, h]

theorem claim_other (h : k.childIndex? = none) :
    claim waiting (k :: ks) = (none :: (claim waiting ks).1, (claim waiting ks).2) := by
  simp [claim, h]

/-- The constants take as many records off the top as there are child constants. -/
theorem claim_eq (waiting : List Nat) (ks : List Constant) :
    (claim waiting ks).1.reduceOption = waiting.take (Constant.childCount ks) ∧
      (claim waiting ks).2 = waiting.drop (Constant.childCount ks) := by
  induction ks generalizing waiting with
  | nil => simp [claim, Constant.childCount]
  | cons k ks ih =>
    rw [Constant.childCount_cons]
    cases hk : k.childIndex? with
    | none =>
      rw [claim_other hk]
      simpa using ih waiting
    | some index =>
      rw [claim_child (by simp [hk])]
      obtain ⟨htaken, hleft⟩ := ih waiting.tail
      cases waiting with
      | nil =>
        simp only [List.tail_nil, List.take_nil, List.drop_nil] at htaken hleft ⊢
        exact ⟨htaken, hleft⟩
      | cons top rest => simpa [Nat.add_comm 1] using ⟨htaken, hleft⟩

/-- A child constant takes the record that its number counts from the top. -/
theorem getElem?_claim (waiting : List Nat) {first place index : Nat}
    (hindices : ks.filterMap Constant.childIndex? = List.range' first (Constant.childCount ks))
    (hplace : ks[place]? = some (.child index)) :
    first ≤ index ∧ (claim waiting ks).1[place]? = some waiting[index - first]? := by
  induction ks generalizing waiting first place with
  | nil => simp at hplace
  | cons k ks ih =>
    rw [Constant.childCount_cons] at hindices
    cases hk : k.childIndex? with
    | none =>
      rw [List.filterMap_cons_none hk, hk, Option.toList_none, List.length_nil,
        Nat.zero_add] at hindices
      rw [claim_other hk]
      cases place with
      | zero =>
        obtain rfl : k = .child index := by simpa using hplace
        cases hk
      | succ place => exact ih waiting hindices (by simpa using hplace)
    | some number =>
      rw [List.filterMap_cons_some hk, hk, Option.toList_some, List.length_singleton,
        Nat.add_comm 1, List.range'_succ] at hindices
      obtain ⟨rfl, hrest⟩ := List.cons.inj hindices
      rw [claim_child (by simp [hk])]
      cases place with
      | zero =>
        obtain rfl : k = .child index := by simpa using hplace
        obtain rfl : index = number := by simpa [Constant.childIndex?] using hk
        simp [List.head?_eq_getElem?]
      | succ place =>
        obtain ⟨hle, htaken⟩ := ih waiting.tail hrest (by simpa using hplace)
        refine ⟨by omega, ?_⟩
        rw [List.getElem?_cons_succ, htaken, List.getElem?_tail,
          show index - (number + 1) + 1 = index - number by omega]

end Claim

/-! ## The record of a path -/

namespace Record

/-- The numbers of the records that wait before record number `n`, the last one first. -/
def waiting (records : List Record) : Nat → List Nat
  | 0 => []
  | n + 1 => n :: (claim (waiting records n) (records[n]?.elim [] entries)).2

/-- What each constant of record number `n` takes. -/
def claimed (records : List Record) (n : Nat) : List (Option Nat) :=
  (claim (waiting records n) (records[n]?.elim [] entries)).1

/-- The record to which some indices lead from record number `n`: an index leads to the record
that the child constant with this number takes. -/
def below (records : List Record) : Nat → List Nat → Option Nat
  | n, [] => some n
  | n, index :: rest => (claimed records n).reduceOption[index]?.bind (below records · rest)

/-- The number of the record to which a path leads from the last one. -/
def at? (records : List Record) (path : Path) : Option Nat :=
  below records (records.length - 1) path.indices

variable {table : OpcodeTable} {records : List Record}

theorem below_append (n : Nat) (is js : List Nat) :
    below records n (is ++ js) = (below records n is).bind (below records · js) := by
  induction is generalizing n with
  | nil => rfl
  | cons index is ih =>
    rw [List.cons_append, below, below, Option.bind_assoc]
    exact Option.bind_congr fun c _ => ih c

/-- Every prototype of the tree has the body of the record to which its place leads. -/
def Stands (table : OpcodeTable) (records : List Record) (n : Nat) (p : Prototype) : Prop :=
  ∀ indices q, p.at? indices = some q →
    ∃ m r, below records n indices = some m ∧ records[m]? = some r ∧ q.body = r.body table

theorem childCount_entries (r : Record) :
    (r.body table).childIndices.length = Constant.childCount r.entries :=
  Constant.childCount_reverse r.entries

/-- A record that takes its children off the stack stands for the tree that they make. -/
theorem stands_finish {n : Nat} {r : Record} {stack : List Prototype} (hr : records[n]? = some r)
    (hstack : List.Forall₂ (Stands table records) (waiting records n) stack) :
    List.Forall₂ (Stands table records) (waiting records (n + 1))
      (Prototype.finish stack (r.body table)) := by
  obtain ⟨htaken, hleft⟩ := claim_eq (waiting records n) r.entries
  rw [waiting, hr, Option.elim_some, hleft, Prototype.finish, childCount_entries]
  refine .cons ?_ (List.forall₂_drop _ hstack)
  rintro (_ | ⟨index, indices⟩) q hq
  · rw [Prototype.at?_nil] at hq
    cases hq
    exact ⟨n, r, rfl, hr, rfl⟩
  · rw [Prototype.at?_cons] at hq
    obtain ⟨c, hc, hq⟩ := Option.bind_eq_some_iff.1 hq
    have hbelow := List.forall₂_take (Constant.childCount r.entries) hstack
    rw [← htaken] at hbelow
    obtain ⟨k, hk, hstands⟩ := exists_of_forall₂ hbelow hc
    obtain ⟨m, r', hm, hr', hbody⟩ := hstands indices q hq
    refine ⟨m, r', ?_, hr', hbody⟩
    rw [below, claimed, hr, Option.elim_some, hk]
    exact hm

/-- Records that go on the stack one after the other stand for the trees on it. -/
theorem stands_build (before : List Record) {after : List Record} {stack out : List Prototype}
    (hrecords : records = before ++ after)
    (hstack : List.Forall₂ (Stands table records) (waiting records before.length) stack)
    (h : Prototype.build stack (after.map (body table)) = some out) :
    List.Forall₂ (Stands table records) (waiting records records.length) out := by
  induction after generalizing before stack with
  | nil =>
    rw [List.append_nil] at hrecords
    cases h
    rwa [hrecords] at hstack ⊢
  | cons r after ih =>
    obtain ⟨-, h⟩ := Prototype.build_cons_eq_some.1 h
    have hr : records[before.length]? = some r := by simp [hrecords]
    have hnext := stands_finish hr hstack
    have hlength : before.length + 1 = (before ++ [r]).length := by simp
    rw [hlength] at hnext
    exact ih (before ++ [r]) (by simp [hrecords]) hnext h

/-- The last record stands for the tree that all records make. -/
theorem stands_root {root : Prototype}
    (h : Prototype.build [] (records.map (body table)) = some [root]) :
    Stands table records (records.length - 1) root := by
  have hall := stands_build [] (List.nil_append records).symm .nil h
  obtain ⟨n, hn⟩ : ∃ n, records.length = n + 1 := by
    cases records with
    | nil => cases h
    | cons r records => exact ⟨records.length, rfl⟩
  rw [hn, waiting, List.forall₂_cons] at hall
  rw [hn, Nat.add_sub_cancel]
  exact hall.1

/-- The path of a child leads to the record that its constant takes. -/
theorem at?_child {path : Path} {n : Nat} (h : at? records path = some n) (index : Nat) :
    at? records (path.child index) = (claimed records n).reduceOption[index]? := by
  rw [at?] at h ⊢
  rw [Path.child, below_append, h, Option.bind_some, below]
  exact Option.bind_fun_some _

end Record

/-! ## The records of a script -/

/-- The path leads to record number `n`, and the prototype has its body. -/
structure HasRecord (table : OpcodeTable) (records : List Record) (path : Path) (p : Prototype)
    (n : Nat) (r : Record) : Prop where
  leads : Record.at? records path = some n
  record : records[n]? = some r
  body : p.body = r.body table

/-- Where records make a tree, each prototype of the tree has a record. -/
theorem Script.hasRecord_of_build {table : OpcodeTable} {head : Script} {records : List Record}
    {root : Prototype} (h : Prototype.build [] (records.map (Record.body table)) = some [root])
    {path : Path} {p : Prototype}
    (hp : (linkParents { head with root }).prototype? path = some p) :
    ∃ n r, HasRecord table records path p n r := by
  have hshapes := Prototype.map_shape_at?_link root none .root path.indices
  rw [(show (root.link none .root).at? path.indices = some p from hp)] at hshapes
  obtain ⟨q, hq, hshape⟩ := Option.map_eq_some_iff.1 hshapes.symm
  have hbody : q.body = p.body := (Prod.ext_iff.1 hshape).1
  obtain ⟨n, r, hn, hr, hsame⟩ := Record.stands_root h path.indices q hq
  exact ⟨n, r, hn, hr, hbody.symm.trans hsame⟩

end BytecodeDump
