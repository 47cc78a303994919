-- The laws of the stack on which records become trees: what a list of bodies makes of
-- a stack, when it finds too few prototypes on it, and that it puts the prototypes
-- together in just the order in which their records stand.
import BytecodeDump.Proofs.Pending
import BytecodeDump.Proofs.Tree

namespace BytecodeDump

namespace Prototype

/-! ## The stack, body by body -/

/-- The stack with one more prototype, if it has a child for each child constant. -/
def push (stack : List Prototype) (b : Body) : Option (List Prototype) :=
  if b.childIndices.length ≤ stack.length then some (finish stack b) else none

/-- What a list of bodies makes of the stack. -/
def build (stack : List Prototype) (bodies : List Body) : Option (List Prototype) :=
  bodies.foldlM push stack

/-- How many prototypes the bodies leave for others to take: each makes one, and takes
one for each of its child constants. -/
def unclaimed (bodies : List Body) : Int :=
  (bodies.map fun b => 1 - (b.childIndices.length : Int)).sum

theorem build_cons (stack : List Prototype) (b : Body) (bs : List Body) :
    build stack (b :: bs) = (push stack b).bind fun stack => build stack bs :=
  List.foldlM_cons

/-- The first body finds its children, and the others go on with what it leaves. -/
theorem build_cons_eq_some {stack out : List Prototype} {b : Body} {bs : List Body} :
    build stack (b :: bs) = some out ↔
      b.childIndices.length ≤ stack.length ∧ build (finish stack b) bs = some out := by
  rw [build_cons, push]
  by_cases henough : b.childIndices.length ≤ stack.length
  · simp [henough]
  · simp [henough]

theorem build_append (stack : List Prototype) (as bs : List Body) :
    build stack (as ++ bs) = (build stack as).bind fun stack => build stack bs :=
  List.foldlM_append

theorem length_finish {stack : List Prototype} {b : Body}
    (h : b.childIndices.length ≤ stack.length) :
    ((finish stack b).length : Int) = stack.length + (1 - (b.childIndices.length : Int)) := by
  unfold finish
  simp only [List.length_cons, List.length_drop]
  omega

theorem unclaimed_cons (b : Body) (bs : List Body) :
    unclaimed (b :: bs) = (1 - (b.childIndices.length : Int)) + unclaimed bs := by
  simp [unclaimed]

theorem length_of_build {stack out : List Prototype} {bodies : List Body}
    (h : build stack bodies = some out) : (out.length : Int) = stack.length + unclaimed bodies := by
  induction bodies generalizing stack with
  | nil =>
    cases h
    simp [unclaimed]
  | cons b bs ih =>
    obtain ⟨henough, h⟩ := build_cons_eq_some.1 h
    have hrest := ih h
    rw [hrest, length_finish henough, unclaimed_cons]
    omega

/-- The stack runs out just where a body has more child constants than there are
unclaimed prototypes before it. -/
theorem build_eq_none {stack : List Prototype} {bodies : List Body} :
    build stack bodies = none ↔ ∃ (i : Nat) (h : i < bodies.length),
      stack.length + unclaimed (bodies.take i) < bodies[i].childIndices.length := by
  induction bodies generalizing stack with
  | nil => simp [build]
  | cons b bs ih =>
    rw [build_cons, push]
    by_cases henough : b.childIndices.length ≤ stack.length
    · rw [if_pos henough, Option.bind_some, ih]
      have hlength := length_finish henough
      refine ⟨?_, ?_⟩
      · rintro ⟨i, hi, hlack⟩
        refine ⟨i + 1, by simpa using hi, ?_⟩
        rw [List.take_succ_cons, unclaimed_cons, List.getElem_cons_succ]
        omega
      · rintro ⟨i, hi, hlack⟩
        cases i with
        | zero =>
          simp only [List.take_zero, List.getElem_cons_zero] at hlack
          simp [unclaimed] at hlack
          omega
        | succ i =>
          rw [List.take_succ_cons, unclaimed_cons, List.getElem_cons_succ] at hlack
          exact ⟨i, by simpa using hi, by omega⟩
    · rw [if_neg henough, Option.bind_none]
      simp only [true_iff]
      refine ⟨0, Nat.succ_pos _, ?_⟩
      simp only [List.take_zero, List.getElem_cons_zero]
      simp [unclaimed]
      omega

/-! ## What reading makes of a tree -/

mutual

/-- What reading makes of a tree: of each body what reading makes of it, and the
children from the one that is named last to the one that is named first. -/
def readBack (layout : Layout) : Prototype → Prototype
  | node b _ children =>
    node (b.readBack layout) none (select (readBackList layout children) b.childIndices).reverse

/-- What reading makes of each child. -/
def readBackList (layout : Layout) : List Prototype → List Prototype
  | [] => []
  | p :: ps => readBack layout p :: readBackList layout ps

end

theorem readBackList_eq_map (layout : Layout) (ps : List Prototype) :
    readBackList layout ps = ps.map (readBack layout) := by
  induction ps with
  | nil => rfl
  | cons p ps ih => rw [readBackList, ih, List.map_cons]

theorem readBack_node (layout : Layout) (b : Body) (parent : Option Path)
    (children : List Prototype) :
    (node b parent children).readBack layout = node (b.readBack layout) none
      ((select children b.childIndices).map (readBack layout)).reverse := by
  rw [readBack, readBackList_eq_map, select_map]

/-- The bodies of the tree in the order of the records, as they are read. -/
def bodiesBack (layout : Layout) (p : Prototype) : List Body :=
  p.postOrder.map fun q => q.body.readBack layout

theorem bodiesBack_node (layout : Layout) (b : Body) (parent : Option Path)
    (children : List Prototype) :
    (node b parent children).bodiesBack layout =
      (select children b.childIndices).flatMap (bodiesBack layout) ++ [b.readBack layout] := by
  unfold bodiesBack
  rw [postOrder_node, List.map_append, List.map_flatMap]
  rfl

theorem build_flatMap {layout : Layout} {ps : List Prototype}
    (h : ∀ p ∈ ps, ∀ stack, build stack (p.bodiesBack layout) = some (p.readBack layout :: stack))
    (stack : List Prototype) :
    build stack (ps.flatMap (bodiesBack layout)) =
      some ((ps.map (readBack layout)).reverse ++ stack) := by
  induction ps generalizing stack with
  | nil => rfl
  | cons p ps ih =>
    rw [List.flatMap_cons, build_append, h p List.mem_cons_self, Option.bind_some,
      ih fun q hq => h q (List.mem_cons_of_mem p hq)]
    simp

theorem length_select {α : Type} {children : List α} {indices : List Nat}
    (h : indices.Perm (List.range children.length)) :
    (select children indices).length = indices.length := by
  rw [(select_perm h).length_eq, h.length_eq, List.length_range]

end Prototype

namespace Constant

theorem childCount_countDown (ks : List Constant) : childCount (countDown ks) = childCount ks := by
  induction ks with
  | nil => rfl
  | cons k ks ih =>
    rw [countDown, childCount_cons, childCount_cons, length_childIndex_withIndex, ih]

end Constant

namespace Prototype

/-- The bodies of a tree leave the tree on the stack, and nothing else. -/
theorem build_bodiesBack {layout : Layout} {p : Prototype} (h : p.Complete)
    (stack : List Prototype) :
    build stack (p.bodiesBack layout) = some (p.readBack layout :: stack) := by
  induction h generalizing stack with
  | node b parent children named below ih =>
    have hcount : (b.readBack layout).childIndices.length = b.childIndices.length :=
      Constant.childCount_countDown b.constants
    have hchildren : build stack ((select children b.childIndices).flatMap (bodiesBack layout)) =
        some (((select children b.childIndices).map (readBack layout)).reverse ++ stack) :=
      build_flatMap (fun c hc => ih c (mem_of_mem_select hc)) stack
    have hlength : ((select children b.childIndices).map (readBack layout)).reverse.length =
        b.childIndices.length := by
      rw [List.length_reverse, List.length_map, length_select named]
    rw [readBack_node, bodiesBack_node, build_append, hchildren, Option.bind_some, build_cons]
    generalize ((select children b.childIndices).map (readBack layout)).reverse = below at hlength ⊢
    have henough : (b.readBack layout).childIndices.length ≤ (below ++ stack).length := by
      rw [List.length_append]
      omega
    rw [push, if_pos henough, Option.bind_some, finish, hcount, ← hlength]
    simp only [List.take_left, List.drop_left]
    rfl

/-! ## What is on the stack -/

/-- A body that names its children last to first completes a tree, and puts itself after
the bodies on the stack. -/
theorem finish_sound {stack : List Prototype} {b : Body}
    (hb : b.childIndices = (List.range b.childIndices.length).reverse)
    (henough : b.childIndices.length ≤ stack.length) (hstack : ∀ p ∈ stack, p.Complete) :
    (∀ p ∈ finish stack b, p.Complete) ∧
      (finish stack b).reverse.flatMap (fun p => p.postOrder.map body) =
        stack.reverse.flatMap (fun p => p.postOrder.map body) ++ [b] := by
  have hlength : (stack.take b.childIndices.length).length = b.childIndices.length :=
    List.length_take_of_le henough
  unfold finish
  refine ⟨?_, ?_⟩
  · intro p hp
    rcases List.mem_cons.1 hp with rfl | hp
    · refine .node _ _ _ ?_ fun c hc => hstack c (List.mem_of_mem_take hc)
      rw [hlength]
      conv_lhs => rw [hb]
      exact List.reverse_perm _
    · exact hstack p (List.mem_of_mem_drop hp)
  · have hselect : select (stack.take b.childIndices.length) b.childIndices =
        (stack.take b.childIndices.length).reverse := by
      calc select (stack.take b.childIndices.length) b.childIndices
          = select (stack.take b.childIndices.length)
              (List.range (stack.take b.childIndices.length).length).reverse := by
            rw [hlength, ← hb]
        _ = (stack.take b.childIndices.length).reverse := by rw [select_reverse, select_range]
    rw [List.reverse_cons, List.flatMap_append, List.flatMap_singleton, bodies_node, select_map,
      hselect, ← List.flatMap_def, ← List.append_assoc, ← List.flatMap_append,
      ← List.reverse_append, List.take_append_drop]

/-- Bodies that were read, which name their children last to first, stand on the stack
in the order in which they came. -/
theorem build_sound {stack out : List Prototype} {bodies : List Body}
    (hbodies : ∀ b ∈ bodies, b.childIndices = (List.range b.childIndices.length).reverse)
    (hstack : ∀ p ∈ stack, p.Complete) (h : build stack bodies = some out) :
    (∀ p ∈ out, p.Complete) ∧
      out.reverse.flatMap (fun p => p.postOrder.map body) =
        stack.reverse.flatMap (fun p => p.postOrder.map body) ++ bodies := by
  induction bodies generalizing stack with
  | nil =>
    cases h
    exact ⟨hstack, (List.append_nil _).symm⟩
  | cons b bs ih =>
    obtain ⟨henough, h⟩ := build_cons_eq_some.1 h
    obtain ⟨hcomplete, hbefore⟩ := finish_sound (hbodies b List.mem_cons_self) henough hstack
    obtain ⟨hout, hafter⟩ := ih (fun c hc => hbodies c (List.mem_cons_of_mem b hc)) hcomplete h
    refine ⟨hout, ?_⟩
    rw [hafter, hbefore, List.append_assoc]
    rfl

/-! ## Reading records onto the stack -/

section Records

variable {table : OpcodeTable} {layout : Layout} {records : List Bytes} {bodies : List Body}
  {stack : List Prototype} {steps : Nat}

theorem length_le_flatten (hrecords : List.Forall₂ (Body.IsRecord table layout) records bodies) :
    records.length ≤ records.flatten.length := by
  induction hrecords with
  | nil => exact Nat.le_refl 0
  | cons hrecord _ ih =>
    obtain ⟨first, others, rfl, -⟩ := hrecord.lead
    simp only [List.flatten_cons, List.length_append, List.length_cons]
    omega

/-- A record that stands next is looked at, found not to be the end, and read. -/
theorem readAll_record {record : Bytes} {b : Body} (h : Body.IsRecord table layout record b)
    (steps start : Nat) (rest : Bytes) :
    readAll table layout (steps + 1) stack ⟨start, record ++ rest⟩ =
      (Body.readRecord table layout stack.length >>= fun body =>
        readAll table layout steps (finish stack body)) ⟨start, record ++ rest⟩ := by
  obtain ⟨first, others, rfl, hne⟩ := h.lead
  have hpeek : Reader.peek ⟨start, first :: others ++ rest⟩ =
      .ok (first, ⟨start, first :: others ++ rest⟩) := rfl
  rw [readAll, Reader.bind_of_ok hpeek, if_neg hne]

/-- The records and the zero after them are what the stack is made of. -/
theorem reads_readAll {out : List Prototype}
    (hrecords : List.Forall₂ (Body.IsRecord table layout) records bodies)
    (h : build stack bodies = some out) (hsteps : records.length < steps) :
    Reader.Reads (readAll table layout steps stack) (records.flatten ++ [0]) out := by
  induction hrecords generalizing stack steps with
  | nil =>
    cases h
    obtain ⟨steps, rfl⟩ : ∃ k, steps = k + 1 := ⟨steps - 1, by simp at hsteps; omega⟩
    apply Reader.reads_peek
    rw [if_pos rfl]
    exact Reader.reads_bind_nil (Reader.reads_byte 0) (Reader.reads_pure _)
  | @cons record b records bs hrecord _ ih =>
    rw [List.length_cons] at hsteps
    obtain ⟨steps, rfl⟩ : ∃ k, steps = k + 1 := ⟨steps - 1, by omega⟩
    obtain ⟨henough, h⟩ := build_cons_eq_some.1 h
    have hrest := Reader.reads_bind (k := fun body => readAll table layout steps
      (finish stack body)) (hrecord.reads henough) (ih h (by omega))
    intro start rest
    rw [List.flatten_cons, List.append_assoc, List.append_assoc, readAll_record hrecord,
      ← List.append_assoc, ← List.append_assoc, List.append_assoc record]
    exact hrest start rest

/-- Where the stack runs out, reading fails for the want of a prototype. -/
theorem readAll_lacks (hrecords : List.Forall₂ (Body.IsRecord table layout) records bodies)
    (h : build stack bodies = none) (hsteps : records.length ≤ steps) (start : Nat) (rest : Bytes) :
    readAll table layout steps stack ⟨start, records.flatten ++ rest⟩ =
      .error .noPrototypeLeft := by
  induction hrecords generalizing stack steps start with
  | nil => cases h
  | @cons record b records bs hrecord _ ih =>
    rw [List.length_cons] at hsteps
    obtain ⟨steps, rfl⟩ : ∃ k, steps = k + 1 := ⟨steps - 1, by omega⟩
    rw [List.flatten_cons, List.append_assoc, readAll_record hrecord]
    by_cases henough : b.childIndices.length ≤ stack.length
    · rw [build_cons, push, if_pos henough] at h
      rw [Reader.bind_of_ok (hrecord.reads henough start _)]
      exact ih h (by omega) _
    · exact Reader.bind_of_error (hrecord.lacks (Nat.not_le.1 henough) start _)

end Records

end Prototype

end BytecodeDump
