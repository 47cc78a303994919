-- The laws of texts in parts. What holds no mark is one part, the parts before a mark do not
-- depend on what follows it, and lines that are each ended by a mark are found again.
import BytecodeDump.Text.Split
import Mathlib.Data.List.TakeWhile

namespace BytecodeDump

namespace Text

/-! ## Parts -/

theorem split_of_notMem {mark : Char} {cs : List Char} (h : mark ∉ cs) :
    split mark cs = [cs] := by
  induction cs with
  | nil => rfl
  | cons c cs ih =>
    rw [split, if_neg (List.ne_of_not_mem_cons h).symm, ih (List.not_mem_of_not_mem_cons h)]

theorem split_append {mark : Char} {cs : List Char} (h : mark ∉ cs) (rest : List Char) :
    split mark (cs ++ mark :: rest) = cs :: split mark rest := by
  induction cs with
  | nil => rw [List.nil_append, split, if_pos rfl]
  | cons c cs ih =>
    rw [List.cons_append, split, if_neg (List.ne_of_not_mem_cons h).symm,
      ih (List.not_mem_of_not_mem_cons h)]

/-! ## Ended lines -/

section Ended

variable {mark : Char} {lines : List (List Char)}

/-- Between the marks stand the lines, and nothing stands behind the last mark. -/
theorem split_ended (h : ∀ line ∈ lines, mark ∉ line) :
    split mark (lines.flatMap (· ++ [mark])) = lines ++ [[]] := by
  induction lines with
  | nil => rfl
  | cons line lines ih =>
    rw [List.forall_mem_cons] at h
    rw [List.flatMap_cons, List.append_assoc, List.singleton_append, split_append h.1, ih h.2,
      List.cons_append]

theorem count_ended (h : ∀ line ∈ lines, mark ∉ line) :
    (lines.flatMap (· ++ [mark])).count mark = lines.length := by
  induction lines with
  | nil => rfl
  | cons line lines ih =>
    rw [List.forall_mem_cons] at h
    rw [List.flatMap_cons, List.count_append, List.count_append, List.count_eq_zero.2 h.1,
      List.count_singleton_self, ih h.2, List.length_cons]
    omega

theorem getLast?_ended (h : lines ≠ []) :
    (lines.flatMap (· ++ [mark])).getLast? = some mark := by
  obtain ⟨init, line, rfl⟩ := (List.eq_nil_or_concat lines).resolve_left h
  rw [List.concat_eq_append, List.flatMap_append, List.flatMap_singleton, ← List.append_assoc,
    List.getLast?_concat]

end Ended

/-! ## Blanks at the ends -/

theorem dropWhile_append {white middle : List Char} (rest : List Char)
    (hwhite : ∀ c ∈ white, whiteSpace.has c = true) (hne : middle ≠ [])
    (hfirst : ∀ c ∈ middle.head?, whiteSpace.has c = false) :
    (white ++ (middle ++ rest)).dropWhile whiteSpace.has = middle ++ rest := by
  obtain ⟨c, cs, rfl⟩ := List.exists_cons_of_ne_nil hne
  have hc := hfirst c rfl
  rw [List.dropWhile_append_of_pos hwhite, List.cons_append, List.dropWhile_cons, hc]
  rfl

theorem trim_append {before middle after : List Char}
    (hbefore : ∀ c ∈ before, whiteSpace.has c = true)
    (hafter : ∀ c ∈ after, whiteSpace.has c = true) (hne : middle ≠ [])
    (hfirst : ∀ c ∈ middle.head?, whiteSpace.has c = false)
    (hlast : ∀ c ∈ middle.getLast?, whiteSpace.has c = false) :
    trim (before ++ (middle ++ after)) = middle := by
  have hreverse : (after.reverse ++ (middle.reverse ++ [])).dropWhile whiteSpace.has =
      middle.reverse ++ [] := by
    refine dropWhile_append [] ?_ ?_ ?_
    · intro c hc
      exact hafter c (List.mem_reverse.1 hc)
    · exact fun h => hne (List.reverse_eq_nil_iff.1 h)
    · rw [List.head?_reverse]
      exact hlast
  simp only [List.append_nil] at hreverse
  rw [trim, dropWhile_append after hbefore hne hfirst, List.reverse_append, hreverse,
    List.reverse_reverse]

end Text

end BytecodeDump
