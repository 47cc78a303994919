-- JSON text read back. A value of numbers and plain strings that is written without blanks
-- is what the parser finds at the front of the text, whatever follows it.
import BytecodeDump.Json.Parser
import BytecodeDump.Json.Printer
import Mathlib

namespace BytecodeDump

/-- What is put together begins with its first part. -/
theorem intercalate_cons {α : Type} (mark part : List α) (parts : List (List α)) :
    ∃ tail, mark.intercalate (part :: parts) = part ++ tail := by
  cases parts with
  | nil => exact ⟨[], by rw [List.intercalate_singleton, List.append_nil]⟩
  | cons second parts => exact ⟨_, by rw [List.intercalate_cons_cons, List.append_assoc]⟩

theorem mem_intercalate {α : Type} {mark : List α} {parts : List (List α)} {a : α}
    (h : a ∈ mark.intercalate parts) : a ∈ mark ∨ ∃ part ∈ parts, a ∈ part := by
  induction parts with
  | nil => cases h
  | cons part parts ih =>
    cases parts with
    | nil =>
      rw [List.intercalate_singleton] at h
      exact .inr ⟨part, List.mem_singleton_self part, h⟩
    | cons second parts =>
      rw [List.intercalate_cons_cons, List.mem_append, List.mem_append] at h
      rcases h with (h | h) | h
      · exact .inr ⟨part, List.mem_cons_self, h⟩
      · exact .inl h
      · rcases ih h with h | ⟨other, hother, h⟩
        · exact .inl h
        · exact .inr ⟨other, List.mem_cons_of_mem part hother, h⟩

namespace Json

/-! ## Digits -/

/-- What may follow a value: nothing, or what ends an item. -/
def Ends (rest : List Char) : Prop := ∀ c ∈ rest.head?, c = ',' ∨ c = ']' ∨ c = '\x7d'

theorem ends_nil : Ends [] := by
  intro c hc
  cases hc

theorem ends_cons {c : Char} (rest : List Char) (h : c = ',' ∨ c = ']' ∨ c = '\x7d') :
    Ends (c :: rest) := by
  intro d hd
  cases hd
  exact h

/-- No digit, point or exponent ends an item. -/
theorem Ends.not_numeral {rest : List Char} (h : Ends rest) :
    ∀ c ∈ rest.head?, c.isDigit = false ∧ c ≠ '.' ∧ c ≠ 'e' ∧ c ≠ 'E' := by
  intro c hc
  rcases h c hc with rfl | rfl | rfl <;> decide

namespace Parser

theorem isDigit_toDigits (n : Nat) : ∀ c ∈ Nat.toDigits 10 n, c.isDigit = true :=
  fun _ hc => Nat.isDigit_of_mem_toDigits (by decide) (by decide) hc

theorem digits_append {cs rest : List Char} (h : ∀ c ∈ cs, c.isDigit = true)
    (hrest : ∀ c ∈ rest.head?, c.isDigit = false) :
    digits (cs ++ rest) = (cs.map fun c => c.toNat - '0'.toNat, rest) := by
  have hnone : rest.takeWhile Char.isDigit = [] ∧ rest.dropWhile Char.isDigit = rest := by
    cases rest with
    | nil => exact ⟨rfl, rfl⟩
    | cons c cs =>
      have hc := hrest c rfl
      simp [hc]
  rw [digits, List.takeWhile_append_of_pos h, List.dropWhile_append_of_pos h, hnone.1, hnone.2,
    List.append_nil]

theorem digits?_append {cs rest : List Char} (hne : cs ≠ []) (h : ∀ c ∈ cs, c.isDigit = true)
    (hrest : ∀ c ∈ rest.head?, c.isDigit = false) :
    digits? (cs ++ rest) = some (cs.map fun c => c.toNat - '0'.toNat, rest) := by
  rw [digits?, digits_append h hrest]
  exact if_neg (by simpa using hne)

theorem value_toDigits (n : Nat) :
    value ((Nat.toDigits 10 n).map fun c => c.toNat - '0'.toNat) = n := by
  rw [value, List.foldl_map]
  exact Nat.ofDigitChars_ten_toDigits

/-- A number that is not zero does not begin with a zero. -/
theorem head_toDigits {n : Nat} (h : 0 < n) :
    ∃ c cs, Nat.toDigits 10 n = c :: cs ∧ c ≠ '0' := by
  induction n using Nat.strong_induction_on with
  | h n ih =>
    rcases Nat.lt_or_ge n 10 with hlt | hge
    · refine ⟨n.digitChar, [], Nat.toDigits_of_lt_base hlt, ?_⟩
      have hall : ∀ d < 10, 0 < d → Nat.digitChar d ≠ '0' := by decide
      exact hall n hlt h
    · obtain ⟨c, cs, hdigits, hc⟩ := ih (n / 10) (by omega) (by omega)
      refine ⟨c, cs ++ [(n % 10).digitChar], ?_, hc⟩
      rw [Nat.toDigits_of_base_le (by decide) hge, hdigits, List.cons_append]

theorem whole_toDigits (n : Nat) {rest : List Char}
    (hrest : ∀ c ∈ rest.head?, c.isDigit = false) :
    whole? (Nat.toDigits 10 n ++ rest) = some (n, rest) := by
  rcases Nat.eq_zero_or_pos n with rfl | hpos
  · have hzero : (rest.head?.all Char.isDigit && !rest.isEmpty) = false := by
      cases rest with
      | nil => rfl
      | cons c cs => simp [hrest c rfl]
    rw [Nat.toDigits_zero, List.singleton_append, whole?, hzero]
    rfl
  · obtain ⟨c, cs, hdigits, hc⟩ := head_toDigits hpos
    have hnot : ∀ others, Nat.toDigits 10 n ++ rest = '0' :: others → False := by
      intro others hothers
      rw [hdigits, List.cons_append, List.cons.injEq] at hothers
      exact hc hothers.1
    rw [whole?, digits?_append Nat.toDigits_ne_nil (isDigit_toDigits n) hrest, Option.map_some]
    · simp only [value_toDigits]
    · exact hnot

/-! ## Numerals -/

/-- The characters of the digits after the point. -/
def fractionChars (ds : List Nat) : List Char :=
  if ds.isEmpty then [] else '.' :: ds.map Numeral.digit

/-- The characters of an exponent. -/
def exponentChars : Option Int → List Char
  | none => []
  | some e => 'e' :: (if e < 0 then '-' else '+') :: Nat.toDigits 10 e.natAbs

theorem fraction_fractionChars {ds : List Nat} (h : ∀ d ∈ ds, d < 10) {rest : List Char}
    (hrest : ∀ c ∈ rest.head?, c.isDigit = false ∧ c ≠ '.') :
    fraction? (fractionChars ds ++ rest) = some (ds, rest) := by
  cases ds with
  | nil =>
    show fraction? rest = _
    rw [fraction?]
    intro others hothers
    exact (hrest '.' (by rw [hothers]; rfl)).2 rfl
  | cons d ds =>
    have hdigit : ∀ d < 10, (Numeral.digit d).isDigit = true ∧
        (Numeral.digit d).toNat - '0'.toNat = d := by decide
    have hall : ∀ c ∈ (d :: ds).map Numeral.digit, c.isDigit = true :=
      List.forall_mem_map.2 fun d hd => (hdigit d (h d hd)).1
    rw [fractionChars, if_neg (by simp), List.cons_append, fraction?,
      digits?_append (by simp) hall fun c hc => (hrest c hc).1, List.map_map]
    congr 2
    exact (List.map_congr_left fun d hd => (hdigit d (h d hd)).2).trans (List.map_id' _)

theorem exponent_exponentChars (e : Option Int) {rest : List Char} (h : Ends rest) :
    exponent? (exponentChars e ++ rest) = some (e, rest) := by
  cases e with
  | none =>
    cases rest with
    | nil => rfl
    | cons c cs =>
      obtain ⟨-, -, he, hE⟩ := h.not_numeral c rfl
      show exponent? (c :: cs) = _
      unfold exponent?
      exact if_neg (by simp [he, hE])
  | some e =>
    have hdigits := digits?_append Nat.toDigits_ne_nil (isDigit_toDigits e.natAbs)
      fun c hc => (h.not_numeral c hc).1
    rcases lt_or_ge e 0 with he | he
    · rw [exponentChars, if_pos he]
      simp only [List.cons_append, exponent?, true_or, if_true, hdigits, Option.map_some,
        value_toDigits]
      rw [Int.natCast_natAbs, abs_of_neg he, neg_neg]
    · rw [exponentChars, if_neg he.not_gt]
      simp only [List.cons_append, exponent?, true_or, if_true, hdigits, Option.map_some,
        value_toDigits, Bool.false_eq_true, if_false]
      rw [Int.natCast_natAbs, abs_of_nonneg he]

theorem number_numeral (negative : Bool) (n : Nat) {ds : List Nat} (h : ∀ d ∈ ds, d < 10)
    (e : Option Int) {rest : List Char} (hrest : Ends rest) :
    number? negative (Nat.toDigits 10 n ++ (fractionChars ds ++ (exponentChars e ++ rest))) =
      some (.number { negative, whole := n, fraction := ds, exponent := e }, rest) := by
  have hexponent : ∀ c ∈ (exponentChars e ++ rest).head?, c.isDigit = false ∧ c ≠ '.' := by
    cases e with
    | none => exact fun c hc => ⟨(hrest.not_numeral c hc).1, (hrest.not_numeral c hc).2.1⟩
    | some e =>
      rintro c ⟨⟩
      decide
  have hfraction : ∀ c ∈ (fractionChars ds ++ (exponentChars e ++ rest)).head?,
      c.isDigit = false := by
    cases ds with
    | nil => exact fun c hc => (hexponent c hc).1
    | cons d ds =>
      rintro c ⟨⟩
      decide
  rw [number?, whole_toDigits n hfraction]
  simp only [Option.bind_eq_bind, Option.bind_some, fraction_fractionChars h hexponent,
    exponent_exponentChars e hrest]
  rfl

end Parser

/-! ## Strings -/

/-- A character that stands for itself in a string. -/
def Plain (c : Char) : Prop := 0x20 ≤ c.toNat ∧ c ≠ '"' ∧ c ≠ '\\'

instance (c : Char) : Decidable (Plain c) := inferInstanceAs (Decidable (_ ∧ _ ∧ _))

/-- A text that stands for itself between quotes. -/
def PlainText (text : String) : Prop := ∀ c ∈ text.toList, Plain c

instance (text : String) : Decidable (PlainText text) :=
  decidable_of_iff (text.toList.all fun c => decide (Plain c)) (by simp [PlainText])

theorem Piece.write_char {c : Char} (h : Plain c) : Piece.write (.char c) = c.toString := by
  obtain ⟨hlow, hquote, hslash⟩ := h
  have hcontrol : ∀ d : Char, d.toNat < 0x20 → c ≠ d := by
    rintro d hd rfl
    omega
  rw [Piece.write, if_neg (Nat.not_lt.2 hlow)]
  · exact hquote
  · exact hslash
  all_goals exact hcontrol _ (by decide)

theorem Piece.toList_quote {text : String} (h : PlainText text) :
    (Piece.quote (Piece.ofText text)).toList = '"' :: (text.toList ++ ['"']) := by
  have hjoin : (String.join ((Piece.ofText text).map Piece.write)).toList = text.toList := by
    rw [String.toList_join, Piece.ofText, List.map_map, List.flatMap_map]
    refine (List.flatMap_congr fun c hc => ?_).trans (List.flatMap_singleton' _)
    rw [Function.comp_apply, Piece.write_char (h c hc), Char.toString_eq_singleton,
      String.toList_singleton]
  rw [Piece.quote, String.toList_append, String.toList_append, hjoin]
  rfl

theorem Parser.string_plain {cs : List Char} (h : ∀ c ∈ cs, Plain c) (rest : List Char) :
    Parser.string? (cs ++ '"' :: rest) = some (cs.map .char, rest) := by
  induction cs with
  | nil => rfl
  | cons c cs ih =>
    obtain ⟨hlow, hquote, hslash⟩ := h c List.mem_cons_self
    rw [List.cons_append, Parser.string?, if_neg (Nat.not_lt.2 hlow),
      ih fun d hd => h d (List.mem_cons_of_mem c hd)]
    · rfl
    · exact hquote
    · exact fun _ _ _ _ _ h => absurd h hslash
    · exact fun _ _ h => absurd h hslash

/-! ## Values -/

namespace Value

/-- The characters of the value without any blank. -/
def chars (v : Value) : List Char := v.compact.toList

/-- The value is found at the front of every text that begins with its characters. -/
structure Readable (v : Value) : Prop where
  starts : ∃ c cs, v.chars = c :: cs ∧ Parser.isBlank c = false ∧ c ≠ ']'
  reads : ∀ steps rest, Ends rest → v.chars.length < steps →
    Parser.value? steps (v.chars ++ rest) = some (v, rest)

/-- A value takes at least one step. -/
theorem readable_of {v : Value}
    (starts : ∃ c cs, v.chars = c :: cs ∧ Parser.isBlank c = false ∧ c ≠ ']')
    (reads : ∀ steps rest, Ends rest → v.chars.length ≤ steps →
      Parser.value? (steps + 1) (v.chars ++ rest) = some (v, rest)) : v.Readable where
  starts := starts
  reads := by
    intro steps rest hrest hsteps
    obtain ⟨steps, rfl⟩ := Nat.exists_eq_succ_of_ne_zero (Nat.ne_zero_of_lt hsteps)
    exact reads steps rest hrest (Nat.lt_succ_iff.1 hsteps)

theorem Readable.length_pos {v : Value} (h : v.Readable) : 0 < v.chars.length := by
  obtain ⟨c, cs, hchars, -⟩ := h.starts
  rw [hchars]
  exact Nat.succ_pos _

theorem skip_cons {c : Char} (h : Parser.isBlank c = false) (cs : List Char) :
    Parser.skip (c :: cs) = c :: cs := by
  rw [Parser.skip, List.dropWhile_cons, h]
  rfl

theorem Readable.skip_append {v : Value} (h : v.Readable) (rest : List Char) :
    Parser.skip (v.chars ++ rest) = v.chars ++ rest := by
  obtain ⟨c, cs, hchars, hblank, -⟩ := h.starts
  rw [hchars, List.cons_append, skip_cons hblank]

/-! ## Values without parts -/

theorem readable_null : Readable .null :=
  readable_of ⟨'n', _, rfl, by decide, by decide⟩ fun _ _ _ _ => rfl

theorem readable_bool (value : Bool) : Readable (.bool value) := by
  cases value with
  | true => exact readable_of ⟨'t', _, rfl, by decide, by decide⟩ fun _ _ _ _ => rfl
  | false => exact readable_of ⟨'f', _, rfl, by decide, by decide⟩ fun _ _ _ _ => rfl

theorem chars_number (n : Numeral) :
    (number n).chars = (if n.negative then ['-'] else []) ++ (Nat.toDigits 10 n.whole ++
      (Parser.fractionChars n.fraction ++ Parser.exponentChars n.exponent)) := by
  have hsign : (if n.negative then "-" else "").toList = if n.negative then ['-'] else [] := by
    cases n.negative <;> rfl
  have hfraction : (if n.fraction.isEmpty then ""
      else "." ++ String.ofList (n.fraction.map Numeral.digit)).toList =
      Parser.fractionChars n.fraction := by
    rw [Parser.fractionChars]
    split
    · rfl
    · exact (String.toList_append ..).trans (congrArg ('.' :: ·) String.toList_ofList)
  have hexponent : (n.exponent.elim "" (Numeral.exponentText true)).toList =
      Parser.exponentChars n.exponent := by
    cases n.exponent with
    | none => rfl
    | some e =>
      rw [Option.elim_some, Numeral.exponentText, Nat.toString_eq_ofList_toDigits,
        Parser.exponentChars]
      split <;> simp
  rw [chars, compact, numberText, Numeral.text, String.toList_append, String.toList_append,
    String.toList_append, hsign, hfraction, hexponent, Nat.toString_eq_ofList_toDigits,
    String.toList_ofList, List.append_assoc, List.append_assoc]

theorem ne_of_isDigit {c d : Char} (hc : c.isDigit = true) (hd : d.isDigit = false) : c ≠ d := by
  rintro rfl
  rw [hc] at hd
  cases hd

/-- What a digit begins is no other value than a number. -/
theorem value_digit {c : Char} (h : c.isDigit = true) (steps : Nat) (cs : List Char) :
    Parser.value? (steps + 1) (c :: cs) = Parser.number? false (c :: cs) := by
  rw [Parser.value?]
  all_goals
    intro _ heq
    rw [List.cons.injEq] at heq
    exact ne_of_isDigit h (by decide) heq.1

theorem isBlank_digit {c : Char} (h : c.isDigit = true) : Parser.isBlank c = false := by
  have hblank : ∀ d : Char, d.isDigit = false → decide (c = d) = false :=
    fun _ hd => decide_eq_false (ne_of_isDigit h hd)
  rw [Parser.isBlank, hblank ' ' (by decide), hblank '\n' (by decide), hblank '\t' (by decide),
    hblank '\r' (by decide)]
  rfl

theorem readable_number {n : Numeral} (h : ∀ d ∈ n.fraction, d < 10) : Readable (number n) := by
  obtain ⟨c, cs, hdigits⟩ :=
    List.exists_cons_of_ne_nil (Nat.toDigits_ne_nil (n := n.whole) (b := 10))
  have hdigit : c.isDigit = true :=
    Parser.isDigit_toDigits n.whole c (by rw [hdigits]; exact List.mem_cons_self)
  refine readable_of ?_ ?_
  · cases hsign : n.negative with
    | true => exact ⟨'-', _, by rw [chars_number, hsign]; rfl, by decide, by decide⟩
    | false =>
      exact ⟨c, _, by rw [chars_number, hsign, hdigits]; rfl, isBlank_digit hdigit,
        ne_of_isDigit hdigit (by decide)⟩
  · intro steps rest hrest _
    have hnumber := Parser.number_numeral n.negative n.whole h n.exponent hrest
    rw [chars_number, List.append_assoc, List.append_assoc, List.append_assoc]
    cases hsign : n.negative with
    | true =>
      rw [hsign] at hnumber
      rw [if_pos rfl, List.singleton_append, Parser.value?, hnumber, ← hsign]
    | false =>
      rw [hsign, hdigits, List.cons_append] at hnumber
      rw [if_neg Bool.false_ne_true, List.nil_append, hdigits, List.cons_append,
        value_digit hdigit, hnumber, ← hsign]

theorem readable_nat (n : Nat) : Readable (.nat n) := readable_number (by simp)

theorem readable_int (n : Int) : Readable (.int n) := readable_number (by simp [Numeral.ofInt])

theorem readable_text {s : String} (h : PlainText s) : Readable (.text s) := by
  have hchars : (text s).chars = '"' :: (s.toList ++ ['"']) := Piece.toList_quote h
  refine readable_of ⟨'"', _, hchars, by decide, by decide⟩ ?_
  intro steps rest _ _
  rw [hchars, List.cons_append, List.append_assoc, List.singleton_append, Parser.value?,
    Parser.string_plain h]
  rfl

/-! ## Arrays -/

/-- Characters with commas between them. -/
abbrev listed (parts : List (List Char)) : List Char := [','].intercalate parts

theorem listed_cons_cons (part second : List Char) (parts : List (List Char)) :
    listed (part :: second :: parts) = part ++ ',' :: listed (second :: parts) := by
  rw [listed, List.intercalate_cons_cons, List.append_assoc]
  rfl

/-- What is listed begins with the first character of its first part. -/
theorem listed_cons {part cs : List Char} {c : Char} (h : part = c :: cs)
    (parts : List (List Char)) : ∃ tail, listed (part :: parts) = c :: tail := by
  obtain ⟨tail, htail⟩ := intercalate_cons [','] part parts
  exact ⟨cs ++ tail, by rw [listed, htail, h, List.cons_append]⟩

theorem skip_listed {part cs : List Char} {c : Char} (h : part = c :: cs)
    (hblank : Parser.isBlank c = false) (parts : List (List Char)) (rest : List Char) :
    Parser.skip (listed (part :: parts) ++ rest) = listed (part :: parts) ++ rest := by
  obtain ⟨tail, htail⟩ := listed_cons h parts
  rw [htail, List.cons_append, skip_cons hblank]

theorem compactItems_eq_map (vs : List Value) : compactItems vs = vs.map compact := by
  induction vs with
  | nil => rfl
  | cons v vs ih => rw [compactItems, ih, List.map_cons]

theorem chars_array (vs : List Value) :
    (array vs).chars = '[' :: (listed (vs.map chars) ++ [']']) := by
  rw [chars, compact, compactItems_eq_map, String.toList_append, String.toList_append,
    String.toList_intercalate, List.map_map]
  rfl

theorem skip_items {v : Value} (h : v.Readable) (vs : List Value) (rest : List Char) :
    Parser.skip (listed ((v :: vs).map chars) ++ rest) = listed ((v :: vs).map chars) ++ rest := by
  obtain ⟨c, cs, hchars, hblank, -⟩ := h.starts
  exact skip_listed hchars hblank (vs.map chars) rest

theorem items_last {steps : Nat} {cs rest : List Char} {v : Value}
    (hv : Parser.value? steps cs = some (v, ']' :: rest)) :
    Parser.items? (steps + 1) cs = some ([v], rest) := by
  rw [Parser.items?, hv]
  rfl

theorem items_more {steps : Nat} {cs rest after : List Char} {v : Value} {vs : List Value}
    (hv : Parser.value? steps cs = some (v, ',' :: rest))
    (hvs : Parser.items? steps (Parser.skip rest) = some (vs, after)) :
    Parser.items? (steps + 1) cs = some (v :: vs, after) := by
  rw [Parser.items?, hv]
  show (Parser.items? steps (Parser.skip rest)).bind (fun x => some (v :: x.1, x.2)) = _
  rw [hvs]
  rfl

theorem reads_items {vs : List Value} (hne : vs ≠ []) (h : ∀ v ∈ vs, v.Readable)
    (steps : Nat) (rest : List Char) (hsteps : (listed (vs.map chars)).length + 1 < steps) :
    Parser.items? steps (listed (vs.map chars) ++ ']' :: rest) = some (vs, rest) := by
  induction vs generalizing steps with
  | nil => exact absurd rfl hne
  | cons v vs ih =>
    have hv := h v List.mem_cons_self
    have hlength := hv.length_pos
    obtain ⟨steps, rfl⟩ := Nat.exists_eq_succ_of_ne_zero (Nat.ne_zero_of_lt hsteps)
    cases vs with
    | nil =>
      have hlisted : listed ([v].map chars) = v.chars := List.intercalate_singleton
      rw [hlisted] at hsteps ⊢
      exact items_last (hv.reads steps _ (ends_cons rest (.inr (.inl rfl))) (by omega))
    | cons w vs =>
      have hlisted : listed ((v :: w :: vs).map chars) =
          v.chars ++ ',' :: listed ((w :: vs).map chars) := listed_cons_cons _ _ _
      rw [hlisted, List.length_append, List.length_cons] at hsteps
      rw [hlisted, List.append_assoc, List.cons_append]
      refine items_more (hv.reads steps _ (ends_cons _ (.inl rfl)) (by omega)) ?_
      rw [skip_items (h w (by simp))]
      exact ih (List.cons_ne_nil w vs) (fun u hu => h u (List.mem_cons_of_mem v hu)) steps
        (by omega)

theorem readable_array {vs : List Value} (h : ∀ v ∈ vs, v.Readable) : Readable (.array vs) := by
  refine readable_of ⟨'[', _, chars_array vs, by decide, by decide⟩ ?_
  intro steps rest _ hsteps
  rw [chars_array, List.length_cons, List.length_append, List.length_singleton] at hsteps
  rw [chars_array, List.cons_append, List.append_assoc, List.singleton_append]
  cases vs with
  | nil => rfl
  | cons v vs =>
    have hv := h v List.mem_cons_self
    obtain ⟨c, cs, hchars, -, hbracket⟩ := hv.starts
    obtain ⟨tail, htail⟩ := listed_cons hchars (vs.map chars)
    rw [Parser.value?, skip_items hv]
    split
    · rename_i heq
      rw [List.map_cons, htail, List.cons_append, List.cons.injEq] at heq
      exact absurd heq.1 hbracket
    · rw [reads_items (List.cons_ne_nil v vs) h steps rest (by omega)]
      rfl

/-! ## Objects -/

/-- The characters of a field. -/
def fieldChars (field : String × Value) : List Char :=
  '"' :: (field.1.toList ++ '"' :: ':' :: field.2.chars)

/-- A field with a plain name. -/
def ReadableField (field : String × Value) : Prop :=
  PlainText field.1 ∧ field.2.Readable

theorem compactFields_record {fields : List (String × Value)}
    (h : ∀ f ∈ fields, ReadableField f) :
    (compactFields (fields.map fun (name, value) => (Piece.ofText name, value))).map
      String.toList = fields.map fieldChars := by
  induction fields with
  | nil => rfl
  | cons field fields ih =>
    rw [List.map_cons, compactFields, List.map_cons, ih fun f hf => h f (List.mem_cons_of_mem _ hf),
      List.map_cons, String.toList_append, String.toList_append,
      Piece.toList_quote (h field List.mem_cons_self).1, fieldChars]
    simp only [List.cons_append, List.append_assoc]
    rfl

theorem chars_record {fields : List (String × Value)} (h : ∀ f ∈ fields, ReadableField f) :
    (record fields).chars = '\x7b' :: (listed (fields.map fieldChars) ++ ['\x7d']) := by
  rw [chars, record, compact, String.toList_append, String.toList_append,
    String.toList_intercalate, compactFields_record h]
  rfl

theorem skip_comma (cs : List Char) : Parser.skip (',' :: cs) = ',' :: cs := rfl

theorem skip_colon (cs : List Char) : Parser.skip (':' :: cs) = ':' :: cs := rfl

section Fields

variable {steps : Nat} {rest after : List Char} {name : String} {v : Value}
  {fs : List (List Piece × Value)}

theorem fields_last (hname : PlainText name) (hv : v.Readable)
    (hsteps : v.chars.length < steps) :
    Parser.fields? (steps + 1) (fieldChars (name, v) ++ '\x7d' :: rest) =
      some ([(Piece.ofText name, v)], rest) := by
  have hvalue := hv.reads steps _ (ends_cons rest (.inr (.inr rfl))) hsteps
  rw [fieldChars, List.cons_append, List.append_assoc, List.cons_append, List.cons_append,
    Parser.fields?, Parser.string_plain hname]
  simp only [Option.bind_eq_bind, Option.bind_some, skip_colon, hv.skip_append, hvalue]
  rfl

theorem fields_more (hname : PlainText name) (hv : v.Readable)
    (hsteps : v.chars.length < steps)
    (hfs : Parser.fields? steps (Parser.skip rest) = some (fs, after)) :
    Parser.fields? (steps + 1) (fieldChars (name, v) ++ ',' :: rest) =
      some ((Piece.ofText name, v) :: fs, after) := by
  have hvalue := hv.reads steps _ (ends_cons rest (.inl rfl)) hsteps
  rw [fieldChars, List.cons_append, List.append_assoc, List.cons_append, List.cons_append,
    Parser.fields?, Parser.string_plain hname]
  simp only [Option.bind_eq_bind, Option.bind_some, skip_colon, hv.skip_append, hvalue, skip_comma,
    hfs]
  rfl

end Fields

theorem skip_fields (field : String × Value) (fields : List (String × Value)) (rest : List Char) :
    Parser.skip (listed ((field :: fields).map fieldChars) ++ rest) =
      listed ((field :: fields).map fieldChars) ++ rest :=
  skip_listed (show fieldChars field = '"' :: _ from rfl) rfl (fields.map fieldChars) rest

theorem reads_fields {fields : List (String × Value)} (hne : fields ≠ [])
    (h : ∀ f ∈ fields, ReadableField f) (steps : Nat) (rest : List Char)
    (hsteps : (listed (fields.map fieldChars)).length + 1 < steps) :
    Parser.fields? steps (listed (fields.map fieldChars) ++ '\x7d' :: rest) =
      some (fields.map fun (name, value) => (Piece.ofText name, value), rest) := by
  induction fields generalizing steps with
  | nil => exact absurd rfl hne
  | cons field fields ih =>
    obtain ⟨name, v⟩ := field
    obtain ⟨hname, hv⟩ := h _ List.mem_cons_self
    have hlength : v.chars.length < (fieldChars (name, v)).length := by
      simp [fieldChars]
      omega
    obtain ⟨steps, rfl⟩ := Nat.exists_eq_succ_of_ne_zero (Nat.ne_zero_of_lt hsteps)
    cases fields with
    | nil =>
      have hlisted : listed ([(name, v)].map fieldChars) = fieldChars (name, v) :=
        List.intercalate_singleton
      rw [hlisted] at hsteps ⊢
      exact fields_last hname hv (by omega)
    | cons second fields =>
      have hlisted : listed (((name, v) :: second :: fields).map fieldChars) =
          fieldChars (name, v) ++ ',' :: listed ((second :: fields).map fieldChars) :=
        listed_cons_cons _ _ _
      rw [hlisted, List.length_append, List.length_cons] at hsteps
      rw [hlisted, List.append_assoc, List.cons_append]
      refine fields_more hname hv (by omega) ?_
      rw [skip_fields]
      exact ih (List.cons_ne_nil second fields) (fun f hf => h f (List.mem_cons_of_mem _ hf)) steps
        (by omega)

theorem readable_record {fields : List (String × Value)} (h : ∀ f ∈ fields, ReadableField f) :
    Readable (.record fields) := by
  refine readable_of ⟨'\x7b', _, chars_record h, by decide, by decide⟩ ?_
  intro steps rest _ hsteps
  rw [chars_record h, List.length_cons, List.length_append, List.length_singleton] at hsteps
  rw [chars_record h, List.cons_append, List.append_assoc, List.singleton_append]
  cases fields with
  | nil => rfl
  | cons field fields =>
    have hfirst : fieldChars field = '"' :: _ := rfl
    obtain ⟨tail, htail⟩ := listed_cons hfirst (fields.map fieldChars)
    rw [Parser.value?, skip_fields]
    split
    · rename_i heq
      rw [List.map_cons, htail, List.cons_append, List.cons.injEq] at heq
      exact absurd heq.1 (by decide)
    · rw [reads_fields (List.cons_ne_nil field fields) h steps rest (by omega)]
      rfl

theorem readable_variant {name : String} {v : Value} (hname : PlainText name)
    (hv : v.Readable) : Readable (.variant name v) := by
  refine readable_record fun f hf => ?_
  rw [List.mem_singleton.1 hf]
  exact ⟨hname, hv⟩

/-- The text of a readable value holds this value. -/
theorem Readable.parse {v : Value} (h : v.Readable) : Value.parse? v.compact = some v := by
  have hskip := h.skip_append []
  have hreads := h.reads (v.chars.length + 1) [] ends_nil (Nat.lt_succ_self _)
  rw [List.append_nil] at hskip hreads
  rw [parse?]
  show (Parser.value? (v.chars.length + 1) (Parser.skip v.chars)).bind _ = _
  rw [hskip, hreads]
  rfl

end Value

end Json

end BytecodeDump
