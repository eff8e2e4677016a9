import TwoLevel.Table.Writer
import TwoLevel.Text.Lines
import TwoLevel.Number.Decimal
import Mathlib.Data.List.DropRight

/-!
Texts taken apart again. Lines that were joined are the lines of the joined text, words joined by
spaces are its words, and blanks around a line change neither its words nor its first character that
is not blank. A numeral is a word, and reads as the number that it stands for.
-/

namespace TwoLevel

namespace Text

variable {α : Type} {cut : α → Bool} {a c : α} {l s before after : List α}

theorem pieces_eq_splitOnP (cut : α → Bool) (s : List α) : pieces cut s = s.splitOnP cut := by
  induction s with
  | nil => rfl
  | cons a s ih =>
      obtain ⟨piece, rest, first⟩ := List.exists_cons_of_ne_nil (List.splitOnP_ne_nil cut s)
      change cutBefore cut a (pieces cut s) = _
      rw [ih, List.splitOnP_cons_eq_if_modifyHead, first]
      rfl

theorem length_le_of_mem_pieces {piece : List α} (member : piece ∈ pieces cut s) :
    piece.length ≤ s.length := by
  induction s generalizing piece with
  | nil => rw [List.mem_singleton.1 member]
  | cons a s ih =>
      obtain ⟨first, rest, parts⟩ := List.exists_cons_of_ne_nil (List.splitOnP_ne_nil cut s)
      rw [← pieces_eq_splitOnP] at parts
      change piece ∈ cutBefore cut a (pieces cut s) at member
      rw [parts] at ih member
      rw [cutBefore] at member
      rw [List.length_cons]
      split at member
      · rcases List.mem_cons.1 member with rfl | old
        · exact Nat.zero_le _
        · exact Nat.le_succ_of_le (ih old)
      · rcases List.mem_cons.1 member with rfl | old
        · exact Nat.succ_le_succ (ih List.mem_cons_self)
        · exact Nat.le_succ_of_le (ih (List.mem_cons_of_mem first old))

theorem fields_append_cons (ends : cut c = true) (s t : List α) :
    fields cut (s ++ c :: t) = fields cut s ++ fields cut t := by
  simp only [fields, pieces_eq_splitOnP]
  rw [List.splitOnP_append_cons s t ends, List.filter_append]

theorem fields_cons_cut (ends : cut c = true) (s : List α) : fields cut (c :: s) = fields cut s :=
  fields_append_cons ends [] s

theorem fields_of_cuts (blank : ∀ a ∈ s, cut a = true) : fields cut s = [] := by
  induction s with
  | nil => rfl
  | cons a s ih =>
      rw [fields_cons_cut (blank a List.mem_cons_self)]
      exact ih fun b member => blank b (List.mem_cons_of_mem a member)

theorem fields_of_free (more : l ≠ []) (free : ∀ a ∈ l, cut a = false) : fields cut l = [l] := by
  rw [fields, pieces_eq_splitOnP, List.splitOnP_eq_singleton free]
  exact List.filter_cons_of_pos (by simpa using more)

theorem fields_around (blank : ∀ a ∈ before, cut a = true) (blank' : ∀ a ∈ after, cut a = true)
    (s : List α) : fields cut (before ++ s ++ after) = fields cut s := by
  have behind : fields cut (s ++ after) = fields cut s := by
    cases after with
    | nil => rw [List.append_nil]
    | cons a rest =>
        rw [fields_append_cons (blank' a List.mem_cons_self),
          fields_of_cuts fun b member => blank' b (List.mem_cons_of_mem a member), List.append_nil]
  induction before with
  | nil => exact behind
  | cons a before ih =>
      rw [List.cons_append, List.cons_append, fields_cons_cut (blank a List.mem_cons_self)]
      exact ih fun b member => blank b (List.mem_cons_of_mem a member)

theorem free_of_mem_splitOnP (inside : l ∈ s.splitOnP cut) (member : a ∈ l) : cut a = false := by
  induction s generalizing l with
  | nil =>
      rw [List.mem_singleton.1 inside] at member
      cases member
  | cons b s ih =>
      obtain ⟨piece, rest, first⟩ := List.exists_cons_of_ne_nil (List.splitOnP_ne_nil cut s)
      rw [List.splitOnP_cons_eq_if_modifyHead, first] at inside
      rw [first] at ih
      cases ends : cut b with
      | true =>
          rw [if_pos ends] at inside
          rcases List.mem_cons.1 inside with rfl | inside
          · cases member
          · exact ih inside member
      | false =>
          rw [if_neg (by simp [ends]), List.modifyHead_cons] at inside
          rcases List.mem_cons.1 inside with rfl | inside
          · rcases List.mem_cons.1 member with rfl | member
            · exact ends
            · exact ih List.mem_cons_self member
          · exact ih (List.mem_cons_of_mem piece inside) member

theorem of_mem_fields (inside : l ∈ fields cut s) : l ≠ [] ∧ ∀ a ∈ l, cut a = false := by
  obtain ⟨piece, more⟩ := List.mem_filter.1 inside
  rw [pieces_eq_splitOnP] at piece
  exact ⟨by simpa using more, fun a member => free_of_mem_splitOnP piece member⟩

theorem fields_intercalate {words : List (List α)} (ends : cut c = true)
    (plain : ∀ word ∈ words, word ≠ [] ∧ ∀ a ∈ word, cut a = false) :
    fields cut ([c].intercalate words) = words := by
  induction words with
  | nil => rfl
  | cons word rest ih =>
      obtain ⟨more, free⟩ := plain word List.mem_cons_self
      have later := ih fun other member => plain other (List.mem_cons_of_mem word member)
      by_cases last : rest = []
      · rw [last, List.intercalate_singleton]
        exact fields_of_free more free
      · rw [List.intercalate_cons_of_ne_nil last, List.append_assoc, List.singleton_append,
          fields_append_cons ends, fields_of_free more free, later]
        rfl

/-! ## Blanks around a text -/

theorem trim_eq (s : List Char) : trim s = (s.dropWhile isBlank).rdropWhile isBlank := rfl

theorem exists_trim (s : List Char) : ∃ before after,
    s = before ++ trim s ++ after ∧ (∀ c ∈ before, isBlank c = true) ∧
      ∀ c ∈ after, isBlank c = true := by
  refine ⟨s.takeWhile isBlank, (s.dropWhile isBlank).rtakeWhile isBlank, ?_, ?_, ?_⟩
  · rw [trim_eq, List.append_assoc, List.rdropWhile_append_rtakeWhile,
      List.takeWhile_append_dropWhile]
  · exact fun c member => List.mem_takeWhile_imp member
  · exact fun c member => List.mem_rtakeWhile_imp member

theorem words_trim (s : List Char) : words (trim s) = words s := by
  obtain ⟨before, after, same, blank, blank'⟩ := exists_trim s
  have inner := fields_around blank blank' (trim s)
  rw [← same] at inner
  rw [words, words, inner]

theorem filter_trim (keep : Char → Bool) (drops : ∀ c, isBlank c = true → keep c = false)
    (s : List Char) : (trim s).filter keep = s.filter keep := by
  obtain ⟨before, after, same, blank, blank'⟩ := exists_trim s
  have gone : before.filter keep = [] :=
    List.filter_eq_nil_iff.2 fun c member => by simp [drops c (blank c member)]
  have gone' : after.filter keep = [] :=
    List.filter_eq_nil_iff.2 fun c member => by simp [drops c (blank' c member)]
  have whole := congrArg (List.filter keep) same
  rw [List.filter_append, List.filter_append, gone, gone', List.append_nil, List.nil_append] at whole
  exact whole.symm

theorem head?_rdropWhile {p : α → Bool} (keep : p a = false) (s : List α) :
    ((a :: s).rdropWhile p).head? = some a := by
  obtain ⟨rest, last⟩ := List.rdropWhile_prefix p (a :: s)
  cases kept : (a :: s).rdropWhile p with
  | nil =>
      have dropped := List.rdropWhile_eq_nil_iff.1 kept a List.mem_cons_self
      rw [keep] at dropped
      cases dropped
  | cons b tail =>
      rw [kept, List.cons_append] at last
      rw [List.head?_cons, (List.cons.inj last).1]

theorem head?_trim (s : List Char) : (trim s).head? = s.find? (!isBlank ·) := by
  have first : s.find? (!isBlank ·) = (s.dropWhile isBlank).head? := by
    simpa using List.find?_eq_head?_dropWhile_not (!isBlank ·) s
  rw [trim_eq, first]
  cases rest : s.dropWhile isBlank with
  | nil => rfl
  | cons c tail =>
      have plain := List.head?_dropWhile_not isBlank s
      rw [rest] at plain
      exact head?_rdropWhile plain tail

/-! ## Words -/

/-- A text that is one word of every text in which it stands between blanks. -/
def IsWord (word : String) : Prop :=
  word.toList ≠ [] ∧ ∀ c ∈ word.toList, isBlank c = false

instance (word : String) : Decidable (IsWord word) :=
  decidable_of_iff ((!word.toList.isEmpty && word.toList.all (!isBlank ·)) = true)
    (by simp [IsWord])

theorem isWord_of_mem_words {word : String} {s : List Char} (member : word ∈ words s) :
    IsWord word := by
  obtain ⟨field, inside, rfl⟩ := List.mem_map.1 member
  rw [IsWord, String.toList_ofList]
  exact of_mem_fields inside

theorem words_intercalate {list : List String} (plain : ∀ word ∈ list, IsWord word) :
    words (" ".intercalate list).toList = list := by
  have apart : fields isBlank ([' '].intercalate (list.map String.toList)) =
      list.map String.toList := by
    apply fields_intercalate (by decide)
    intro word member
    obtain ⟨word, inside, rfl⟩ := List.mem_map.1 member
    exact plain word inside
  rw [words, String.toList_intercalate, show " ".toList = [' '] from rfl, apart, List.map_map]
  exact (List.map_congr_left fun word _ => String.ofList_toList).trans (List.map_id list)

/-! ## Lines -/

theorem linesOfString_cons {line : String} (whole : '\n' ∉ line.toList) (rest : String) :
    linesOfString (line ++ "\n" ++ rest) = .ok line.toList :: linesOfString rest := by
  have apart : ∀ c ∈ line.toList, (c == '\n') = false := by
    intro c member
    rw [beq_eq_false_iff_ne]
    rintro rfl
    exact whole member
  have joined : (line ++ "\n" ++ rest).toList = line.toList ++ '\n' :: rest.toList := by
    simp [String.toList_append]
  rw [linesOfString, pieces_eq_splitOnP, joined,
    List.splitOnP_append_cons_of_forall_mem apart '\n' (by decide), List.map_cons, linesOfString,
    pieces_eq_splitOnP]

theorem linesOfString_joinLines {lines : List String} (whole : ∀ line ∈ lines, '\n' ∉ line.toList) :
    linesOfString (joinLines lines) = lines.map (.ok ·.toList) ++ [.ok []] := by
  induction lines with
  | nil => rfl
  | cons line rest ih =>
      obtain ⟨here, later⟩ := List.forall_mem_cons.1 whole
      rw [joinLines, List.map_cons, String.join_cons, linesOfString_cons here]
      exact congrArg (Except.ok line.toList :: ·) (ih later)

end Text

/-! ## Numerals -/

namespace Number

theorem foldlM_digit? {s : List Char} (digits : ∀ c ∈ s, c.isDigit = true) (value : Nat) :
    s.foldlM (fun value c => (digit? c).map (10 * value + ·)) value =
      some (Nat.ofDigitChars 10 s value) := by
  induction s generalizing value with
  | nil => rfl
  | cons c rest ih =>
      rw [List.foldlM_cons, digit?, if_pos (digits c List.mem_cons_self), Nat.ofDigitChars_cons]
      exact ih (fun d member => digits d (List.mem_cons_of_mem c member)) _

theorem digits?_toDigits (n : Nat) : digits? (Nat.toDigits 10 n) = some n := by
  have more : (Nat.toDigits 10 n).isEmpty = false := by
    simp [Nat.toDigits_ne_nil]
  rw [digits?, more]
  have digits : ∀ c ∈ Nat.toDigits 10 n, c.isDigit = true :=
    fun c member => Nat.isDigit_of_mem_toDigits (by decide) (by decide) member
  rw [if_neg Bool.false_ne_true, foldlM_digit? digits, Nat.ofDigitChars_ten_toDigits]

theorem toList_toString (n : Nat) : (toString n).toList = Nat.toDigits 10 n := by
  rw [Nat.toString_eq_ofList_toDigits, String.toList_ofList]

theorem count?_toString {n : Nat} (small : n < UInt64.size) :
    count? (toString n).toList = some n := by
  rw [toList_toString]
  have value := digits?_toDigits n
  have digits : ∀ c ∈ Nat.toDigits 10 n, c.isDigit = true :=
    fun c member => Nat.isDigit_of_mem_toDigits (by decide) (by decide) member
  cases text : Nat.toDigits 10 n with
  | nil => exact absurd text Nat.toDigits_ne_nil
  | cons c rest =>
      have unsigned : c ≠ '+' := by
        rintro rfl
        have := digits '+' (by simp [text])
        exact absurd this (by decide)
      rw [text] at value
      rw [count?]
      · simp [value, small]
      · rintro _ ⟨rfl, rfl⟩
        exact unsigned rfl

end Number

namespace Text

theorem not_isBlank_of_isDigit {c : Char} (digit : c.isDigit = true) : isBlank c = false := by
  simp only [Char.isDigit, Bool.and_eq_true, decide_eq_true_eq, ge_iff_le] at digit
  have low : 48 ≤ c.toNat := digit.1
  have high : c.toNat ≤ 57 := digit.2
  have apart : ∀ range ∈ blankRanges, ¬(range.1 ≤ c.toNat ∧ c.toNat ≤ range.2) := by
    simp only [blankRanges, List.forall_mem_cons, List.not_mem_nil, false_implies, implies_true,
      and_true]
    omega
  rw [isBlank, List.any_eq_false]
  simpa using apart

theorem isWord_numeral (n : Nat) : IsWord (toString n) := by
  rw [IsWord, Number.toList_toString]
  exact ⟨Nat.toDigits_ne_nil, fun c member =>
    not_isBlank_of_isDigit (Nat.isDigit_of_mem_toDigits (by decide) (by decide) member)⟩

theorem isWord_defaultName (n : Nat) : IsWord (defaultName n) := by
  have numeral := (isWord_numeral n).2
  rw [IsWord, defaultName, String.toList_append]
  refine ⟨by simp, fun c member => ?_⟩
  rcases List.mem_append.1 member with letter | digit
  · rw [List.mem_singleton.1 letter]
    decide
  · exact numeral c digit

end Text

end TwoLevel
