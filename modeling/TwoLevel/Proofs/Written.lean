import TwoLevel.Proofs.Reader

/-!
What the writer writes, read again. A header sets the width, the names and the output; each row
written for a cube adds the minterms in the cube.
-/

namespace TwoLevel.Table

open Text

variable {draft next : Draft} {number n : Nat} {names : Names} {output : String}
  {list : List String} {lists : List (List String)} {rest : List Line} {kind : RowKind}
  {mark : Char} {c : Cube} {cubes before after on off : List Cube}

/-! ## Directives -/

structure IsDirective (list : List String) : Prop where
  words : ∀ word ∈ list, IsWord word
  point : list.head?.bind (·.toList.head?) = some '.'
  goesOn : endsTable list = false

theorem mem_intercalate {ch : Char} (member : ch ∈ (" ".intercalate list).toList) :
    ch = ' ' ∨ ∃ word ∈ list, ch ∈ word.toList := by
  induction list with
  | nil => cases member
  | cons word rest ih =>
      by_cases more : rest = []
      · rw [more, String.intercalate_singleton] at member
        exact .inr ⟨word, List.mem_cons_self, member⟩
      · rw [String.intercalate_cons_of_ne_nil more, String.toList_append, String.toList_append,
          List.append_assoc] at member
        rcases List.mem_append.1 member with here | member
        · exact .inr ⟨word, List.mem_cons_self, here⟩
        rcases List.mem_append.1 member with space | member
        · exact .inl (List.mem_singleton.1 space)
        rcases ih member with space | ⟨other, inside, later⟩
        · exact .inl space
        · exact .inr ⟨other, List.mem_cons_of_mem word inside, later⟩

theorem newline_intercalate (plain : ∀ word ∈ list, IsWord word) :
    '\n' ∉ (" ".intercalate list).toList := by
  intro newline
  rcases mem_intercalate newline with space | ⟨word, part, letter⟩
  · exact absurd space (by decide)
  · exact absurd ((plain word part).2 _ letter) (by decide)

theorem find?_intercalate (plain : ∀ word ∈ list, IsWord word) :
    (" ".intercalate list).toList.find? (!isBlank ·) = list.head?.bind (·.toList.head?) := by
  cases list with
  | nil => rfl
  | cons word rest =>
      obtain ⟨more, free⟩ := plain word List.mem_cons_self
      obtain ⟨ch, tail, letters⟩ := List.exists_cons_of_ne_nil more
      have first : ∃ later, (" ".intercalate (word :: rest)).toList = ch :: later := by
        by_cases alone : rest = []
        · exact ⟨tail, by rw [alone, String.intercalate_singleton, letters]⟩
        · refine ⟨tail ++ (" " ++ " ".intercalate rest).toList, ?_⟩
          rw [String.intercalate_cons_of_ne_nil alone, String.append_assoc, String.toList_append,
            letters]
          rfl
      obtain ⟨later, start⟩ := first
      have plainFirst : isBlank ch = false := free ch (letters ▸ List.mem_cons_self)
      rw [start, List.find?_cons_of_pos (by simp [plainFirst])]
      simp [letters]

theorem line_intercalate (plain : ∀ word ∈ list, IsWord word)
    (point : list.head?.bind (·.toList.head?) = some '.') :
    draft.line number (" ".intercalate list).toList =
      if endsTable list then .ok none else (draft.directive list).map some := by
  rw [line_directive ((find?_intercalate plain).trans point), words_intercalate plain]

theorem readFrom_directives (number : Nat) (directives : ∀ list ∈ lists, IsDirective list)
    (result : lists.foldlM Draft.directive draft = .ok next) (rest : List Line) :
    draft.readFrom number (lists.map (fun list => .ok (" ".intercalate list).toList) ++ rest) =
      next.readFrom (number + lists.length) rest := by
  induction lists generalizing draft number with
  | nil =>
      cases result
      rfl
  | cons list lists ih =>
      obtain ⟨plain, point, goesOn⟩ := directives list List.mem_cons_self
      rw [List.foldlM_cons] at result
      cases step : draft.directive list with
      | error fault =>
          rw [step] at result
          cases result
      | ok after =>
          rw [step] at result
          rw [List.map_cons, List.cons_append, readFrom_cons, line_intercalate plain point, goesOn,
            step]
          refine (ih (number + 1)
            (fun other member => directives other (List.mem_cons_of_mem list member))
            result).trans ?_
          rw [List.length_cons, Nat.add_right_comm, Nat.add_assoc]

/-! ## Rows -/

theorem plain_of_rowKind (known : rowKind? mark = some kind) :
    isGap mark = false ∧ mark ≠ '#' ∧ mark ≠ '.' := by
  unfold rowKind? at known
  split at known
  all_goals first | decide | cases known

theorem plain_inputCharacter (polarity : Option Polarity) :
    isGap (inputCharacter polarity) = false ∧ inputCharacter polarity ≠ '#' ∧
      inputCharacter polarity ≠ '.' := by
  cases polarity with
  | none => decide
  | some polarity => cases polarity <;> decide

theorem toList_rowLine (n : Nat) (mark : Char) (c : Cube) : (rowLine n mark c).toList =
    (List.range n).map (fun var => inputCharacter (c.polarityOf? var)) ++ [' ', mark] := by
  rw [rowLine, String.toList_ofList]

theorem packed_rowLine (known : rowKind? mark = some kind) (n : Nat) (c : Cube) :
    (rowLine n mark c).toList.filter (!isGap ·) =
      (List.range n).map (fun var => inputCharacter (c.polarityOf? var)) ++ [mark] := by
  have last : [' ', mark].filter (!isGap ·) = [mark] := by
    have space : isGap ' ' = true := by decide
    simp [space, (plain_of_rowKind known).1]
  rw [toList_rowLine, List.filter_append, last, List.append_left_inj]
  apply List.filter_eq_self.2
  intro ch member
  obtain ⟨var, _, rfl⟩ := List.mem_map.1 member
  simp [(plain_inputCharacter (c.polarityOf? var)).1]

theorem mem_rowLine {ch : Char} (member : ch ∈ (rowLine n mark c).toList) :
    (∃ polarity, ch = inputCharacter polarity) ∨ ch = ' ' ∨ ch = mark := by
  rw [toList_rowLine] at member
  rcases List.mem_append.1 member with input | last
  · obtain ⟨var, _, rfl⟩ := List.mem_map.1 input
    exact .inl ⟨_, rfl⟩
  · exact .inr (by simpa using last)

theorem readInputs_written (number position : Nat) (polarities : List (Option Polarity)) :
    readInputs number position (polarities.map inputCharacter) =
      .ok (polarities.map (·.map Polarity.value)) := by
  induction polarities generalizing position with
  | nil => rfl
  | cons polarity rest ih =>
      have value : input? (inputCharacter polarity) = some (polarity.map Polarity.value) := by
        cases polarity with
        | none => rfl
        | some polarity => cases polarity <;> rfl
      rw [List.map_cons, readInputs, value, ih]
      rfl

theorem row_rowLine (width : draft.width = some n) (known : rowKind? mark = some kind)
    (number : Nat) (c : Cube) : draft.row number (rowLine n mark c).toList =
      if kind = .dontCare ∨ c.freeIn n ≤ maxFree then .ok (draft.add (fill (c.inputs n)) kind)
      else .error (.tooManyFree number (c.freeIn n) maxFree) := by
  let characters := (List.range n).map fun var => inputCharacter (c.polarityOf? var)
  have parts : splitRow number draft.width (rowLine n mark c).toList = .ok (characters, [mark]) := by
    rw [width, splitRow, packed_rowLine known]
    simp [characters]
  have set : readInputs number 0 characters = .ok (c.inputs n) := by
    have written := readInputs_written number 0 ((List.range n).map c.polarityOf?)
    rw [List.map_map, List.map_map] at written
    exact written
  have output : readOutput number [mark] = .ok kind := by
    rw [readOutput, known]
  have same : { draft with width := draft.width.or (some characters.length) } = draft := by
    rw [width, Option.some_or, ← width]
  rw [row_eq parts set output, Cube.countP_inputs, same]

theorem line_rowLine (width : draft.width = some n) (known : rowKind? mark = some kind)
    (number : Nat) (c : Cube) : draft.line number (rowLine n mark c).toList =
      if kind = .dontCare ∨ c.freeIn n ≤ maxFree then
        .ok (some (draft.add (fill (c.inputs n)) kind))
      else .error (.tooManyFree number (c.freeIn n) maxFree) := by
  obtain ⟨gap, hash, point⟩ := plain_of_rowKind known
  have blank : isBlank mark = false := by
    simpa using (Bool.or_eq_false_iff.1 gap).1
  -- without variables the first character is the output, else an input: never a point or a hash
  have found : ((rowLine n mark c).toList.find? (!isBlank ·)).isSome = true :=
    List.find?_isSome.2 ⟨mark, by simp [toList_rowLine], by simp [blank]⟩
  obtain ⟨ch, first⟩ := Option.isSome_iff_exists.1 found
  have plain : ch ≠ '#' ∧ ch ≠ '.' := by
    rcases mem_rowLine (List.mem_of_find?_eq_some first) with ⟨polarity, rfl⟩ | rfl | rfl
    · exact (plain_inputCharacter polarity).2
    · exact absurd (List.find?_some first) (by decide)
    · exact ⟨hash, point⟩
  rw [line_row first plain.1 plain.2, row_rowLine width known]
  split <;> rfl

theorem readFrom_rows (width : draft.width = some n) (known : rowKind? mark = some kind)
    (few : ∀ c ∈ cubes, c.freeIn n ≤ maxFree) (rest : List Line) :
    draft.readFrom number (cubes.map (fun c => .ok (rowLine n mark c).toList) ++ rest) =
      (draft.add (cubes.flatMap fun c => fill (c.inputs n)) kind).readFrom
        (number + cubes.length) rest := by
  induction cubes generalizing draft number with
  | nil =>
      rw [List.flatMap_nil, add_nil]
      rfl
  | cons c cubes ih =>
      have here := few c List.mem_cons_self
      rw [List.map_cons, List.cons_append, readFrom_cons, line_rowLine width known, if_pos (.inr here)]
      refine (ih (by rw [add_width, width]) fun d member =>
        few d (List.mem_cons_of_mem c member)).trans ?_
      rw [add_append, List.flatMap_cons, List.length_cons, Nat.add_right_comm, Nat.add_assoc]

theorem readFrom_rows_of_many (number : Nat) (width : draft.width = some n)
    (known : rowKind? mark = some kind) (counts : kind ≠ .dontCare) (few : ∀ d ∈ before, d.freeIn n ≤ maxFree)
    (many : maxFree < c.freeIn n) (after : List Cube) (rest : List Line) :
    draft.readFrom number
        ((before ++ c :: after).map (fun c => .ok (rowLine n mark c).toList) ++ rest) =
      .error (.malformed (.tooManyFree (number + before.length) (c.freeIn n) maxFree)) := by
  rw [List.map_append, List.append_assoc, readFrom_rows width known few, List.map_cons,
    List.cons_append, readFrom_cons, line_rowLine (by rw [add_width, width]) known, if_neg]
  simp [counts, many]

/-! ## Whole texts -/

/-- A header over `n` variables that says again what it was written from. -/
structure Readable (n : Nat) (names : Names) (output : String) : Prop where
  counted : n < UInt64.size
  indexed : names.Indexed
  size : names.size = n
  words : ∀ name ∈ names.toList, IsWord name
  output : IsWord output

def head (form : String) (n : Nat) (names : Names) (output : String) (count : Nat) :
    List (List String) :=
  [[".type", form], [".i", toString n]] ++ (if 0 < n then [".ilb" :: names.toList.take n] else [])
    ++ [[".o", "1"], [".ob", output], [".p", toString count]]

def headed (n : Nat) (names : Names) (output : String) : Draft where
  width := some n
  names := if 0 < n then some names.toList else none
  output := some output

def rowsFrom (form : String) (n : Nat) (names : Names) (output : String) (count : Nat)
    (rows : List String) (last : String) : List String :=
  [".type " ++ form] ++ headerLines n names output ++ [".p " ++ toString count] ++ rows ++ [last]

theorem headerLines_eq (form : String) (n : Nat) (names : Names) (output : String) (count : Nat) :
    [".type " ++ form] ++ headerLines n names output ++ [".p " ++ toString count] =
      (head form n names output count).map (" ".intercalate ·) := by
  unfold headerLines head
  split <;> rfl

theorem isDirective_cons {keyword : String} (plain : IsWord keyword)
    (point : keyword.toList.head? = some '.') (goesOn : endsTable [keyword] = false)
    (words : ∀ word ∈ list, IsWord word) : IsDirective (keyword :: list) where
  words := List.forall_mem_cons.2 ⟨plain, words⟩
  point := point
  goesOn := goesOn

theorem isDirective_head {form : String} (word : IsWord form) (readable : Readable n names output)
    (count : Nat) : ∀ list ∈ head form n names output count, IsDirective list := by
  intro list member
  simp only [head, List.mem_append, List.mem_cons, List.not_mem_nil, or_false,
    List.mem_ite_nil_right] at member
  rcases member with ((rfl | rfl) | ⟨_, rfl⟩) | rfl | rfl | rfl
  · exact isDirective_cons (by decide) rfl rfl (by simpa using word)
  · exact isDirective_cons (by decide) rfl rfl (by simpa using isWord_numeral n)
  · exact isDirective_cons (by decide) rfl rfl fun name inside =>
      readable.words name (List.mem_of_mem_take inside)
  · exact isDirective_cons (by decide) rfl rfl (by decide)
  · exact isDirective_cons (by decide) rfl rfl (by simpa using readable.output)
  · exact isDirective_cons (by decide) rfl rfl (by simpa using isWord_numeral count)

theorem directive_width (draft : Draft) (counted : n < UInt64.size) :
    draft.directive [".i", toString n] = .ok { draft with width := some n } := by
  have count : readCount ".i" (some (toString n)) = .ok n := by
    rw [readCount, Option.bind_some, Number.count?_toString counted]
  change (readCount ".i" (some (toString n)) >>= fun width => pure _) = _
  rw [count]
  rfl

theorem directive_names (draft : Draft) (more : list ≠ []) :
    draft.directive (".ilb" :: list) = .ok { draft with names := some list } := by
  have nonempty : list.isEmpty = false := by simpa using more
  change Except.ok (if list.isEmpty then draft else _) = _
  rw [nonempty]
  rfl

theorem directives_head (readable : Readable n names output) (form : String) (count : Nat) :
    (head form n names output count).foldlM Draft.directive {} = .ok (headed n names output) := by
  have form (draft : Draft) : draft.directive [".type", form] = .ok draft := rfl
  have outputs (draft : Draft) : draft.directive [".o", "1"] = .ok draft := rfl
  have named (draft : Draft) :
      draft.directive [".ob", output] = .ok { draft with output := some output } := rfl
  have count (draft : Draft) : draft.directive [".p", toString count] = .ok draft := rfl
  have whole : names.toList.take n = names.toList := by
    rw [← readable.size, Names.size_eq, List.take_length]
  by_cases positive : 0 < n
  · have more : names.toList ≠ [] := by
      rw [← List.length_pos_iff, ← Names.size_eq, readable.size]
      exact positive
    simp only [head, headed, whole, positive, if_true, List.cons_append, List.nil_append,
      List.foldlM_cons, List.foldlM_nil, form, directive_width _ readable.counted,
      directive_names _ more, outputs, named, count, bind, Except.bind, pure, Except.pure]
  · simp only [head, headed, positive, if_false, List.cons_append, List.nil_append, List.append_nil,
      List.foldlM_cons, List.foldlM_nil, form, directive_width _ readable.counted, outputs, named,
      count, bind, Except.bind, pure, Except.pure]

theorem finalNames_headed (readable : Readable n names output) :
    (headed n names output).finalNames n = .ok names := by
  by_cases positive : 0 < n
  · have length : names.toList.length = n := readable.size
    simp only [Draft.finalNames, headed, positive, if_true]
    rw [if_pos length, readable.indexed]
  · have zero : n = 0 := Nat.eq_zero_of_not_pos positive
    have empty : names.toList = [] := by
      rw [← List.length_eq_zero_iff, ← Names.size_eq, readable.size, zero]
    have same : Names.generated n = names := by
      rw [← readable.indexed, empty, zero]
      rfl
    simp only [Draft.finalNames, headed, positive, if_false, same]

theorem lines_rowsFrom {form last : String} (word : IsWord form) (word' : IsWord last)
    (readable : Readable n names output) (count : Nat) {rows : List String}
    (whole : ∀ row ∈ rows, '\n' ∉ row.toList) :
    ∀ line ∈ rowsFrom form n names output count rows last, '\n' ∉ line.toList := by
  intro line member newline
  rw [rowsFrom, headerLines_eq] at member
  rcases List.mem_append.1 member with member | member
  · rcases List.mem_append.1 member with member | member
    · obtain ⟨list, inside, rfl⟩ := List.mem_map.1 member
      have plain := (isDirective_head word readable count list inside).words
      exact newline_intercalate plain newline
    · exact whole line member newline
  · rw [List.mem_singleton.1 member] at newline
    exact absurd (word'.2 _ newline) (by decide)

/-- The words that a writer may end a table with. -/
structure IsEnd (last : String) : Prop where
  word : IsWord last
  point : last.toList.head? = some '.'
  ends : endsTable [last] = true

theorem isEnd_end : IsEnd ".end" := ⟨by decide, rfl, rfl⟩

theorem isEnd_e : IsEnd ".e" := ⟨by decide, rfl, rfl⟩

theorem readFrom_last {last : String} (ending : IsEnd last) (draft : Draft) (number : Nat)
    (rest : List Line) : draft.readFrom number (.ok last.toList :: rest) = .ok draft := by
  have step : draft.line number (" ".intercalate [last]).toList = _ :=
    line_intercalate (by simpa using ending.word) ending.point
  rw [String.intercalate_singleton, ending.ends] at step
  rw [readFrom_cons, step]
  rfl

theorem length_head (form : String) (n : Nat) (names : Names) (output : String) (count : Nat) :
    (head form n names output count).length = if 0 < n then 6 else 5 := by
  unfold head
  split <;> rfl

theorem ofString_rowsFrom {form last : String} (word : IsWord form) (ending : IsEnd last)
    (readable : Readable n names output) (count : Nat) {rows : List String}
    (whole : ∀ row ∈ rows, '\n' ∉ row.toList) :
    ofString (joinLines (rowsFrom form n names output count rows last)) = (do
      (← (headed n names output).readFrom (if 0 < n then 7 else 6)
        (rows.map (fun row => .ok row.toList) ++ [.ok last.toList, .ok []])).finish) := by
  rw [ofString, linesOfString_joinLines (lines_rowsFrom word ending.word readable count whole),
    rowsFrom, headerLines_eq, ofLines]
  simp only [List.map_append, List.map_map, List.append_assoc]
  have run := readFrom_directives 1 (isDirective_head word readable count)
    (directives_head readable form count)
    (rows.map (fun row => .ok row.toList) ++ [.ok last.toList, .ok []])
  have number : 1 + (head form n names output count).length = if 0 < n then 7 else 6 := by
    rw [length_head]
    split <;> rfl
  rw [number] at run
  exact congrArg (· >>= Draft.finish) run

theorem newline_rowLine (known : rowKind? mark = some kind) (n : Nat) (c : Cube) :
    '\n' ∉ (rowLine n mark c).toList := by
  intro newline
  rcases mem_rowLine newline with ⟨polarity, same⟩ | space | same
  · exact absurd (plain_inputCharacter polarity).1 (same ▸ by decide)
  · exact absurd space (by decide)
  · exact absurd (plain_of_rowKind known).1 (same ▸ by decide)

theorem newline_rows (n : Nat) (on off : List Cube) :
    ∀ row ∈ on.map (rowLine n '1') ++ off.map (rowLine n '0'), '\n' ∉ row.toList := by
  intro row member
  rcases List.mem_append.1 member with member | member
  · obtain ⟨c, _, rfl⟩ := List.mem_map.1 member
    exact newline_rowLine (rfl : rowKind? '1' = some .on) n c
  · obtain ⟨c, _, rfl⟩ := List.mem_map.1 member
    exact newline_rowLine (rfl : rowKind? '0' = some .off) n c

theorem size_of_mem_fills {m : Minterm} (member : m ∈ cubes.flatMap fun c => fill (c.inputs n)) :
    m.1.size = n := by
  obtain ⟨c, _, filled⟩ := List.mem_flatMap.1 member
  rw [size_of_mem_fill filled, Cube.length_inputs]

/-- Written rows read as the minterms in their cubes, as long as no cube leaves too much open. -/
theorem ofString_written {form last : String} (word : IsWord form) (ending : IsEnd last)
    (readable : Readable n names output) (count : Nat) (fewOn : ∀ c ∈ on, c.freeIn n ≤ maxFree)
    (fewOff : ∀ c ∈ off, c.freeIn n ≤ maxFree) :
    ∃ t, ofString (joinLines (rowsFrom form n names output count
        (on.map (rowLine n '1') ++ off.map (rowLine n '0')) last)) = .ok t ∧
      t.arity = n ∧ t.names = names ∧ t.output = output ∧
      t.onset.minterms = on.flatMap (fun c => (fill (c.inputs n)).map (·.1)) ∧
      t.offset.minterms = off.flatMap (fun c => (fill (c.inputs n)).map (·.1)) := by
  let onset := on.flatMap fun c => fill (c.inputs n)
  let offset := off.flatMap fun c => fill (c.inputs n)
  let draft := ((headed n names output).add onset .on).add offset .off
  have onRows : draft.onset.toList = onset := by simp [draft, Draft.add, headed]
  have offRows : draft.offset.toList = offset := by simp [draft, Draft.add, headed]
  have read (number : Nat) : (headed n names output).readFrom number
      (on.map (fun c => .ok (rowLine n '1' c).toList) ++
        (off.map (fun c => .ok (rowLine n '0' c).toList) ++ [.ok last.toList, .ok []])) =
      .ok draft := by
    rw [readFrom_rows rfl (rfl : rowKind? '1' = some .on) fewOn,
      readFrom_rows rfl (rfl : rowKind? '0' = some .off) fewOff, readFrom_last ending]
  obtain ⟨t, finished, arity, sameNames, sameOutput, minterms, minterms'⟩ :=
    finish_of_size (rfl : draft.width = some n) (finalNames_headed readable)
      (by rw [onRows]; exact fun m => size_of_mem_fills)
      (by rw [offRows]; exact fun m => size_of_mem_fills)
  refine ⟨t, ?_, arity, sameNames, sameOutput, ?_, ?_⟩
  · rw [ofString_rowsFrom word ending readable count (newline_rows n on off), List.map_append,
      List.map_map, List.map_map, List.append_assoc]
    exact (congrArg (· >>= Draft.finish) (read _)).trans finished
  · rw [minterms, onRows, List.map_flatMap]
  · rw [minterms', offRows, List.map_flatMap]

theorem ofString_written_of_many {form last : String} (word : IsWord form) (ending : IsEnd last)
    (readable : Readable n names output) (count : Nat) (few : ∀ d ∈ before, d.freeIn n ≤ maxFree)
    (many : maxFree < c.freeIn n) :
    ofString (joinLines (rowsFrom form n names output count
        ((before ++ c :: after).map (rowLine n '1') ++ off.map (rowLine n '0')) last)) =
      .error (.malformed (.tooManyFree (7 + before.length) (c.freeIn n) maxFree)) := by
  have positive : 0 < n := Nat.lt_of_lt_of_le (Nat.zero_lt_of_lt many) (Cube.freeIn_le c n)
  rw [ofString_rowsFrom word ending readable count (newline_rows n _ off), List.map_append,
    List.map_map, List.map_map, List.append_assoc, if_pos positive]
  have run := readFrom_rows_of_many 7 (rfl : (headed n names output).width = some n)
    (rfl : rowKind? '1' = some .on) (by decide) few many after
    (off.map (fun c => .ok (rowLine n '0' c).toList) ++ [.ok last.toList, .ok []])
  exact congrArg (· >>= Draft.finish) run

end TwoLevel.Table
