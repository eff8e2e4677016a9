import TwoLevel.Proofs.Reader

/-!
What a text means that the reader accepts. Its rows are the lines before the end of the table that
are neither blank nor a comment nor a directive; a row is a pattern of inputs and a mark for the
output. The onset and the offset are the minterms that the patterns with their marks match, in the
order of the rows, whatever directives stand between them and wherever the width was learned.
-/

namespace TwoLevel

namespace Text

variable {α : Type}

theorem flatten_fields (cut : α → Bool) (s : List α) :
    (fields cut s).flatten = s.filter (!cut ·) := by
  rw [fields, List.flatten_filter_not_isEmpty]
  induction s with
  | nil => rfl
  | cons a s ih =>
      change (cutBefore cut a (pieces cut s)).flatten = _
      rw [List.filter_cons]
      cases ends : cut a <;> cases parts : pieces cut s <;> rw [parts] at ih <;>
        simp_all [cutBefore]

theorem head?_head?_fields (cut : α → Bool) (s : List α) :
    (fields cut s).head?.bind List.head? = s.find? (!cut ·) := by
  induction s with
  | nil => rfl
  | cons a s ih =>
      cases ends : cut a with
      | true =>
          rw [fields_cons_cut ends, ih, List.find?_cons_of_neg (by simp [ends])]
      | false =>
          have extended : ∃ piece rest, pieces cut (a :: s) = (a :: piece) :: rest := by
            change ∃ piece rest, cutBefore cut a (pieces cut s) = (a :: piece) :: rest
            cases pieces cut s with
            | nil => exact ⟨[], [], by simp [cutBefore, ends]⟩
            | cons piece rest => exact ⟨piece, rest, by simp [cutBefore, ends]⟩
          obtain ⟨piece, rest, first⟩ := extended
          rw [List.find?_cons_of_pos (by simp [ends]), fields, first,
            List.filter_cons_of_pos (by simp)]
          rfl

end Text

namespace Table

open Text

variable {draft next last : Draft} {number n : Nat} {t : Table} {line : List Char}
  {lines rows : List (List Char)} {values : List Bool} {inputs : List (Option Bool)} {mark : Char}
  {kind : RowKind}

/-! ## Rows of a text -/

/-- The lines of a text before the one that ends the table. -/
def body (lines : List (List Char)) : List (List Char) :=
  lines.takeWhile fun line => !endsTable (words line)

/-- The first character of a row that is not blank starts no comment and no directive. -/
def isRow (line : List Char) : Bool :=
  match line.find? (!isBlank ·) with
  | none | some '#' | some '.' => false
  | some _ => true

def packed (line : List Char) : List Char := line.filter (!isGap ·)

/-- The rows among the lines of a table, without the gaps: the inputs, then the output. -/
def packedRows (lines : List (List Char)) : List (List Char) := ((body lines).filter isRow).map packed

def rowsOfText (text : String) : List (List Char) := packedRows (pieces (· == '\n') text.toList)

def onMarks : List Char := ['1', '4']

def offMarks : List Char := ['0', '3']

def dontCareMarks : List Char := ['-', '~', '2']

/-- The inputs of the rows whose output is one of the marks. -/
def patterns (marks : List Char) (rows : List (List Char)) : List (List Char) :=
  (rows.filter fun row => row.getLast?.any marks.contains).map List.dropLast

/-- What an input character lets the value of its variable be. -/
def allows : Char → Bool → Bool
  | '0', value => !value
  | '1', value => value
  | '-', _ | '~', _ | 'x', _ | 'X', _ => true
  | _, _ => false

def isFree (c : Char) : Bool := c ∈ ['-', '~', 'x', 'X']

/-- There is one value for each input, and each input allows its value. -/
def suits : List Char → List Bool → Bool
  | [], [] => true
  | c :: pattern, value :: values => allows c value && suits pattern values
  | _, _ => false

/-- The minterms come from the patterns in turn: from each one those that it matches, once. -/
def Spelled (n : Nat) (patterns : List (List Char)) (minterms : List Cube) : Prop :=
  ∃ parts : List (List Cube), minterms = parts.flatten ∧
    List.Forall₂ (fun pattern part => part.Nodup ∧ ∀ m, m ∈ part ↔
      ∃ values, values.length = n ∧ suits pattern values = true ∧ m = .ofBits values) patterns parts

theorem patterns_concat (marks pattern : List Char) (rows : List (List Char)) (mark : Char) :
    patterns marks (rows ++ [pattern ++ [mark]]) =
      patterns marks rows ++ if mark ∈ marks then [pattern] else [] := by
  rw [patterns, List.filter_append, List.map_append]
  congr 1
  by_cases marked : mark ∈ marks <;> simp [marked]

/-! ## Characters -/

def inputOf (c : Char) : Option Bool := (input? c).getD none

theorem readInputs_eq_ok {position : Nat} {pattern : List Char}
    (read : readInputs number position pattern = .ok inputs) :
    inputs = pattern.map inputOf ∧ ∀ c ∈ pattern, (input? c).isSome = true := by
  induction pattern generalizing position inputs with
  | nil =>
      cases read
      exact ⟨rfl, by simp⟩
  | cons c pattern ih =>
      rw [readInputs] at read
      cases known : input? c with
      | none => simp [known] at read
      | some input =>
          cases later : readInputs number (position + 1) pattern with
          | error fault => simp [known, later, bind, Except.bind] at read
          | ok rest =>
              simp only [known, later, bind, Except.bind, pure, Except.pure, Except.ok.injEq] at read
              obtain ⟨same, inner⟩ := ih later
              rw [← read, same, List.map_cons, inputOf, known]
              exact ⟨rfl, List.forall_mem_cons.2 ⟨by rw [known]; rfl, inner⟩⟩

theorem readOutput_eq_ok {outputs : List Char} (read : readOutput number outputs = .ok kind) :
    ∃ mark, outputs = [mark] ∧ rowKind? mark = some kind := by
  unfold readOutput at read
  split at read
  · rename_i mark
    cases known : rowKind? mark with
    | none => simp [known] at read
    | some other =>
        rw [known] at read
        exact ⟨mark, rfl, known.trans (congrArg some (Except.ok.inj read))⟩
  · cases read

theorem mem_onMarks : mark ∈ onMarks ↔ rowKind? mark = some .on := by
  unfold rowKind?
  split <;> simp_all [onMarks]

theorem mem_offMarks : mark ∈ offMarks ↔ rowKind? mark = some .off := by
  unfold rowKind?
  split <;> simp_all [offMarks]

theorem mem_dontCareMarks : mark ∈ dontCareMarks ↔ rowKind? mark = some .dontCare := by
  unfold rowKind?
  split <;> simp_all [dontCareMarks]

theorem isNone_inputOf {c : Char} (known : (input? c).isSome = true) :
    (inputOf c).isNone = isFree c := by
  unfold inputOf input? at *
  split at known <;> simp_all [isFree]

theorem all_inputOf {c : Char} (known : (input? c).isSome = true) (value : Bool) :
    (inputOf c).all (· == value) = allows c value := by
  unfold inputOf input? at *
  split at known <;> simp_all [allows]

theorem fits_inputs {pattern : List Char} (known : ∀ c ∈ pattern, (input? c).isSome = true)
    (values : List Bool) : fits (pattern.map inputOf) values = suits pattern values := by
  induction pattern generalizing values with
  | nil => cases values <;> rfl
  | cons c pattern ih =>
      obtain ⟨here, later⟩ := List.forall_mem_cons.1 known
      cases values with
      | nil => rfl
      | cons value values => rw [List.map_cons, fits, suits, all_inputOf here, ih later]

theorem countP_inputs {pattern : List Char} (known : ∀ c ∈ pattern, (input? c).isSome = true) :
    (pattern.map inputOf).countP (·.isNone) = pattern.countP isFree := by
  rw [List.countP_map]
  exact List.countP_congr fun c member => by
    rw [Function.comp_apply, isNone_inputOf (known c member)]

/-! ## The minterms of a pattern -/

def mintermsOf (pattern : List Char) : List Minterm := fill (pattern.map inputOf)

theorem mem_fill {m : Cube} : m ∈ (fill inputs).map (·.1) ↔
    ∃ values, fits inputs values = true ∧ m = .ofBits values := by
  have literals : m ∈ (fill inputs).map (·.1) ↔ m.literals ∈ fillings 0 inputs := by
    rw [← literals_fill]
    constructor
    · intro member
      obtain ⟨minterm, filled, rfl⟩ := List.mem_map.1 member
      exact List.mem_map_of_mem filled
    · intro member
      obtain ⟨minterm, filled, same⟩ := List.mem_map.1 member
      exact List.mem_map.2 ⟨minterm, filled, Cube.eq_of_literals same⟩
  rw [literals, mem_fillings_iff]
  refine exists_congr fun values => and_congr_right fun _ => ?_
  exact ⟨fun same => Cube.eq_of_literals same, fun same => congrArg Cube.literals same⟩

theorem nodup_fill (inputs : List (Option Bool)) : ((fill inputs).map (·.1)).Nodup := by
  rw [List.nodup_iff_count_le_one]
  intro m
  by_cases member : m ∈ (fill inputs).map (·.1)
  · obtain ⟨values, fit, rfl⟩ := mem_fill.1 member
    rw [count_fill, if_pos fit]
  · rw [List.count_eq_zero_of_not_mem member]
    exact Nat.zero_le 1

theorem length_of_suits {pattern : List Char} (suit : suits pattern values = true) :
    values.length = pattern.length := by
  induction pattern generalizing values with
  | nil => cases values <;> simp_all [suits]
  | cons c pattern ih =>
      cases values with
      | nil => simp [suits] at suit
      | cons value values =>
          rw [suits, Bool.and_eq_true] at suit
          rw [List.length_cons, List.length_cons, ih suit.2]

theorem mem_mintermsOf {pattern : List Char} (known : ∀ c ∈ pattern, (input? c).isSome = true)
    {m : Cube} : m ∈ (mintermsOf pattern).map (·.1) ↔
      ∃ values, values.length = pattern.length ∧ suits pattern values = true ∧ m = .ofBits values := by
  rw [mintermsOf, mem_fill]
  simp only [fits_inputs known]
  refine exists_congr fun values => ⟨?_, And.right⟩
  rintro ⟨suit, same⟩
  exact ⟨length_of_suits suit, suit, same⟩

theorem count_mintermsOf {pattern : List Char} (known : ∀ c ∈ pattern, (input? c).isSome = true)
    (values : List Bool) : ((mintermsOf pattern).map (·.1)).count (.ofBits values) =
      if suits pattern values = true then 1 else 0 := by
  rw [mintermsOf, count_fill, fits_inputs known]

/-! ## What the reader keeps of the rows -/

/-- A row that the reader accepts: inputs, then a mark, and few open inputs where the row counts. -/
structure Accepted (row : List Char) : Prop where
  parts : ∃ pattern mark kind, row = pattern ++ [mark] ∧ rowKind? mark = some kind ∧
    (∀ c ∈ pattern, (input? c).isSome = true) ∧
    (kind = .dontCare ∨ pattern.countP isFree ≤ maxFree)

/-- A draft after some rows: what they stand for is all that it holds. -/
structure Draft.Holds (rows : List (List Char)) (draft : Draft) : Prop where
  onset : draft.onset.toList = (patterns onMarks rows).flatMap mintermsOf
  offset : draft.offset.toList = (patterns offMarks rows).flatMap mintermsOf
  accepted : ∀ row ∈ rows, Accepted row

theorem Draft.Holds.start : Draft.Holds [] {} := ⟨rfl, rfl, by simp⟩

theorem packed_of_splitRow {width : Option Nat} {pattern outputs : List Char}
    (split : splitRow number width row = .ok (pattern, outputs)) :
    packed row = pattern ++ outputs := by
  unfold splitRow at split
  split at split
  · rename_i width
    dsimp only at split
    split at split
    · split at split
      · cases split
        exact (List.take_append_drop width _).symm
      · cases split
    · cases split
  · split at split
    · rename_i first second parts
      cases split
      rw [packed, ← flatten_fields, parts]
      simp
    · cases split
    · cases split
    · cases split

theorem Draft.Holds.row (holds : draft.Holds rows) (read : draft.row number line = .ok next) :
    next.Holds (rows ++ [packed line]) := by
  obtain ⟨pattern, outputs, values, kind, parts, set, output, few, rfl⟩ := row_eq_ok read
  obtain ⟨rfl, known⟩ := readInputs_eq_ok set
  obtain ⟨mark, rfl, marked⟩ := readOutput_eq_ok output
  rw [packed_of_splitRow parts]
  rw [countP_inputs known] at few
  have onset := holds.onset
  have offset := holds.offset
  constructor
  · simp only [patterns_concat, mem_onMarks, marked]
    cases kind <;> simp [Draft.add, onset, mintermsOf]
  · simp only [patterns_concat, mem_offMarks, marked]
    cases kind <;> simp [Draft.add, offset, mintermsOf]
  · intro row member
    rcases List.mem_append.1 member with old | new
    · exact holds.accepted row old
    · rw [List.mem_singleton.1 new]
      exact ⟨pattern, mark, kind, rfl, marked, known, few⟩

theorem Draft.Holds.of_same (holds : draft.Holds rows) (onset : next.onset = draft.onset)
    (offset : next.offset = draft.offset) : next.Holds rows :=
  ⟨onset ▸ holds.onset, offset ▸ holds.offset, holds.accepted⟩

theorem find?_of_head?_words {word : String} (first : (words line).head? = some word) :
    line.find? (!isBlank ·) = word.toList.head? := by
  rw [words, List.head?_map, Option.map_eq_some_iff] at first
  obtain ⟨field, same, rfl⟩ := first
  rw [← head?_head?_fields, same, Option.bind_some, String.toList_ofList]

theorem find?_of_endsTable (ends : endsTable (words line) = true) :
    line.find? (!isBlank ·) = some '.' := by
  rw [endsTable, Bool.or_eq_true, beq_iff_eq, beq_iff_eq] at ends
  rcases ends with first | first
  · exact (find?_of_head?_words first).trans rfl
  · exact (find?_of_head?_words first).trans rfl

theorem line_of_endsTable (ends : endsTable (words line) = true) :
    draft.line number line = .ok none := by
  rw [line_directive (find?_of_endsTable ends), if_pos ends]

theorem isRow_of_find? {c : Char} (first : line.find? (!isBlank ·) = some c) (hash : c ≠ '#')
    (dot : c ≠ '.') : isRow line = true := by
  unfold isRow
  rw [first]
  split <;> simp_all

/-- What a line can do: end the table, leave the rows as they are, or be a row. -/
theorem line_cases {result : Option Draft} (read : draft.line number line = .ok result) :
    (endsTable (words line) = true ∧ result = none) ∨
    (endsTable (words line) = false ∧ ∃ next, result = some next ∧
      ((isRow line = false ∧ next.onset = draft.onset ∧ next.offset = draft.offset) ∨
        (isRow line = true ∧ draft.row number line = .ok next))) := by
  have goesOn (other : line.find? (!isBlank ·) ≠ some '.') : endsTable (words line) = false := by
    rw [← Bool.not_eq_true]
    exact fun ends => other (find?_of_endsTable ends)
  cases first : line.find? (!isBlank ·) with
  | none =>
      rw [line_blank first] at read
      cases read
      exact .inr ⟨goesOn (by simp [first]), draft, rfl, .inl ⟨by simp [isRow, first], rfl, rfl⟩⟩
  | some c =>
      by_cases hash : c = '#'
      · subst hash
        rw [line_comment first] at read
        cases read
        exact .inr ⟨goesOn (by simp [first]), draft, rfl, .inl ⟨by simp [isRow, first], rfl, rfl⟩⟩
      by_cases point : c = '.'
      · subst point
        rw [line_directive first] at read
        split at read
        · rename_i ends
          cases read
          exact .inl ⟨ends, rfl⟩
        · rename_i goes
          cases step : draft.directive (words line) with
          | error fault =>
              rw [step] at read
              cases read
          | ok next =>
              rw [step] at read
              cases read
              refine .inr ⟨by simpa using goes, next, rfl, .inl ⟨by simp [isRow, first], ?_⟩⟩
              rcases directive_eq_ok step with rfl | ⟨width, rfl⟩ | ⟨keyword, names, _, rfl⟩ |
                ⟨keyword, names, _, rfl⟩ <;> exact ⟨rfl, rfl⟩
      · rw [line_row first hash point] at read
        cases step : draft.row number line with
        | error fault =>
            rw [step] at read
            cases read
        | ok next =>
            rw [step] at read
            cases read
            exact .inr ⟨goesOn (by simpa [first] using point), next, rfl,
              .inr ⟨isRow_of_find? first hash point, rfl⟩⟩

theorem packedRows_cons (line : List Char) (lines : List (List Char)) :
    packedRows (line :: lines) =
      if endsTable (words line) then []
      else (if isRow line then [packed line] else []) ++ packedRows lines := by
  unfold packedRows body
  cases ends : endsTable (words line) <;> cases row : isRow line <;> simp [ends, row]

/-- A run adds the rows of the lines up to the end of the table. -/
theorem Draft.Holds.readFrom (holds : draft.Holds rows)
    (read : draft.readFrom number (lines.map .ok) = .ok last) :
    last.Holds (rows ++ packedRows lines) := by
  induction lines generalizing draft number rows with
  | nil =>
      cases read
      rw [packedRows, body, List.takeWhile_nil, List.filter_nil, List.map_nil, List.append_nil]
      exact holds
  | cons line lines ih =>
      rw [List.map_cons, readFrom_cons] at read
      cases step : draft.line number line with
      | error fault => simp [step] at read
      | ok result =>
          rw [packedRows_cons]
          rcases line_cases step with ⟨ends, rfl⟩ | ⟨goes, next, rfl, outcome⟩
          · rw [step] at read
            cases read
            rw [if_pos ends, List.append_nil]
            exact holds
          · rw [step] at read
            rw [goes, if_neg Bool.false_ne_true, ← List.append_assoc]
            apply ih _ read
            rcases outcome with ⟨other, onset, offset⟩ | ⟨row, here⟩
            · rw [other, if_neg Bool.false_ne_true, List.append_nil]
              exact holds.of_same onset offset
            · rw [if_pos row]
              exact holds.row here

/-! ## Accepted texts -/

/-- One side of a table: what the rows with some marks say. -/
structure Side (n : Nat) (marks : List Char) (rows : List (List Char)) (minterms : List Cube) :
    Prop where
  /-- Each minterm is there as often as there are rows that match it. -/
  count : ∀ values : List Bool, values.length = n →
    minterms.count (.ofBits values) = (patterns marks rows).countP (suits · values)
  inOrder : Spelled n (patterns marks rows) minterms
  complete : ∀ m ∈ minterms, m.IsMinterm n
  narrow : ∀ pattern ∈ patterns marks rows, pattern.length = n ∧ pattern.countP isFree ≤ 16

structure Meaning (rows : List (List Char)) (t : Table) : Prop where
  onset : Side t.arity onMarks rows t.onset.minterms
  offset : Side t.arity offMarks rows t.offset.minterms
  /-- Rows with any other mark count for neither side. -/
  marked : ∀ row ∈ rows, ∃ mark ∈ onMarks ++ offMarks ++ dontCareMarks, row.getLast? = some mark
  names : t.names.size = t.arity

theorem suits_ones {pattern : List Char} (known : ∀ c ∈ pattern, (input? c).isSome = true) :
    suits pattern (pattern.map (· == '1')) = true := by
  induction pattern with
  | nil => rfl
  | cons c pattern ih =>
      obtain ⟨here, later⟩ := List.forall_mem_cons.1 known
      have one : allows c (c == '1') = true := by
        unfold input? at here
        split at here <;> simp_all [allows]
      rw [List.map_cons, suits, one, ih later]
      rfl

theorem known_of_mem_patterns {marks pattern : List Char}
    (accepted : ∀ row ∈ rows, Accepted row) (counts : ∀ mark ∈ marks, mark ∉ dontCareMarks)
    (member : pattern ∈ patterns marks rows) :
    (∀ c ∈ pattern, (input? c).isSome = true) ∧ pattern.countP isFree ≤ maxFree := by
  obtain ⟨row, kept, rfl⟩ := List.mem_map.1 member
  obtain ⟨inside, marked⟩ := List.mem_filter.1 kept
  obtain ⟨pattern, mark, kind, rfl, known, inputs, few⟩ := (accepted row inside).parts
  rw [List.dropLast_concat]
  refine ⟨inputs, few.resolve_left ?_⟩
  rintro rfl
  exact counts mark (by simpa using marked) (mem_dontCareMarks.2 known)

theorem length_of_spelled {pattern : List Char} {minterms : List Cube}
    (known : ∀ c ∈ pattern, (input? c).isSome = true)
    (inside : ∀ m ∈ (mintermsOf pattern).map (·.1), m ∈ minterms)
    (complete : ∀ m ∈ minterms, m.IsMinterm n) : pattern.length = n := by
  have length : (pattern.map (· == '1')).length = pattern.length := List.length_map ..
  have first : Cube.ofBits (pattern.map (· == '1')) ∈ (mintermsOf pattern).map (·.1) :=
    (mem_mintermsOf known).2 ⟨_, length, suits_ones known, rfl⟩
  have size := (complete _ (inside _ first)).1
  rw [Cube.size, Cube.ofBits, Cube.length_literalsFrom, length] at size
  exact size

theorem side_of_minterms {marks : List Char} {minterms : List Cube}
    (accepted : ∀ row ∈ rows, Accepted row) (counts : ∀ mark ∈ marks, mark ∉ dontCareMarks)
    (same : minterms = (patterns marks rows).flatMap fun pattern => (mintermsOf pattern).map (·.1))
    (complete : ∀ m ∈ minterms, m.IsMinterm n) : Side n marks rows minterms := by
  have known : ∀ pattern ∈ patterns marks rows, ∀ c ∈ pattern, (input? c).isSome = true :=
    fun pattern member => (known_of_mem_patterns accepted counts member).1
  have width : ∀ pattern ∈ patterns marks rows, pattern.length = n := by
    intro pattern member
    apply length_of_spelled (known pattern member) _ complete
    intro m spelled
    rw [same]
    exact List.mem_flatMap.2 ⟨pattern, member, spelled⟩
  constructor
  · intro values _
    rw [same]
    exact count_flatMap_once fun pattern member => count_mintermsOf (known pattern member) values
  · refine ⟨(patterns marks rows).map fun pattern => (mintermsOf pattern).map (·.1), ?_, ?_⟩
    · rw [same, List.flatMap_def]
    · rw [List.forall₂_map_right_iff, List.forall₂_same]
      intro pattern member
      refine ⟨nodup_fill _, fun m => ?_⟩
      rw [mem_mintermsOf (known pattern member), width pattern member]
  · exact complete
  · exact fun pattern member =>
      ⟨width pattern member, (known_of_mem_patterns accepted counts member).2⟩

/-- A text that is accepted means what its rows say: each side has every minterm as often as rows
with its marks match it, in the order of the rows, over as many variables as there are names; no row
that counts leaves more than 16 inputs open. -/
theorem meaning_of_ofString (text : String) (t : Table) (read : ofString text = .ok t) :
    Meaning (rowsOfText text) t := by
  obtain ⟨draft, run, finished⟩ := ofString_eq_ok.1 read
  have holds : draft.Holds (rowsOfText text) := Draft.Holds.start.readFrom run
  obtain ⟨_, named, _, onset, offset⟩ := finish_eq_ok finished
  have completeOff : ∀ m ∈ t.offset.minterms, m.IsMinterm t.arity := by
    rw [Table.arity, t.sameVariables]
    exact t.offset.complete
  constructor
  · apply side_of_minterms holds.accepted (by simp [onMarks, dontCareMarks]) _ t.onset.complete
    rw [onset, holds.onset, List.map_flatMap]
  · apply side_of_minterms holds.accepted (by simp [offMarks, dontCareMarks]) _ completeOff
    rw [offset, holds.offset, List.map_flatMap]
  · intro row member
    obtain ⟨pattern, mark, kind, rfl, known, _⟩ := (holds.accepted row member).parts
    refine ⟨mark, ?_, List.getLast?_concat⟩
    rw [List.mem_append, List.mem_append, mem_onMarks, mem_offMarks, mem_dontCareMarks, known]
    cases kind <;> simp
  · exact size_of_finalNames named

/-- The first row sets the width, a directive says it again, a row has a bar and another a gap. -/
theorem meaning_of_ofString_mixed :
    ∃ t, ofString "# on\n-1|1\n.i 2\n0 0 -\n1 1 4\n00 3\n.e\n11 1\n" = .ok t ∧
      t.onset.minterms.count (.ofBits [true, true]) = 2 ∧
      t.offset.minterms.count (.ofBits [false, false]) = 1 := by
  have accepted : ((ofString "# on\n-1|1\n.i 2\n0 0 -\n1 1 4\n00 3\n.e\n11 1\n").toOption.map
      (·.arity)) = some 2 := by decide +kernel
  cases read : ofString "# on\n-1|1\n.i 2\n0 0 -\n1 1 4\n00 3\n.e\n11 1\n" with
  | error fault =>
      rw [read] at accepted
      cases accepted
  | ok t =>
      rw [read] at accepted
      have arity : t.arity = 2 := Option.some.inj accepted
      have meaning := meaning_of_ofString _ t read
      have rows : rowsOfText "# on\n-1|1\n.i 2\n0 0 -\n1 1 4\n00 3\n.e\n11 1\n" =
        ["-11", "00-", "114", "003"].map String.toList := by decide +kernel
      rw [rows] at meaning
      refine ⟨t, rfl, ?_, ?_⟩
      · exact (meaning.onset.count [true, true] arity.symm).trans (by decide)
      · exact (meaning.offset.count [false, false] arity.symm).trans (by decide)

end Table

end TwoLevel
