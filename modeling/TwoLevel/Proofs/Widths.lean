import TwoLevel.Proofs.Layout
import TwoLevel.Proofs.Written

/-!
Where the number of variables of a table comes from: a directive declares it, or else the first row
tells it. A declaration of what the first row tells changes nothing. Rows over another number of
variables than the table are found only where a directive stands behind rows that count and
declares another number. The reader breaks off only where the greatest number is declared.
-/

namespace TwoLevel.Table

open Text

variable {draft next last : Draft} {number n width : Nat} {line : List Char}
  {lines : List (List Char)} {inputs outputs : List Char}

/-! ## Runs over lines that do not end the table -/

/-- What a run over lines makes of a draft. Which numbers the lines have makes no difference, since
none of them is refused. -/
inductive Reads : Draft → List (List Char) → Draft → Prop
  | done {draft : Draft} : Reads draft [] draft
  | line {draft next last : Draft} {number : Nat} {line : List Char} {rest : List (List Char)}
      (step : draft.line number line = .ok (some next)) (later : Reads next rest last) :
      Reads draft (line :: rest) last

theorem line_ok_renumber {result : Option Draft} (step : draft.line number line = .ok result)
    (number' : Nat) : draft.line number' line = .ok result := by
  rw [← line_renumber (fun _ => number') draft number line, step]
  rfl

theorem readFrom_eq_ok :
    draft.readFrom number (lines.map .ok) = .ok last ↔ Reads draft (body lines) last := by
  induction lines generalizing draft number with
  | nil =>
      constructor
      · rintro ⟨⟩
        exact .done
      · rintro ⟨⟩
        rfl
  | cons line rest ih =>
      rw [List.map_cons, readFrom_cons, body, List.takeWhile_cons]
      cases ends : endsTable (words line) with
      | true =>
          rw [line_of_endsTable ends]
          constructor
          · rintro ⟨⟩
            exact .done
          · rintro ⟨⟩
            rfl
      | false =>
          change _ ↔ Reads draft (line :: body rest) last
          constructor
          · intro read
            cases step : draft.line number line with
            | error fault => simp [step] at read
            | ok result =>
                rcases line_cases step with ⟨last, -⟩ | ⟨-, next, rfl, -⟩
                · simp [ends] at last
                · simp only [step] at read
                  exact .line step (ih.1 read)
          · rintro (_ | ⟨step, later⟩)
            rw [line_ok_renumber step number]
            exact ih.2 later

theorem Reads.append {before after : List (List Char)} (run : Reads draft before next)
    (more : Reads next after last) : Reads draft (before ++ after) last := by
  induction run with
  | done => exact more
  | line step _ ih => exact .line step (ih more)

theorem body_of_reads (run : Reads draft lines last) : body lines = lines := by
  induction run with
  | done => rfl
  | @line draft next last number line rest step later ih =>
      have goes : endsTable (words line) = false := by
        rcases line_cases step with ⟨-, none⟩ | ⟨goes, -⟩
        · cases none
        · exact goes
      rw [body, List.takeWhile_cons, goes]
      exact congrArg (line :: ·) ih

/-! ## Directives for the number of variables -/

def declares (line : List Char) : Bool := (words line).head? == some ".i"

/-- The number of variables that a line declares. -/
def declared? (line : List Char) : Option Nat :=
  if declares line then (words line)[1]?.bind fun word => Number.count? word.toList else none

theorem readCount_eq_ok {directive : String} {value : Option String}
    (read : readCount directive value = .ok n) :
    value.bind (fun word => Number.count? word.toList) = some n := by
  unfold readCount at read
  split at read
  · rename_i count same
    rw [same, Except.ok.inj read]
  · cases read

theorem line_of_declares (declared : declares line = true)
    (step : draft.line number line = .ok (some next)) :
    ∃ n, declared? line = some n ∧ next = { draft with width := some n } := by
  have head : (words line).head? = some ".i" := eq_of_beq declared
  obtain ⟨rest, parts⟩ := List.head?_eq_some_iff.1 head
  rw [line_directive (find?_of_head?_words head), parts] at step
  have read := ok_of_map_some step
  rw [Draft.directive] at read
  cases count : readCount ".i" rest.head? with
  | error fault => simp [count, bind, Except.bind] at read
  | ok n =>
      rw [count] at read
      refine ⟨n, ?_, (Except.ok.inj read).symm⟩
      rw [declared?, if_pos declared, parts, List.getElem?_cons_succ, ← List.head?_eq_getElem?]
      exact readCount_eq_ok count

theorem directive_widened {list : List String} (quiet : list.head? ≠ some ".i") (draft : Draft)
    (width : Option Nat) : Draft.directive { draft with width := width } list =
      (draft.directive list).map fun next => { next with width := width } := by
  unfold Draft.directive
  split
  · exact absurd rfl quiet
  · rename_i rest
    cases readCount ".o" rest.head? with
    | error fault => rfl
    | ok count =>
        change (if count = 1 then _ else _) = Except.map _ (if count = 1 then _ else _)
        split <;> rfl
  · split <;> rfl
  · split <;> rfl
  · rfl

/-- Lines that are no rows and declare no width do not look at it. -/
theorem line_widened (quiet : declares line = false) (other : isRow line = false) (draft : Draft)
    (number : Nat) (width : Option Nat) : Draft.line { draft with width := width } number line =
      (draft.line number line).map (·.map fun next => { next with width := width }) := by
  have head : (words line).head? ≠ some ".i" := by simpa [declares] using quiet
  cases first : line.find? (!isBlank ·) with
  | none =>
      rw [line_blank first, line_blank first]
      rfl
  | some c =>
      by_cases hash : c = '#'
      · rw [line_comment (hash ▸ first), line_comment (hash ▸ first)]
        rfl
      by_cases dot : c = '.'
      · rw [line_directive (dot ▸ first), line_directive (dot ▸ first), directive_widened head]
        split
        · rfl
        · cases draft.directive (words line) <;> rfl
      · rw [isRow_of_find? first hash dot] at other
        cases other

theorem width_of_other (quiet : declares line = false) (other : isRow line = false)
    (step : draft.line number line = .ok (some next)) : next.width = draft.width := by
  have same := line_widened quiet other draft number draft.width
  rw [step] at same
  have next_eq : next = { next with width := draft.width } :=
    Option.some.inj (Except.ok.inj same)
  have widths := congrArg Draft.width next_eq
  exact widths

/-! ## Rows -/

/-- A row with one output is cut behind its inputs, however many these are. -/
theorem splitRow_known {mark : Char} (split : splitRow number none line = .ok (inputs, [mark])) :
    splitRow number (some inputs.length) line = .ok (inputs, [mark]) := by
  have together := packed_of_splitRow split
  unfold packed at together
  simp only [splitRow, together, List.length_append, List.length_singleton, Nat.le_add_right,
    if_true, List.take_left, List.drop_left]

theorem length_of_splitRow (split : splitRow number (some width) line = .ok (inputs, outputs)) :
    inputs.length = width := by
  simp only [splitRow] at split
  split at split
  · split at split
    · rename_i long
      cases split
      rw [List.length_take]
      exact Nat.min_eq_left long
    · cases split
  · cases split

/-- What a row says: its inputs, as many as the table has variables, then a mark. -/
theorem row_parts (read : draft.row number line = .ok next) : ∃ inputs mark kind,
    packed line = inputs ++ [mark] ∧ rowKind? mark = some kind ∧
      (∀ width, draft.width = some width → inputs.length = width) ∧
      next = Draft.add { draft with width := some inputs.length } (mintermsOf inputs) kind := by
  obtain ⟨inputs, outputs, values, kind, parts, set, output, few, rfl⟩ := row_eq_ok read
  obtain ⟨rfl, -⟩ := readInputs_eq_ok set
  obtain ⟨mark, rfl, marked⟩ := readOutput_eq_ok output
  have known : ∀ width, draft.width = some width → inputs.length = width := by
    intro width known
    rw [known] at parts
    exact length_of_splitRow parts
  have wide : draft.width.or (some inputs.length) = some inputs.length := by
    cases before : draft.width with
    | none => rfl
    | some width => rw [known width before, Option.some_or]
  refine ⟨inputs, mark, kind, packed_of_splitRow parts, marked, known, ?_⟩
  rw [wide, mintermsOf]

/-- A row reads the same whether it tells the width or the width was known before. -/
theorem row_known (read : draft.row number line = .ok next) (wide : next.width = some n) :
    Draft.row { draft with width := some n } number line = .ok next := by
  cases known : draft.width with
  | some width =>
      obtain ⟨inputs, mark, kind, -, -, length, rfl⟩ := row_parts read
      rw [add_width, length width known] at wide
      rw [← wide, ← known]
      exact read
  | none =>
      obtain ⟨inputs, outputs, values, kind, parts, set, output, few, rfl⟩ := row_eq_ok read
      obtain ⟨mark, rfl, marked⟩ := readOutput_eq_ok output
      rw [known] at parts
      rw [add_width, known] at wide
      cases wide
      have parts' := splitRow_known parts
      rw [row_eq parts' set output, if_pos few, known]
      rfl

/-! ## Declared and inferred widths -/

theorem width_of_quiet (quiet : declares line = false)
    (step : draft.line number line = .ok (some next)) (known : draft.width = some width) :
    next.width = some width := by
  cases row : isRow line with
  | false => rw [width_of_other quiet row step, known]
  | true =>
      rw [line_of_isRow row] at step
      obtain ⟨inputs, mark, kind, -, -, length, rfl⟩ := row_parts (ok_of_map_some step)
      rw [add_width, length width known]

theorem Reads.keeps (run : Reads draft lines last)
    (quiet : ∀ line ∈ lines, declares line = false) (known : draft.width = some width) :
    last.width = some width := by
  induction run with
  | done => exact known
  | line step _ ih =>
      obtain ⟨here, later⟩ := List.forall_mem_cons.1 quiet
      exact ih later (width_of_quiet here step known)

theorem line_known (quiet : declares line = false)
    (step : draft.line number line = .ok (some next))
    (agrees : ∀ width, next.width = some width → width = n) :
    Draft.line { draft with width := some n } number line =
      .ok (some { next with width := some n }) := by
  cases row : isRow line with
  | false => rw [line_widened quiet row, step]; rfl
  | true =>
      rw [line_of_isRow row] at step ⊢
      have read := ok_of_map_some step
      obtain ⟨inputs, mark, kind, -, -, -, same⟩ := row_parts read
      have wide : next.width = some inputs.length := by rw [same, add_width]
      obtain rfl := agrees _ wide
      rw [row_known read wide, ← wide]
      rfl

/-- A run that never meets a declaration is the same run if the width that it ends with was
declared before. -/
theorem Reads.known (run : Reads draft lines last)
    (quiet : ∀ line ∈ lines, declares line = false) (wide : last.width = some n) :
    Reads { draft with width := some n } lines last := by
  induction run with
  | @done draft =>
      rw [← wide]
      exact .done
  | @line draft next last number line rest step later ih =>
      obtain ⟨here, further⟩ := List.forall_mem_cons.1 quiet
      refine .line (line_known here step fun width known => ?_) (ih further wide)
      have kept := later.keeps further known
      exact Option.some.inj (kept.symm.trans wide)

/-- A text that declares no width is the same table if the width that its first row tells, a number
that a directive can say, is declared in front of it. The inputs and the output of a row are found
in the same places whether they stand apart or are counted. -/
theorem ofString_declared (text : String) (t : Table) (read : ofString text = .ok t)
    (quiet : ∀ line ∈ body (pieces (· == '\n') text.toList), declares line = false)
    (counted : t.arity < UInt64.size) :
    ofString (".i " ++ toString t.arity ++ "\n" ++ text) = .ok t ∧
      ∀ number row inputs output, splitRow number none row = .ok (inputs, [output]) →
        splitRow number (some inputs.length) row = .ok (inputs, [output]) := by
  constructor
  · obtain ⟨draft, run, finished⟩ := ofString_eq_ok.1 read
    obtain ⟨wide, -⟩ := finish_eq_ok finished
    have known := (readFrom_eq_ok.1 run).known quiet wide
    have words : ∀ word ∈ [".i", toString t.arity], IsWord word :=
      List.forall_mem_cons.2 ⟨by decide, List.forall_mem_singleton.2 (isWord_numeral _)⟩
    have whole : '\n' ∉ (".i " ++ toString t.arity).toList := newline_intercalate words
    have first : Draft.line {} 1 (".i " ++ toString t.arity).toList =
        (Draft.directive {} [".i", toString t.arity]).map some := line_intercalate words rfl
    refine ofString_eq_ok.2 ⟨draft, ?_, finished⟩
    rw [linesOfString_cons whole, readFrom_cons, first, directive_width {} counted]
    exact readFrom_eq_ok.2 known
  · exact fun number row inputs output apart => splitRow_known apart

/-- The first row stands apart, the second one is spread, and behind the end is another width. -/
theorem ofString_declared_spread :
    ∃ t, ofString ".o 1\n1x|1\n| 0 0 3\n.e\n.i 9\n" = .ok t ∧
      ofString ".i 2\n.o 1\n1x|1\n| 0 0 3\n.e\n.i 9\n" = .ok t := by
  have accepted : (ofString ".o 1\n1x|1\n| 0 0 3\n.e\n.i 9\n").toOption.map (·.arity) = some 2 := by
    decide +kernel
  cases read : ofString ".o 1\n1x|1\n| 0 0 3\n.e\n.i 9\n" with
  | error fault =>
      rw [read] at accepted
      cases accepted
  | ok t =>
      rw [read] at accepted
      have arity : t.arity = 2 := Option.some.inj accepted
      have declared := (ofString_declared _ t read (by decide +kernel) (by rw [arity]; decide)).1
      rw [arity] at declared
      exact ⟨t, rfl, declared⟩

/-! ## Widths that change -/

def Draft.minterms (draft : Draft) : List Minterm := draft.onset.toList ++ draft.offset.toList

/-- A row that counts for one of the sides. -/
def Counts (row : List Char) : Prop :=
  isRow row = true ∧ ∃ mark ∈ onMarks ++ offMarks, (packed row).getLast? = some mark

/-- A row that counts was read when the table had `actual` variables; the last line that declares a
number of variables stands behind it and declares another number. -/
def Redeclared (lines : List (List Char)) (width actual : Nat) : Prop :=
  ∃ before row between line after,
    lines = before ++ row :: (between ++ line :: after) ∧ Counts row ∧
    (∃ draft, Draft.readFrom {} 1 ((before ++ [row]).map .ok) = .ok draft ∧
      draft.width = some actual) ∧
    declared? line = some width ∧ (∀ later ∈ after, declares later = false) ∧ actual ≠ width

/-- Where the width of a draft comes from: the last declaration, if there is one. -/
theorem Reads.width_cases (run : Reads draft lines last) :
    ((∀ line ∈ lines, declares line = false) ∧
      ∀ width, draft.width = some width → last.width = some width) ∨
    ∃ before line after width, lines = before ++ line :: after ∧ declared? line = some width ∧
      (∀ later ∈ after, declares later = false) ∧ last.width = some width := by
  induction run with
  | done => exact .inl ⟨List.forall_mem_nil _, fun _ known => known⟩
  | @line draft next last number line rest step later ih =>
      rcases ih with ⟨quiet, kept⟩ | ⟨before, other, after, width, rfl, declared, quiet, wide⟩
      · cases here : declares line with
        | false =>
            refine .inl ⟨List.forall_mem_cons.2 ⟨here, quiet⟩, fun width known => ?_⟩
            exact kept width (width_of_quiet here step known)
        | true =>
            obtain ⟨width, declared, same⟩ := line_of_declares here step
            exact .inr ⟨[], line, rest, width, rfl, declared, quiet, kept width (by rw [same])⟩
      · exact .inr ⟨line :: before, other, after, width, rfl, declared, quiet, wide⟩

/-- A minterm that a row adds has as many variables as the table has then, and the row counts. -/
theorem mem_minterms_of_row {m : Minterm} (row : isRow line = true)
    (read : draft.row number line = .ok next) (member : m ∈ next.minterms) :
    m ∈ draft.minterms ∨ next.width = some m.1.size ∧ Counts line := by
  obtain ⟨inputs, mark, kind, parts, marked, -, rfl⟩ := row_parts read
  have sized (filled : m ∈ mintermsOf inputs) : some inputs.length = some m.1.size := by
    rw [size_of_mem_fill filled, List.length_map]
  have counts (side : mark ∈ onMarks ++ offMarks) : Counts line :=
    ⟨row, mark, side, by rw [parts, List.getLast?_concat]⟩
  rw [add_width]
  cases kind with
  | dontCare => exact .inl member
  | on =>
      simp only [Draft.minterms, Draft.add, Array.toList_appendList, List.mem_append] at member ⊢
      rcases member with (old | filled) | old
      · exact .inl (.inl old)
      · exact .inr ⟨sized filled, counts (List.mem_append_left _ (mem_onMarks.2 marked))⟩
      · exact .inl (.inr old)
  | off =>
      simp only [Draft.minterms, Draft.add, Array.toList_appendList, List.mem_append] at member ⊢
      rcases member with old | old | filled
      · exact .inl (.inl old)
      · exact .inl (.inr old)
      · exact .inr ⟨sized filled, counts (List.mem_append_right _ (mem_offMarks.2 marked))⟩

theorem mem_minterms_of_line {m : Minterm} (step : draft.line number line = .ok (some next))
    (member : m ∈ next.minterms) :
    m ∈ draft.minterms ∨ next.width = some m.1.size ∧ Counts line := by
  rcases line_cases step with ⟨-, none⟩ | ⟨-, after, same, ⟨-, onset, offset⟩ | ⟨row, read⟩⟩
  · cases none
  · cases same
    rw [Draft.minterms, onset, offset] at member
    exact .inl member
  · cases same
    exact mem_minterms_of_row row read member

/-- Where a minterm of a draft comes from. -/
theorem Reads.mem_minterms {m : Minterm} (run : Reads draft lines last)
    (member : m ∈ last.minterms) : m ∈ draft.minterms ∨
      ∃ before row after next, lines = before ++ row :: after ∧ Counts row ∧
        Reads draft (before ++ [row]) next ∧ next.width = some m.1.size ∧
        Reads next after last := by
  induction run with
  | done => exact .inl member
  | @line draft next last number line rest step later ih =>
      rcases ih member with here | ⟨before, row, after, reached, rfl, counts, first, wide, second⟩
      · rcases mem_minterms_of_line step here with old | ⟨wide, counts⟩
        · exact .inl old
        · exact .inr ⟨[], line, rest, next, rfl, counts, .line step .done, wide, later⟩
      · exact .inr ⟨line :: before, row, after, reached, rfl, counts, .line step first, wide,
          second⟩

/-- Two widths on the way to one table: a row that counts was read under the first one. -/
theorem Reads.redeclared {m : Minterm} (run : Reads {} lines last) (member : m ∈ last.minterms)
    (wide : last.width = some width) (other : m.1.size ≠ width) :
    Redeclared lines width m.1.size := by
  rcases run.mem_minterms member with
    none | ⟨before, row, after, next, rfl, counts, first, known, rest⟩
  · cases none
  · rcases rest.width_cases with
      ⟨-, kept⟩ | ⟨between, line, after, declared, rfl, here, quiet, final⟩
    · exact absurd (Option.some.inj ((kept _ known).symm.trans wide)) other
    · cases Option.some.inj (final.symm.trans wide)
      refine ⟨before, row, between, line, after, rfl, counts, ⟨next, ?_, known⟩, here, quiet, other⟩
      rw [readFrom_eq_ok, body_of_reads first]
      exact first

/-! ## Refused texts -/

theorem ofMinterms?_eq_error {minterms : List Minterm} {failure : Failure}
    (wrong : Rows.ofMinterms? n minterms = .error failure) :
    ∃ m ∈ minterms, m.1.size ≠ n ∧ failure = .dimensionMismatch n m.1.size := by
  unfold Rows.ofMinterms? at wrong
  split at wrong
  · rename_i m found
    refine ⟨m, List.mem_of_find?_eq_some found, ?_, (Except.error.inj wrong).symm⟩
    simpa using List.find?_some found
  · cases wrong

theorem finish_eq_error {wrong : ReadError} (refused : draft.finish = .error wrong) :
    (∃ fault, wrong = .malformed fault) ∨
      ∃ width, draft.width = some width ∧ ∃ m ∈ draft.minterms, m.1.size ≠ width ∧
        wrong = .invalid (.dimensionMismatch width m.1.size) := by
  unfold Draft.finish at refused
  split at refused
  · exact .inl ⟨_, (Except.error.inj refused).symm⟩
  rename_i width known
  split at refused
  · exact .inl ⟨_, (Except.error.inj refused).symm⟩
  refine .inr ⟨width, known, ?_⟩
  split at refused
  · rename_i failure onset
    obtain ⟨m, member, other, rfl⟩ := ofMinterms?_eq_error onset
    exact ⟨m, List.mem_append_left _ member, other, (Except.error.inj refused).symm⟩
  split at refused
  · rename_i failure offset
    obtain ⟨m, member, other, rfl⟩ := ofMinterms?_eq_error offset
    exact ⟨m, List.mem_append_right _ member, other, (Except.error.inj refused).symm⟩
  · cases refused

theorem readFrom_eq_error {wrong : ReadError}
    (read : draft.readFrom number (lines.map .ok) = .error wrong) :
    ∃ fault, wrong = .malformed fault := by
  induction lines generalizing draft number with
  | nil => cases read
  | cons line rest ih =>
      rw [List.map_cons, readFrom_cons] at read
      cases step : draft.line number line with
      | error fault =>
          simp only [step] at read
          exact ⟨fault, (Except.error.inj read).symm⟩
      | ok result =>
          cases result with
          | none => simp [step] at read
          | some next =>
              simp only [step] at read
              exact ih read

theorem ofString_eq_error {text : String} {wrong : ReadError}
    (refused : ofString text = .error wrong) : (∃ fault, wrong = .malformed fault) ∨
      ∃ width actual, wrong = .invalid (.dimensionMismatch width actual) ∧
        Redeclared (body (pieces (· == '\n') text.toList)) width actual := by
  rw [ofString, ofLines, linesOfString] at refused
  cases read : Draft.readFrom {} 1 ((pieces (· == '\n') text.toList).map .ok) with
  | error other =>
      rw [read] at refused
      exact .inl (Except.error.inj refused ▸ readFrom_eq_error read)
  | ok draft =>
      rw [read] at refused
      rcases finish_eq_error refused with malformed | ⟨width, wide, m, member, other, same⟩
      · exact .inl malformed
      · exact .inr ⟨width, m.1.size, same, (readFrom_eq_ok.1 read).redeclared member wide other⟩

/-! ## Widths that fit -/

/-- One more than the number of variables, if that is known, is a word. -/
def Draft.Fits (draft : Draft) : Prop :=
  ∀ width, draft.width = some width → width + 1 < UInt64.size

theorem Draft.Fits.start : Draft.Fits {} := by rintro width ⟨⟩

/-- Where one more than the width fits, a row that is long enough for it is cut within itself. -/
theorem splitRow_fits (fits : draft.Fits) (short : line.length < UInt64.size) :
    splitRow number draft.width line ≠ .error .overflow := by
  intro raised
  unfold splitRow at raised
  split at raised
  · rename_i width known
    dsimp only at raised
    split at raised
    · rename_i equal
      have fewer : (line.filter (!isGap ·)).length < UInt64.size :=
        (List.length_filter_le ..).trans_lt short
      rw [Nat.mod_eq_of_lt fewer, Nat.mod_eq_of_lt (fits width known)] at equal
      rw [if_pos (by omega)] at raised
      cases raised
    · cases raised
  · split at raised <;> cases raised

theorem readInputs_ne_overflow (number position : Nat) (inputs : List Char) :
    readInputs number position inputs ≠ .error .overflow := by
  induction inputs generalizing position with
  | nil => exact ok_ne_error _ _
  | cons c rest ih =>
      rw [readInputs]
      cases input? c with
      | none => simp
      | some value => exact bind_ne_error (ih (position + 1)) fun values => ok_ne_error _ _

theorem readOutput_ne_overflow (number : Nat) (outputs : List Char) :
    readOutput number outputs ≠ .error .overflow := by
  unfold readOutput
  split
  · split <;> simp
  · simp

theorem expandRow_ne_overflow (number : Nat) (values : List (Option Bool)) :
    expandRow number values ≠ .error .overflow := by
  dsimp only [expandRow]
  split <;> simp

theorem row_fits (fits : draft.Fits) (short : line.length < UInt64.size) :
    draft.row number line ≠ .error .overflow := by
  refine bind_ne_error (splitRow_fits fits short) fun parts => ?_
  refine bind_ne_error (readInputs_ne_overflow number 0 parts.1) fun values => ?_
  refine bind_ne_error (readOutput_ne_overflow number parts.2) fun kind => ?_
  cases kind with
  | dontCare => exact ok_ne_error _ _
  | on => exact bind_ne_error (expandRow_ne_overflow number values) fun filled => ok_ne_error _ _
  | off => exact bind_ne_error (expandRow_ne_overflow number values) fun filled => ok_ne_error _ _

theorem directive_ne_overflow (draft : Draft) (list : List String) :
    draft.directive list ≠ .error .overflow := by
  have count (directive : String) (value : Option String) :
      readCount directive value ≠ .error .overflow := by
    unfold readCount
    split <;> simp
  unfold Draft.directive
  split
  · exact bind_ne_error (count ".i" _) fun width => ok_ne_error _ _
  · refine bind_ne_error (count ".o" _) fun outputs => ?_
    split
    · exact ok_ne_error _ _
    · rintro ⟨⟩
  · exact ok_ne_error _ _
  · split <;> simp
  · exact ok_ne_error _ _

theorem line_fits (fits : draft.Fits) (short : line.length < UInt64.size) :
    draft.line number line ≠ .error .overflow := by
  unfold Draft.line
  split
  · exact ok_ne_error _ _
  · exact ok_ne_error _ _
  · split
    · exact ok_ne_error _ _
    · exact map_ne_error (directive_ne_overflow draft (words line))
  · exact map_ne_error (row_fits fits short)

theorem declared?_lt (declared : declared? line = some width) : width < UInt64.size := by
  unfold declared? at declared
  split at declared
  · obtain ⟨word, -, count⟩ := Option.bind_eq_some_iff.1 declared
    have small := (Option.filter_eq_some_iff.1 count).2
    exact of_decide_eq_true small
  · cases declared

/-- A width is declared, or the row that tells it has one character more. -/
theorem Draft.Fits.advance (fits : draft.Fits) (short : line.length < UInt64.size)
    (allowed : declared? line ≠ some (UInt64.size - 1))
    (step : draft.line number line = .ok (some next)) : next.Fits := by
  intro width wide
  cases declared : declares line with
  | true =>
      obtain ⟨n, said, rfl⟩ := line_of_declares declared step
      cases wide
      have small := declared?_lt said
      have other : width ≠ UInt64.size - 1 := fun same => allowed (same ▸ said)
      omega
  | false =>
      cases row : isRow line with
      | false => exact fits width (width_of_other declared row step ▸ wide)
      | true =>
          rw [line_of_isRow row] at step
          obtain ⟨inputs, mark, kind, parts, -, -, rfl⟩ := row_parts (ok_of_map_some step)
          rw [add_width] at wide
          cases wide
          have length := congrArg List.length parts
          rw [List.length_append, List.length_singleton] at length
          rw [← length]
          exact (List.length_filter_le ..).trans_lt short

theorem readFrom_fits (fits : draft.Fits)
    (allowed : ∀ line ∈ body lines,
      line.length < UInt64.size ∧ declared? line ≠ some (UInt64.size - 1)) :
    draft.readFrom number (lines.map .ok) ≠ .error (.malformed .overflow) := by
  induction lines generalizing draft number with
  | nil => exact ok_ne_error _ _
  | cons line rest ih =>
      rw [List.map_cons, readFrom_cons]
      cases ends : endsTable (words line) with
      | true =>
          rw [line_of_endsTable ends]
          exact ok_ne_error _ _
      | false =>
          have lines : body (line :: rest) = line :: body rest := by
            rw [body, List.takeWhile_cons, ends]
            rfl
          obtain ⟨⟨short, other⟩, later⟩ := List.forall_mem_cons.1 (lines ▸ allowed)
          cases step : draft.line number line with
          | error fault =>
              intro raised
              exact line_fits fits short
                (step.trans (congrArg Except.error (ReadError.malformed.inj (Except.error.inj raised))))
          | ok result =>
              cases result with
              | none => exact ok_ne_error _ _
              | some next => exact ih (fits.advance short other step) later

theorem finish_ne_overflow (draft : Draft) : draft.finish ≠ .error (.malformed .overflow) := by
  unfold Draft.finish
  split
  · simp
  · split
    · rename_i fault refused
      intro raised
      unfold Draft.finalNames at refused
      split at refused
      · cases refused
      · split at refused <;> cases refused
        cases raised
    · split
      · simp
      · split <;> simp

/-- A text that can be held in memory and does not declare the greatest width is read to the end. -/
theorem ofString_fits {text : String} (short : text.length < UInt64.size)
    (allowed : ∀ line ∈ body (pieces (· == '\n') text.toList),
      declared? line ≠ some (UInt64.size - 1)) : ofString text ≠ .error (.malformed .overflow) := by
  rw [ofString, ofLines, linesOfString]
  refine bind_ne_error (readFrom_fits .start fun line member => ⟨?_, allowed line member⟩)
    finish_ne_overflow
  have listed := (List.takeWhile_sublist _).subset member
  refine (length_le_of_mem_pieces listed).trans_lt ?_
  rwa [String.length_toList]

/-- A table is found invalid only because of rows that were read before the last declaration and
under another width than it declares; with no declaration behind a row and none of the greatest
width, a text, which is never longer than a word can say, is accepted or malformed, and the reader
does not break off. -/
theorem redeclared_of_ofString (text : String) :
    (∀ failure, ofString text = .error (.invalid failure) → ∃ width actual,
      failure = .dimensionMismatch width actual ∧
        Redeclared (body (pieces (· == '\n') text.toList)) width actual) ∧
    ((body (pieces (· == '\n') text.toList)).Pairwise
        (fun earlier later => isRow earlier = true → declares later = false) →
      text.length < UInt64.size →
      (∀ line ∈ body (pieces (· == '\n') text.toList), declared? line ≠ some (UInt64.size - 1)) →
      (∃ t, ofString text = .ok t) ∨
        ∃ fault, fault ≠ .overflow ∧ ofString text = .error (.malformed fault)) := by
  constructor
  · intro failure refused
    rcases ofString_eq_error refused with ⟨fault, malformed⟩ | ⟨width, actual, same, redeclared⟩
    · cases malformed
    · exact ⟨width, actual, ReadError.invalid.inj same, redeclared⟩
  · intro inFront short allowed
    cases read : ofString text with
    | ok t => exact .inl ⟨t, rfl⟩
    | error wrong =>
        rcases ofString_eq_error read with ⟨fault, rfl⟩ | ⟨width, actual, -, redeclared⟩
        · refine .inr ⟨fault, ?_, rfl⟩
          rintro rfl
          exact ofString_fits short allowed read
        · obtain ⟨before, row, between, line, after, parts, ⟨isRow, -⟩, -, declared, -⟩ :=
            redeclared
          rw [parts] at inFront
          have behind := (List.pairwise_cons.1 (List.pairwise_append.1 inFront).2.1).1 line
            (List.mem_append_right _ List.mem_cons_self) isRow
          rw [declared?, behind] at declared
          cases declared

/-- The first row tells two variables and the last line before the end that declares some declares
three. In front of the rows the same line is no reason to find the table invalid. -/
theorem redeclared_of_ofString_three :
    ofString "11 1\n.i 1\n.i 3\n000 0\n.e\n.i 2\n" = .error (.invalid (.dimensionMismatch 3 2)) ∧
      Redeclared (["11 1", ".i 1", ".i 3", "000 0"].map String.toList) 3 2 ∧
      ((∃ t, ofString ".i 1\n.i 3\n011 1\n" = .ok t) ∨ ∃ fault, fault ≠ .overflow ∧
        ofString ".i 1\n.i 3\n011 1\n" = .error (.malformed fault)) := by
  have refused : ofString "11 1\n.i 1\n.i 3\n000 0\n.e\n.i 2\n" =
      .error (.invalid (.dimensionMismatch 3 2)) := by
    have lines : linesOfString "11 1\n.i 1\n.i 3\n000 0\n.e\n.i 2\n" =
        ["11 1", ".i 1", ".i 3", "000 0", ".e", ".i 2", ""].map (.ok ·.toList) := by decide +kernel
    rw [ofString, lines]
    rfl
  have lines : body (pieces (· == '\n') "11 1\n.i 1\n.i 3\n000 0\n.e\n.i 2\n".toList) =
      ["11 1", ".i 1", ".i 3", "000 0"].map String.toList := by decide +kernel
  obtain ⟨width, actual, same, redeclared⟩ := (redeclared_of_ofString _).1 _ refused
  cases same
  exact ⟨refused, lines ▸ redeclared,
    (redeclared_of_ofString _).2 (by decide +kernel) (by decide) (by decide +kernel)⟩

/-- Behind a declaration of the greatest width a row of nothing but a gap breaks the reader off. -/
theorem ofString_greatest_width :
    (body (pieces (· == '\n') ".i 18446744073709551615\n|\n".toList)).Pairwise
        (fun earlier later => isRow earlier = true → declares later = false) ∧
      ofString ".i 18446744073709551615\n|\n" = .error (.malformed .overflow) := by
  refine ⟨by decide +kernel, ?_⟩
  have lines : linesOfString ".i 18446744073709551615\n|\n" =
      [".i 18446744073709551615", "|", ""].map (.ok ·.toList) := by decide +kernel
  rw [ofString, lines]
  rfl

end TwoLevel.Table
