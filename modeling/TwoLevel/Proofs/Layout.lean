import TwoLevel.Proofs.Meaning
import Mathlib.Algebra.GroupWithZero.Nat

/-!
Texts that differ in layout only. Lines that say nothing may stand anywhere before the end of the
table, lines may be indented and padded, the characters of a row may be spread once the width is
known, and after the end of the table there may be anything. A text in another layout reads as the
same table, or has the same fault in the line that the faulty one has moved to.
-/

namespace TwoLevel

namespace Text

variable {before after : List Char}

/-- Blanks around a text are trimmed like its own. -/
theorem trim_around (blank : ∀ c ∈ before, isBlank c = true)
    (blank' : ∀ c ∈ after, isBlank c = true) (s : List Char) : trim (before ++ s ++ after) = trim s := by
  have front : (before ++ s ++ after).dropWhile isBlank = (s ++ after).dropWhile isBlank := by
    rw [List.append_assoc, List.dropWhile_append_of_pos blank]
  have back (t : List Char) : (t ++ after).rdropWhile isBlank = t.rdropWhile isBlank := by
    rw [List.rdropWhile, List.reverse_append, List.dropWhile_append_of_pos (by simpa using blank'),
      List.rdropWhile]
  rw [trim_eq, trim_eq, front, List.dropWhile_append]
  split
  · rename_i none
    rw [List.isEmpty_iff.1 none, List.dropWhile_eq_nil_iff.2 blank']
  · exact back _

end Text

namespace Table

open Text

variable {draft next : Draft} {number : Nat} {known : Bool} {line text text' : List Char}
  {gaps : List Nat} {lines lines' : List Line} {f : Nat → Nat}

/-! ## The lines of faults -/

def Fault.line? : Fault → Option Nat
  | inputCharacter line _ _ | outputCharacter line _ | rowWidth line _ _ | missingOutput line
  | tooManyFree line _ _ => some line
  | _ => none

def Fault.renumber (f : Nat → Nat) : Fault → Fault
  | inputCharacter line character position => inputCharacter (f line) character position
  | outputCharacter line character => outputCharacter (f line) character
  | rowWidth line expected actual => rowWidth (f line) expected actual
  | missingOutput line => missingOutput (f line)
  | tooManyFree line count limit => tooManyFree (f line) count limit
  | invalidCount directive value => invalidCount directive value
  | unsupportedOutputs count => unsupportedOutputs count
  | nameCount expected actual => nameCount expected actual
  | missingDimensions => missingDimensions
  | overflow => overflow

def ReadError.renumber (f : Nat → Nat) : ReadError → ReadError
  | malformed fault => malformed (fault.renumber f)
  | invalid failure => invalid failure
  | unreadable fault => unreadable fault

theorem line?_renumber (f : Nat → Nat) (fault : Fault) :
    (fault.renumber f).line? = fault.line?.map f := by
  cases fault <;> rfl

theorem mapError_bind {ε ε' α β : Type} (x : Except ε α) (next : α → Except ε β) (g : ε → ε') :
    (x >>= next).mapError g = x.mapError g >>= fun a => (next a).mapError g := by
  cases x <;> rfl

theorem ok_ne_error {ε α : Type} (a : α) (e : ε) : (.ok a : Except ε α) ≠ .error e := by
  rintro ⟨⟩

theorem bind_ne_error {ε α β : Type} {x : Except ε α} {f : α → Except ε β} {e : ε}
    (first : x ≠ .error e) (later : ∀ a, f a ≠ .error e) : (x >>= f) ≠ .error e := by
  cases x with
  | error other => exact fun same => first (congrArg Except.error (Except.error.inj same))
  | ok a => exact later a

theorem map_ne_error {ε α β : Type} {x : Except ε α} {f : α → β} {e : ε} (first : x ≠ .error e) :
    x.map f ≠ .error e := by
  cases x with
  | error other => exact fun same => first (congrArg Except.error (Except.error.inj same))
  | ok a => exact ok_ne_error _ _

theorem splitRow_renumber (f : Nat → Nat) (number : Nat) (width : Option Nat) (row : List Char) :
    (splitRow number width row).mapError (·.renumber f) = splitRow (f number) width row := by
  cases width with
  | some width =>
      simp only [splitRow]
      split
      · split <;> rfl
      · rfl
  | none =>
      simp only [splitRow]
      split <;> rfl

theorem readInputs_renumber (f : Nat → Nat) (number position : Nat) (inputs : List Char) :
    (readInputs number position inputs).mapError (·.renumber f) =
      readInputs (f number) position inputs := by
  induction inputs generalizing position with
  | nil => rfl
  | cons c rest ih =>
      rw [readInputs, readInputs]
      cases input? c with
      | none => rfl
      | some value =>
          simp only [mapError_bind, ih]
          rfl

theorem readOutput_renumber (f : Nat → Nat) (number : Nat) (outputs : List Char) :
    (readOutput number outputs).mapError (·.renumber f) = readOutput (f number) outputs := by
  unfold readOutput
  split
  · split <;> rfl
  · rfl

theorem expandRow_renumber (f : Nat → Nat) (number : Nat) (inputs : List (Option Bool)) :
    (expandRow number inputs).mapError (·.renumber f) = expandRow (f number) inputs := by
  dsimp only [expandRow]
  split <;> rfl

theorem row_renumber (f : Nat → Nat) (draft : Draft) (number : Nat) (row : List Char) :
    (draft.row number row).mapError (·.renumber f) = draft.row (f number) row := by
  rw [Draft.row, Draft.row, mapError_bind, splitRow_renumber]
  refine bind_congr fun parts => ?_
  rw [mapError_bind, readInputs_renumber]
  refine bind_congr fun values => ?_
  rw [mapError_bind, readOutput_renumber]
  refine bind_congr fun kind => ?_
  cases kind
  · simp only [mapError_bind, expandRow_renumber]
    rfl
  · simp only [mapError_bind, expandRow_renumber]
    rfl
  · rfl

/-- No fault of a directive says where it is. -/
theorem directive_renumber (f : Nat → Nat) (draft : Draft) (words : List String) :
    (draft.directive words).mapError (·.renumber f) = draft.directive words := by
  have count (directive : String) (value : Option String) :
      (readCount directive value).mapError (·.renumber f) = readCount directive value := by
    unfold readCount
    split <;> rfl
  unfold Draft.directive
  split
  · rw [mapError_bind, count]
    rfl
  · rw [mapError_bind, count]
    refine bind_congr fun outputs => ?_
    split <;> rfl
  · rfl
  · split <;> rfl
  · rfl

theorem line_renumber (f : Nat → Nat) (draft : Draft) (number : Nat) (text : List Char) :
    (draft.line number text).mapError (·.renumber f) = draft.line (f number) text := by
  have goesOn (step : Except Fault Draft) :
      (step.map some).mapError (·.renumber f) = (step.mapError (·.renumber f)).map some := by
    cases step <;> rfl
  unfold Draft.line
  split
  · rfl
  · rfl
  · split
    · rfl
    · rw [goesOn, directive_renumber]
  · rw [goesOn, row_renumber]

theorem line?_of_line {fault : Fault} (wrong : draft.line number text = .error fault) {k : Nat}
    (named : fault.line? = some k) : k = number := by
  have step := line_renumber (fun _ => number) draft number text
  rw [wrong] at step
  have same : fault.renumber (fun _ => number) = fault := Except.error.inj step
  have constant := line?_renumber (fun _ => number) fault
  rw [same, named] at constant
  exact Option.some.inj constant

theorem finish_renumber (f : Nat → Nat) (draft : Draft) :
    draft.finish.mapError (·.renumber f) = draft.finish := by
  have names (width : Nat) : ∀ fault, draft.finalNames width = .error fault →
      fault.renumber f = fault := by
    intro fault wrong
    unfold Draft.finalNames at wrong
    split at wrong
    · cases wrong
    · split at wrong
      · cases wrong
      · cases wrong
        rfl
  unfold Draft.finish
  split
  · rfl
  · split
    · rename_i fault wrong
      exact congrArg (Except.error ∘ ReadError.malformed) (names _ fault wrong)
    · split
      · rfl
      · split <;> rfl

theorem line?_of_finish {fault : Fault} (wrong : draft.finish = .error (.malformed fault)) :
    fault.line? = none := by
  have step := finish_renumber (· + 1) draft
  rw [wrong] at step
  have same : fault.renumber (· + 1) = fault := ReadError.malformed.inj (Except.error.inj step)
  have next := line?_renumber (· + 1) fault
  rw [same] at next
  cases named : fault.line? with
  | none => rfl
  | some k => simp [named] at next

/-- The lines before a faulty one are read, and it is what goes wrong. -/
theorem readFrom_refused {fault : Fault}
    (read : draft.readFrom number lines = .error (.malformed fault)) :
    ∃ before text after, lines = before ++ .ok text :: after ∧
      ∃ d, draft.readFrom number before = .ok d ∧
        d.line (number + before.length) text = .error fault := by
  induction lines generalizing draft number with
  | nil => cases read
  | cons item rest ih =>
      cases item with
      | error fault => cases read
      | ok text =>
          rw [readFrom_cons] at read
          cases result : draft.line number text with
          | error wrong =>
              simp only [result, Except.error.injEq, ReadError.malformed.injEq] at read
              exact ⟨[], text, rest, rfl, draft, rfl, read ▸ result⟩
          | ok after =>
              cases after with
              | none => simp [result] at read
              | some next =>
                  simp only [result] at read
                  obtain ⟨before, line, after, split, d, kept, wrong⟩ := ih read
                  refine ⟨.ok text :: before, line, after, by rw [split]; rfl, d, ?_, ?_⟩
                  · rw [readFrom_cons, result]
                    exact kept
                  · rwa [List.length_cons, Nat.add_comm before.length, ← Nat.add_assoc]

/-- A fault that names a line was found in that line. -/
theorem ofLines_refused {fault : Fault} {k : Nat} (read : ofLines lines = .error (.malformed fault))
    (named : fault.line? = some k) :
    ∃ before text after, lines = before ++ .ok text :: after ∧ k = before.length + 1 ∧
      ∃ d, Draft.readFrom {} 1 before = .ok d ∧ d.line k text = .error fault := by
  rw [ofLines] at read
  cases result : Draft.readFrom {} 1 lines with
  | ok draft =>
      rw [result] at read
      rw [line?_of_finish read] at named
      cases named
  | error wrong =>
      rw [result] at read
      rw [Except.error.inj read] at result
      obtain ⟨before, text, after, split, d, kept, faulty⟩ := readFrom_refused result
      obtain rfl := line?_of_line faulty named
      exact ⟨before, text, after, split, Nat.add_comm .., d, kept, faulty⟩

/-! ## Lines that say nothing -/

def keywords : List String := [".i", ".o", ".ilb", ".ob", ".e", ".end"]

/-- Blank lines, comments, and directives of which the reader knows nothing. -/
def isIdle (line : List Char) : Bool :=
  match line.find? (!isBlank ·) with
  | none | some '#' => true
  | some '.' => (words line).head?.all (!keywords.contains ·)
  | some _ => false

theorem directive_unknown {list : List String}
    (unknown : list.head?.all (!keywords.contains ·) = true) :
    draft.directive list = .ok draft := by
  unfold Draft.directive
  split <;> simp_all [keywords]

theorem endsTable_unknown {list : List String}
    (unknown : list.head?.all (!keywords.contains ·) = true) : endsTable list = false := by
  cases list with
  | nil => rfl
  | cons word rest => simp_all [keywords, endsTable]

theorem line_idle (idle : isIdle line = true) : draft.line number line = .ok (some draft) := by
  unfold isIdle at idle
  split at idle
  · exact line_blank ‹_›
  · exact line_comment ‹_›
  · rename_i first
    rw [line_directive first, endsTable_unknown idle, directive_unknown idle]
    rfl
  · cases idle

theorem readFrom_idle (draft : Draft) (number : Nat) {idle : List (List Char)}
    (passed : ∀ line ∈ idle, isIdle line = true) (rest : List Line) :
    draft.readFrom number (idle.map .ok ++ rest) = draft.readFrom (number + idle.length) rest := by
  induction idle generalizing number with
  | nil => rfl
  | cons line idle ih =>
      obtain ⟨here, later⟩ := List.forall_mem_cons.1 passed
      rw [List.map_cons, List.cons_append, readFrom_cons, line_idle here, List.length_cons,
        Nat.add_comm idle.length, ← Nat.add_assoc]
      exact ih (number + 1) later

/-! ## Lines in another layout -/

/-- The second text is the first one with gaps put in. -/
inductive Spread : List Char → List Char → Prop
  | nil : Spread [] []
  | keep (c : Char) {s s' : List Char} (later : Spread s s') : Spread (c :: s) (c :: s')
  | gap {c : Char} (gap : isGap c = true) {s s' : List Char} (later : Spread s s') :
      Spread s (c :: s')

/-- How a line may look in another layout. Where the width is known, a row may be spread. -/
inductive Respaced : Bool → List Char → List Char → Prop
  | padded {known : Bool} (before text after : List Char)
      (blank : ∀ c ∈ before, isBlank c = true) (blank' : ∀ c ∈ after, isBlank c = true) :
      Respaced known text (before ++ text ++ after)
  | spread {row row' : List Char} (isRow : isRow row = true) (spread : Spread row row') :
      Respaced true row row'

theorem Spread.packed_eq (spread : Spread text text') : packed text' = packed text := by
  induction spread with
  | nil => rfl
  | keep c _ ih =>
      simp only [packed, List.filter_cons] at ih ⊢
      rw [ih]
  | gap gap _ ih => simpa [packed, gap] using ih

theorem Spread.find?_eq (spread : Spread text text') :
    text'.find? (!isBlank ·) = text.find? (!isBlank ·) ∨ text'.find? (!isBlank ·) = some '|' := by
  induction spread with
  | nil => exact .inl rfl
  | keep c _ ih => cases blank : isBlank c <;> simp [blank, ih]
  | @gap c gap s s' _ ih =>
      cases blank : isBlank c with
      | true => simpa [List.find?_cons, blank] using ih
      | false =>
          have bar : c = '|' := by simpa [isGap, blank] using gap
          right
          rw [List.find?_cons, blank, bar]
          rfl

theorem Spread.isRow (spread : Spread text text') (row : isRow text = true) :
    Table.isRow text' = true := by
  rcases spread.find?_eq with same | bar
  · rwa [Table.isRow, same]
  · rw [Table.isRow, bar]
    rfl

theorem line_of_isRow (row : isRow text = true) :
    draft.line number text = (draft.row number text).map some := by
  unfold isRow at row
  split at row
  · cases row
  · cases row
  · cases row
  · rename_i c hash dot first
    exact line_row first hash dot

theorem row_of_packed_eq (wide : draft.width.isSome = true) (same : packed text' = packed text) :
    draft.row number text' = draft.row number text := by
  obtain ⟨width, wide⟩ := Option.isSome_iff_exists.1 wide
  have split : splitRow number draft.width text' = splitRow number draft.width text := by
    simp only [wide, splitRow]
    unfold packed at same
    rw [same]
  rw [Draft.row, Draft.row, split]

theorem line_of_trim_eq (same : trim text' = trim text) :
    draft.line number text' = draft.line number text := by
  have first : text'.find? (!isBlank ·) = text.find? (!isBlank ·) := by
    rw [← head?_trim, same, head?_trim]
  have apart : words text' = words text := by rw [← words_trim, same, words_trim]
  have row : draft.row number text' = draft.row number text := by rw [← row_trim, same, row_trim]
  rw [Draft.line, Draft.line, first, apart, row]

theorem line_respaced (same : Respaced known text text')
    (wide : known = true → draft.width.isSome = true) :
    draft.line number text' = draft.line number text := by
  cases same with
  | padded before _ after blank blank' => exact line_of_trim_eq (trim_around blank blank' text)
  | spread row spread =>
      rw [line_of_isRow row, line_of_isRow (spread.isRow row),
        row_of_packed_eq (wide rfl) spread.packed_eq]

/-! ## What the width is known from -/

/-- A row tells the width if nothing else did. -/
def tellsWidth (line : List Char) : Bool := isRow line || (words line).head? == some ".i"

theorem width_directive {list : List String}
    (told : draft.width.isSome = true ∨ list.head? = some ".i")
    (read : draft.directive list = .ok next) : next.width.isSome = true := by
  rcases told with wide | first
  · rcases directive_eq_ok read with rfl | ⟨width, rfl⟩ | ⟨_, _, _, rfl⟩ | ⟨_, _, _, rfl⟩
    · exact wide
    · rfl
    · exact wide
    · exact wide
  · obtain ⟨rest, rfl⟩ := List.head?_eq_some_iff.1 first
    rw [Draft.directive] at read
    cases count : readCount ".i" rest.head? with
    | error fault => simp [count, bind, Except.bind] at read
    | ok width =>
        rw [count] at read
        exact Except.ok.inj read ▸ rfl

theorem width_row (read : draft.row number text = .ok next) : next.width.isSome = true := by
  obtain ⟨inputs, outputs, values, kind, -, -, -, -, rfl⟩ := row_eq_ok read
  simp

theorem width_line (told : draft.width.isSome = true ∨ tellsWidth text = true)
    (read : draft.line number text = .ok (some next)) : next.width.isSome = true := by
  by_cases row : isRow text = true
  · rw [line_of_isRow row] at read
    exact width_row (ok_of_map_some read)
  · have told : draft.width.isSome = true ∨ (words text).head? = some ".i" := by
      simpa [tellsWidth, row] using told
    by_cases dot : text.find? (!isBlank ·) = some '.'
    · rw [line_directive dot] at read
      split at read
      · cases read
      · exact width_directive told (ok_of_map_some read)
    · have idle : isIdle text = true := by
        unfold isRow at row
        unfold isIdle
        split <;> simp_all
      rw [line_idle idle] at read
      cases read
      exact told.resolve_right fun first => dot (find?_of_head?_words first)

/-! ## Texts in another layout -/

/-- The second lines are the first ones in another layout: idle lines are put in, as many in front
of each line as `gaps` says or at the end, the lines are respaced, and what follows the end of the
table or a line that cannot be read is anything. -/
inductive Relaid : Bool → List Nat → List Line → List Line → Prop
  | done {known : Bool} (idle : List (List Char)) (passed : ∀ line ∈ idle, isIdle line = true) :
      Relaid known [] [] (idle.map .ok)
  | line {known : Bool} (idle : List (List Char)) (passed : ∀ line ∈ idle, isIdle line = true)
      {text text' : List Char} (same : Respaced known text text') {gaps : List Nat}
      {rest rest' : List Line} (later : Relaid (known || tellsWidth text) gaps rest rest') :
      Relaid known (idle.length :: gaps) (.ok text :: rest) (idle.map .ok ++ .ok text' :: rest')
  | ends {known : Bool} (idle : List (List Char)) (passed : ∀ line ∈ idle, isIdle line = true)
      {text text' : List Char} (same : Respaced known text text')
      (ends : endsTable (words text) = true) (rest rest' : List Line) :
      Relaid known [idle.length] (.ok text :: rest) (idle.map .ok ++ .ok text' :: rest')
  | breaks {known : Bool} (idle : List (List Char)) (passed : ∀ line ∈ idle, isIdle line = true)
      (fault : FileFault) (rest rest' : List Line) :
      Relaid known [idle.length] (.error fault :: rest) (idle.map .ok ++ .error fault :: rest')

/-- The line that line `number` of the first text has become. -/
def moved (gaps : List Nat) (number : Nat) : Nat := number + (gaps.take number).sum

theorem readFrom_relaid (shift : Nat) (relaid : Relaid known gaps lines lines')
    (wide : known = true → draft.width.isSome = true)
    (moves : ∀ i, f (number + i) = number + shift + i + (gaps.take (i + 1)).sum) :
    draft.readFrom (number + shift) lines' =
      (draft.readFrom number lines).mapError (·.renumber f) := by
  induction relaid generalizing draft number shift with
  | done idle passed =>
      have only := readFrom_idle draft (number + shift) passed []
      rw [List.append_nil] at only
      exact only
  | @line known idle passed text text' same gaps rest rest' later ih =>
      have here : f number = number + shift + idle.length := by simpa using moves 0
      rw [readFrom_idle draft _ passed, readFrom_cons, readFrom_cons, line_respaced same wide,
        ← here, ← line_renumber]
      cases read : draft.line number text with
      | error fault => rfl
      | ok after =>
          cases after with
          | none => rfl
          | some next =>
              have further : f number + 1 = number + 1 + (shift + idle.length) := by omega
              simp only [Except.mapError, further]
              refine ih (shift + idle.length) (fun told => ?_) fun i => ?_
              · rw [Bool.or_eq_true] at told
                exact width_line (told.imp_left wide) read
              · have move := moves (i + 1)
                rw [List.take_succ_cons, List.sum_cons] at move
                rw [Nat.add_right_comm, Nat.add_assoc, move]
                omega
  | @ends known idle passed text text' same ends rest rest' =>
      rw [readFrom_idle draft _ passed, readFrom_cons, readFrom_cons, line_respaced same wide,
        line_of_endsTable ends, line_of_endsTable ends]
      rfl
  | breaks idle passed fault rest rest' =>
      rw [readFrom_idle draft _ passed]
      rfl

theorem ofLines_relaid (relaid : Relaid false gaps lines lines') :
    ofLines lines' = (ofLines lines).mapError (·.renumber (moved gaps)) := by
  have run : Draft.readFrom {} 1 lines' =
      (Draft.readFrom {} 1 lines).mapError (·.renumber (moved gaps)) :=
    readFrom_relaid 0 relaid (fun told => by cases told) fun i => by rw [moved, Nat.add_comm 1 i]
  rw [ofLines, ofLines, mapError_bind, run]
  exact bind_congr fun draft => (finish_renumber (moved gaps) draft).symm

/-- A text in another layout reads as the same table, or is refused for the same reason in the line
that the faulty one has become. A fault that names a line was found in it, after the lines before
it. -/
theorem ofString_relaid (text text' : String) (gaps : List Nat)
    (relaid : Relaid false gaps (linesOfString text) (linesOfString text')) :
    ofString text' = (ofString text).mapError (·.renumber (moved gaps)) ∧
      ∀ fault k, ofString text = .error (.malformed fault) → fault.line? = some k →
        ∃ before line after, linesOfString text = before ++ .ok line :: after ∧
          k = before.length + 1 ∧
            ∃ d, Draft.readFrom {} 1 before = .ok d ∧ d.line k line = .error fault :=
  ⟨ofLines_relaid relaid, fun _ _ => ofLines_refused⟩

/-- Idle lines, padding, bars and another rest: the wrong character is four lines further down. -/
theorem ofString_relaid_refused :
    Relaid false [1, 2, 1, 0] (linesOfString ".i 2\n01 1\n0z 1\n.e\n")
        (linesOfString "# a\n\t.i 2\r\n\n.p 2\n 0|1 1\n.type fr\n0 | z 1\n.e\n11 1") ∧
      ofString ".i 2\n01 1\n0z 1\n.e\n" = .error (.malformed (.inputCharacter 3 'z' 1)) ∧
      ofString "# a\n\t.i 2\r\n\n.p 2\n 0|1 1\n.type fr\n0 | z 1\n.e\n11 1" =
        .error (.malformed (.inputCharacter 7 'z' 1)) := by
  have lines : linesOfString ".i 2\n01 1\n0z 1\n.e\n" =
      [".i 2", "01 1", "0z 1", ".e", ""].map (.ok ·.toList) := by decide +kernel
  have lines' : linesOfString "# a\n\t.i 2\r\n\n.p 2\n 0|1 1\n.type fr\n0 | z 1\n.e\n11 1" =
      ["# a", "\t.i 2\r", "", ".p 2", " 0|1 1", ".type fr", "0 | z 1", ".e", "11 1"].map
        (.ok ·.toList) := by decide +kernel
  have refused : ofString ".i 2\n01 1\n0z 1\n.e\n" =
      .error (.malformed (.inputCharacter 3 'z' 1)) := by
    rw [ofString, lines]
    rfl
  have relaid : Relaid false [1, 2, 1, 0] (linesOfString ".i 2\n01 1\n0z 1\n.e\n")
      (linesOfString "# a\n\t.i 2\r\n\n.p 2\n 0|1 1\n.type fr\n0 | z 1\n.e\n11 1") := by
    rw [lines, lines']
    refine .line ["# a".toList] (by decide) (.padded ['\t'] _ ['\r']
      (List.forall_mem_singleton.2 rfl) (List.forall_mem_singleton.2 rfl)) ?_
    refine .line ["".toList, ".p 2".toList] (by decide) (.spread (by decide) ?_) ?_
    · exact .gap rfl (.keep '0' (.gap rfl (.keep '1' (.keep ' ' (.keep '1' .nil)))))
    refine .line [".type fr".toList] (by decide) (.spread (by decide) ?_) ?_
    · exact .keep '0' (.gap rfl (.gap rfl (.gap rfl (.keep 'z' (.keep ' ' (.keep '1' .nil))))))
    exact .ends [] (by decide) (.padded [] _ [] (List.forall_mem_nil _) (List.forall_mem_nil _))
      (by decide) _ _
  refine ⟨relaid, refused, ?_⟩
  rw [(ofString_relaid _ _ _ relaid).1, refused]
  rfl

end Table

end TwoLevel
