import TwoLevel.Proofs.Words
import TwoLevel.Proofs.Names
import TwoLevel.Proofs.Fillings

/-!
The reader line by line. What a line does to a draft depends on its first character that is not
blank and is said by one function; a run reads the lines in turn until one ends the table.
-/

namespace TwoLevel.Table

open Text

variable {draft next last : Draft} {number n : Nat} {names : Names} {text row : List Char}
  {lines : List Line}

/-! ## Blanks around a line -/

theorem isGap_of_isBlank {c : Char} (blank : isBlank c = true) : isGap c = true := by
  rw [isGap, blank, Bool.true_or]

theorem splitRow_trim (line : Nat) (width : Option Nat) (row : List Char) :
    splitRow line width (trim row) = splitRow line width row := by
  cases width with
  | some width =>
      have packed := filter_trim (!isGap ·) (fun c blank => by simp [isGap_of_isBlank blank]) row
      simp only [splitRow, packed]
  | none =>
      obtain ⟨before, after, same, blank, blank'⟩ := exists_trim row
      have inner := fields_around (fun c member => isGap_of_isBlank (blank c member))
        (fun c member => isGap_of_isBlank (blank' c member)) (trim row)
      rw [← same] at inner
      simp only [splitRow, inner]

theorem row_trim (draft : Draft) (line : Nat) (row : List Char) :
    draft.row line (trim row) = draft.row line row := by
  rw [Draft.row, Draft.row, splitRow_trim]

/-! ## One line -/

/-- What one line makes of a draft: a draft to go on with, or none where the line ends the table. -/
def Draft.line (draft : Draft) (number : Nat) (text : List Char) : Except Fault (Option Draft) :=
  match text.find? (!isBlank ·) with
  | none | some '#' => .ok (some draft)
  | some '.' =>
      if endsTable (words text) then .ok none else (draft.directive (words text)).map some
  | some _ => (draft.row number text).map some

theorem line_blank (blank : text.find? (!isBlank ·) = none) :
    draft.line number text = .ok (some draft) := by
  rw [Draft.line, blank]

theorem line_comment (first : text.find? (!isBlank ·) = some '#') :
    draft.line number text = .ok (some draft) := by
  rw [Draft.line, first]
  rfl

theorem line_directive (first : text.find? (!isBlank ·) = some '.') :
    draft.line number text =
      if endsTable (words text) then .ok none else (draft.directive (words text)).map some := by
  rw [Draft.line, first]
  rfl

theorem line_row {c : Char} (first : text.find? (!isBlank ·) = some c) (hash : c ≠ '#')
    (dot : c ≠ '.') : draft.line number text = (draft.row number text).map some := by
  rw [Draft.line, first]
  split
  · contradiction
  · rename_i same
    exact absurd (Option.some.inj same) hash
  · rename_i same
    exact absurd (Option.some.inj same) dot
  · rfl

theorem readFrom_cons (draft : Draft) (number : Nat) (text : List Char) (rest : List Line) :
    draft.readFrom number (.ok text :: rest) =
      match draft.line number text with
      | .ok (some next) => next.readFrom (number + 1) rest
      | .ok none => .ok draft
      | .error fault => .error (.malformed fault) := by
  have first := head?_trim text
  rw [Draft.readFrom]
  split
  · rename_i blank
    rw [blank] at first
    rw [line_blank first.symm]
  · rename_i comment
    rw [comment] at first
    rw [line_comment first.symm]
  · rename_i directive
    rw [directive] at first
    rw [line_directive first.symm, ← directive, words_trim]
    by_cases ends : endsTable (words text) = true
    · simp only [ends, if_true]
    · simp only [ends]
      cases draft.directive (words text) <;> rfl
  · rename_i blank comment directive
    cases parts : trim text with
    | nil => exact absurd parts blank
    | cons c tail =>
        rw [parts] at first
        rw [line_row first.symm (fun hash => comment tail (hash ▸ parts))
          (fun dot => directive tail (dot ▸ parts)), ← parts, row_trim]
        cases draft.row number text <;> rfl

theorem readFrom_preserves {P : Draft → Prop}
    (step : ∀ draft number text next,
      P draft → draft.line number text = .ok (some next) → P next)
    (start : P draft) (read : draft.readFrom number lines = .ok last) : P last := by
  induction lines generalizing draft number with
  | nil => exact Except.ok.inj read ▸ start
  | cons item rest ih =>
      cases item with
      | error fault => cases read
      | ok text =>
          rw [readFrom_cons] at read
          cases result : draft.line number text with
          | error fault => simp [result] at read
          | ok after =>
              cases after with
              | none =>
                  simp only [result] at read
                  exact Except.ok.inj read ▸ start
              | some next =>
                  simp only [result] at read
                  exact ih (step draft number text next start result) read

/-! ## What a line can change -/

def Draft.add (draft : Draft) (minterms : List Minterm) : RowKind → Draft
  | .on => { draft with onset := draft.onset ++ minterms }
  | .off => { draft with offset := draft.offset ++ minterms }
  | .dontCare => draft

@[simp] theorem add_width (draft : Draft) (minterms : List Minterm) (kind : RowKind) :
    (draft.add minterms kind).width = draft.width := by
  cases kind <;> rfl

@[simp] theorem add_names (draft : Draft) (minterms : List Minterm) (kind : RowKind) :
    (draft.add minterms kind).names = draft.names := by
  cases kind <;> rfl

@[simp] theorem add_output (draft : Draft) (minterms : List Minterm) (kind : RowKind) :
    (draft.add minterms kind).output = draft.output := by
  cases kind <;> rfl

theorem add_nil (draft : Draft) (kind : RowKind) : draft.add [] kind = draft := by
  cases kind <;> simp [Draft.add]

theorem add_append (draft : Draft) (minterms more : List Minterm) (kind : RowKind) :
    (draft.add minterms kind).add more kind = draft.add (minterms ++ more) kind := by
  cases kind <;> simp [Draft.add, ← Array.toList_inj]

theorem ok_of_map_some {step : Except Fault Draft} (read : step.map some = .ok (some next)) :
    step = .ok next := by
  cases step with
  | error fault => cases read
  | ok after => exact congrArg Except.ok (Option.some.inj (Except.ok.inj read))

theorem line_eq_some (read : draft.line number text = .ok (some next)) :
    next = draft ∨ draft.directive (words text) = .ok next ∨ draft.row number text = .ok next := by
  cases first : text.find? (!isBlank ·) with
  | none =>
      rw [line_blank first] at read
      exact .inl (Option.some.inj (Except.ok.inj read)).symm
  | some c =>
      by_cases hash : c = '#'
      · rw [line_comment (hash ▸ first)] at read
        exact .inl (Option.some.inj (Except.ok.inj read)).symm
      by_cases dot : c = '.'
      · rw [line_directive (dot ▸ first)] at read
        split at read
        · cases read
        · exact .inr (.inl (ok_of_map_some read))
      · rw [line_row first hash dot] at read
        exact .inr (.inr (ok_of_map_some read))

theorem directive_eq_ok {list : List String} (read : draft.directive list = .ok next) :
    next = draft ∨ (∃ width, next = { draft with width := some width }) ∨
      (∃ keyword names, list = keyword :: names ∧ next = { draft with names := some names }) ∨
      ∃ keyword names, list = keyword :: names ∧ next = { draft with output := names.head? } := by
  unfold Draft.directive at read
  split at read
  · rename_i rest
    cases count : readCount ".i" rest.head? with
    | error fault => simp [count, bind, Except.bind] at read
    | ok width =>
        rw [count] at read
        exact .inr (.inl ⟨width, (Except.ok.inj read).symm⟩)
  · rename_i rest
    cases count : readCount ".o" rest.head? with
    | error fault => simp [count, bind, Except.bind] at read
    | ok outputs =>
        rw [count] at read
        change (if outputs = 1 then Except.ok draft else _) = _ at read
        split at read
        · exact .inl (Except.ok.inj read).symm
        · cases read
  · rename_i names
    have := Except.ok.inj read
    split at this
    · exact .inl this.symm
    · exact .inr (.inr (.inl ⟨_, names, rfl, this.symm⟩))
  · rename_i names
    split at read
    · exact .inr (.inr (.inr ⟨_, names, rfl, (Except.ok.inj read).symm⟩))
    · cases read
  · exact .inl (Except.ok.inj read).symm

theorem row_eq {inputs outputs : List Char} {values : List (Option Bool)} {kind : RowKind}
    (parts : splitRow number draft.width row = .ok (inputs, outputs))
    (set : readInputs number 0 inputs = .ok values) (output : readOutput number outputs = .ok kind) :
    draft.row number row =
      if kind = .dontCare ∨ values.countP (·.isNone) ≤ maxFree then
        .ok ({ draft with width := draft.width.or (some inputs.length) }.add (fill values) kind)
      else .error (.tooManyFree number (values.countP (·.isNone)) maxFree) := by
  simp only [Draft.row, parts, set, output, bind, Except.bind]
  by_cases few : values.countP (·.isNone) ≤ maxFree
  · simp only [expandRow, few]
    cases kind <;> rfl
  · simp only [expandRow, few]
    cases kind <;> rfl

theorem row_eq_ok (read : draft.row number row = .ok next) :
    ∃ inputs outputs values kind, splitRow number draft.width row = .ok (inputs, outputs) ∧
      readInputs number 0 inputs = .ok values ∧ readOutput number outputs = .ok kind ∧
      (kind = .dontCare ∨ values.countP (·.isNone) ≤ maxFree) ∧
      next = { draft with width := draft.width.or (some inputs.length) }.add (fill values) kind := by
  cases parts : splitRow number draft.width row with
  | error fault => simp [Draft.row, parts, bind, Except.bind] at read
  | ok pair =>
      obtain ⟨inputs, outputs⟩ := pair
      cases set : readInputs number 0 inputs with
      | error fault => simp [Draft.row, parts, set, bind, Except.bind] at read
      | ok values =>
          cases output : readOutput number outputs with
          | error fault => simp [Draft.row, parts, set, output, bind, Except.bind] at read
          | ok kind =>
              rw [row_eq parts set output] at read
              split at read
              · rename_i few
                exact ⟨inputs, outputs, values, kind, rfl, set, output, few,
                  (Except.ok.inj read).symm⟩
              · cases read

/-! ## The end of a table -/

theorem ofMinterms?_of_size {minterms : List Minterm} (sized : ∀ m ∈ minterms, m.1.size = n) :
    ∃ rows, Rows.ofMinterms? n minterms = .ok rows ∧ rows.1.minterms = minterms.map (·.1) := by
  unfold Rows.ofMinterms?
  split
  · rename_i m found
    have wrong := List.find?_some found
    simp [sized m (List.mem_of_find?_eq_some found)] at wrong
  · exact ⟨_, rfl, rfl⟩

theorem size_of_finalNames {names : Names} (named : draft.finalNames n = .ok names) :
    names.size = n := by
  unfold Draft.finalNames at named
  split at named
  · cases named
    exact Names.size_generated n
  · rename_i list given
    split at named
    · rename_i length
      cases named
      rw [Names.size_eq, Names.toList_ofList, length]
    · cases named

theorem finish_of_size (width : draft.width = some n) (named : draft.finalNames n = .ok names)
    (onset : ∀ m ∈ draft.onset.toList, m.1.size = n)
    (offset : ∀ m ∈ draft.offset.toList, m.1.size = n) :
    ∃ t, draft.finish = .ok t ∧ t.arity = n ∧ t.names = names ∧
      t.output = draft.output.getD defaultOutput ∧
      t.onset.minterms = draft.onset.toList.map (·.1) ∧
      t.offset.minterms = draft.offset.toList.map (·.1) := by
  obtain ⟨⟨on, arity⟩, made, minterms⟩ := ofMinterms?_of_size onset
  obtain ⟨⟨off, arity'⟩, made', minterms'⟩ := ofMinterms?_of_size offset
  refine ⟨⟨names, draft.output.getD defaultOutput, on, off, arity.trans arity'.symm⟩, ?_, arity, rfl,
    rfl, minterms, minterms'⟩
  simp only [Draft.finish, width, named, made, made']

theorem minterms_of_ofMinterms? {minterms : List Minterm}
    {rows : { rows : Rows // rows.arity = n }} (made : Rows.ofMinterms? n minterms = .ok rows) :
    rows.1.minterms = minterms.map (·.1) := by
  unfold Rows.ofMinterms? at made
  split at made
  · cases made
  · rw [← Except.ok.inj made]

theorem finish_eq_ok {t : Table} (finished : draft.finish = .ok t) :
    draft.width = some t.arity ∧ draft.finalNames t.arity = .ok t.names ∧
      t.output = draft.output.getD defaultOutput ∧
      t.onset.minterms = draft.onset.toList.map (·.1) ∧
      t.offset.minterms = draft.offset.toList.map (·.1) := by
  unfold Draft.finish at finished
  split at finished
  · cases finished
  rename_i width known
  split at finished
  · cases finished
  rename_i names named
  split at finished
  · cases finished
  rename_i onset made
  split at finished
  · cases finished
  rename_i offset made'
  cases finished
  have arity : onset.1.arity = width := onset.2
  refine ⟨?_, ?_, rfl, minterms_of_ofMinterms? made, minterms_of_ofMinterms? made'⟩
  · rw [known]
    exact congrArg some arity.symm
  · change draft.finalNames onset.1.arity = _
    rw [arity]
    exact named

theorem ofString_eq_ok {t : Table} {text : String} :
    ofString text = .ok t ↔
      ∃ draft, Draft.readFrom {} 1 (linesOfString text) = .ok draft ∧ draft.finish = .ok t := by
  rw [ofString, ofLines]
  cases Draft.readFrom {} 1 (linesOfString text) with
  | error fault => simp [bind, Except.bind]
  | ok draft => simp [bind, Except.bind]

end TwoLevel.Table
