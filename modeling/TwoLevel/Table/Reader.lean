import TwoLevel.Table.Basic
import TwoLevel.Table.Fault
import TwoLevel.Number.Decimal

/-!
Tables read from text. Lines are read in turn until one ends the table: blank lines and comments
are passed over, a directive starts with a point, and every other line is a row. A row may leave
inputs open; it then stands for all the rows that fill them in.
-/

namespace TwoLevel.Table

structure Draft where
  width : Option Nat := none
  names : Option (List String) := none
  output : Option String := none
  onset : Array Minterm := #[]
  offset : Array Minterm := #[]

inductive RowKind where
  | on
  | off
  | dontCare
deriving DecidableEq, Repr

def maxFree : Nat := 16

def defaultOutput : String := "f"

def readCount (directive : String) (value : Option String) : Except Fault Nat :=
  match value.bind fun word => Number.count? word.toList with
  | some count => .ok count
  | none => .error (.invalidCount directive (value.getD ""))

/-- Reads a directive; one that is not known changes nothing. -/
def Draft.directive (draft : Draft) : List String → Except Fault Draft
  | ".i" :: rest => do
      let width ← readCount ".i" rest.head?
      return { draft with width := some width }
  | ".o" :: rest => do
      let count ← readCount ".o" rest.head?
      if count = 1 then return draft else .error (.unsupportedOutputs count)
  | ".ilb" :: names =>
      .ok (if names.isEmpty then draft else { draft with names := some names })
  | ".ob" :: names =>
      if names.length ≤ 1 then .ok { draft with output := names.head? }
      else .error (.unsupportedOutputs names.length)
  | _ => .ok draft

def isGap (c : Char) : Bool := Text.isBlank c || c == '|'

/-- The inputs and the outputs of a row. Once the width is known, gaps may be anywhere; before, they
stand between the inputs and the output only. Lengths are compared as words, so a row without inputs
and outputs passes for one of the greatest width, but it cannot be cut there. -/
def splitRow (line : Nat) (width : Option Nat) (row : List Char) :
    Except Fault (List Char × List Char) :=
  match width with
  | some width =>
      let packed := row.filter (!isGap ·)
      if packed.length % UInt64.size = (width + 1) % UInt64.size then
        if width ≤ packed.length then .ok (packed.take width, packed.drop width)
        else .error .overflow
      else .error (.rowWidth line width (packed.length - 1))
  | none =>
      match Text.fields isGap row with
      | [inputs, outputs] => .ok (inputs, outputs)
      | [] | [_] => .error (.missingOutput line)
      | _ :: outputs => .error (.unsupportedOutputs outputs.flatten.length)

def input? : Char → Option (Option Bool)
  | '0' => some (some false)
  | '1' => some (some true)
  | '-' | '~' | 'x' | 'X' => some none
  | _ => none

def readInputs (line position : Nat) : List Char → Except Fault (List (Option Bool))
  | [] => .ok []
  | c :: rest =>
      match input? c with
      | none => .error (.inputCharacter line c position)
      | some value => do return value :: (← readInputs line (position + 1) rest)

def rowKind? : Char → Option RowKind
  | '1' | '4' => some .on
  | '0' | '3' => some .off
  | '-' | '~' | '2' => some .dontCare
  | _ => none

def readOutput (line : Nat) : List Char → Except Fault RowKind
  | [c] =>
      match rowKind? c with
      | some kind => .ok kind
      | none => .error (.outputCharacter line c)
  | outputs => .error (.unsupportedOutputs outputs.length)

/-- The literals from variable `first` on, for all ways to fill in the open inputs; the first one
changes fastest. Ways that end alike share their ends. -/
def fillings (first : Nat) : List (Option Bool) → List (List Literal)
  | [] => [[]]
  | some value :: rest =>
      let l : Literal := ⟨first, .ofValue value⟩
      (fillings (first + 1) rest).map (l :: ·)
  | none :: rest =>
      let off := Literal.complement first
      let on := Literal.normal first
      (fillings (first + 1) rest).flatMap fun literals => [off :: literals, on :: literals]

theorem exists_of_mem_fillings {first : Nat} {inputs : List (Option Bool)}
    {literals : List Literal} (member : literals ∈ fillings first inputs) :
    ∃ values, literals = Cube.literalsFrom first values := by
  induction inputs generalizing first literals with
  | nil => exact ⟨[], by simpa [fillings, Cube.literalsFrom] using member⟩
  | cons input rest ih =>
      cases input with
      | some value =>
          obtain ⟨tail, inside, rfl⟩ := List.mem_map.1 member
          obtain ⟨values, rfl⟩ := ih inside
          exact ⟨value :: values, rfl⟩
      | none =>
          obtain ⟨tail, inside, either⟩ := List.mem_flatMap.1 member
          obtain ⟨values, rfl⟩ := ih inside
          simp only [List.mem_cons, List.not_mem_nil, or_false] at either
          rcases either with rfl | rfl
          · exact ⟨false :: values, rfl⟩
          · exact ⟨true :: values, rfl⟩

def fill (inputs : List (Option Bool)) : List Minterm :=
  (fillings 0 inputs).attach.map fun ⟨literals, member⟩ =>
    have ascending : literals.Pairwise (fun l m => l.var < m.var) := by
      obtain ⟨values, rfl⟩ := exists_of_mem_fillings member
      exact Cube.ascending_literalsFrom 0 values
    ⟨⟨literals, ascending⟩, (exists_of_mem_fillings member).elim fun _ same =>
      Cube.isMinterm_of_literals same⟩

def expandRow (line : Nat) (inputs : List (Option Bool)) : Except Fault (List Minterm) :=
  let free := inputs.countP (·.isNone)
  if free ≤ maxFree then .ok (fill inputs) else .error (.tooManyFree line free maxFree)

/-- Reads a row. The first row of a table that has not said its width sets it. -/
def Draft.row (draft : Draft) (line : Nat) (row : List Char) : Except Fault Draft := do
  let (inputs, outputs) ← splitRow line draft.width row
  let draft := { draft with width := draft.width.or (some inputs.length) }
  let values ← readInputs line 0 inputs
  match ← readOutput line outputs with
  | .on => return { draft with onset := draft.onset ++ (← expandRow line values) }
  | .off => return { draft with offset := draft.offset ++ (← expandRow line values) }
  | .dontCare => return draft

def endsTable (words : List String) : Bool :=
  words.head? == some ".e" || words.head? == some ".end"

def Draft.readFrom (draft : Draft) (line : Nat) : List Text.Line → Except ReadError Draft
  | [] => .ok draft
  | .error fault :: _ => .error (.unreadable fault)
  | .ok text :: rest =>
      match Text.trim text with
      | [] => draft.readFrom (line + 1) rest
      | '#' :: _ => draft.readFrom (line + 1) rest
      | '.' :: tail =>
          let words := Text.words ('.' :: tail)
          if endsTable words then .ok draft
          else
            match draft.directive words with
            | .ok draft => draft.readFrom (line + 1) rest
            | .error fault => .error (.malformed fault)
      | row =>
          match draft.row line row with
          | .ok draft => draft.readFrom (line + 1) rest
          | .error fault => .error (.malformed fault)

def Draft.finalNames (draft : Draft) (width : Nat) : Except Fault Names :=
  match draft.names with
  | none => .ok (.generated width)
  | some names =>
      if names.length = width then .ok (.ofList names)
      else .error (.nameCount width names.length)

def Draft.finish (draft : Draft) : Except ReadError Table :=
  match draft.width with
  | none => .error (.malformed .missingDimensions)
  | some width =>
      match draft.finalNames width with
      | .error fault => .error (.malformed fault)
      | .ok names =>
          match Rows.ofMinterms? width draft.onset.toList with
          | .error failure => .error (.invalid failure)
          | .ok onset =>
              match Rows.ofMinterms? width draft.offset.toList with
              | .error failure => .error (.invalid failure)
              | .ok offset =>
                  .ok ⟨names, draft.output.getD defaultOutput, onset.1, offset.1,
                    onset.2.trans offset.2.symm⟩

def ofLines (lines : List Text.Line) : Except ReadError Table := do
  (← Draft.readFrom {} 1 lines).finish

def ofString (text : String) : Except ReadError Table := ofLines (Text.linesOfString text)

/-- Reads a table from bytes, after which reading may have broken off. -/
def ofBytes (bytes : List UInt8) (broken : Option FileFault) : Except ReadError Table :=
  ofLines (Text.linesOfBytes bytes broken)

end TwoLevel.Table
