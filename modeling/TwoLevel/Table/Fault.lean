import TwoLevel.Failure
import TwoLevel.Text.Lines

/-!
What can be wrong with the text of a table.
-/

namespace TwoLevel

namespace Table

inductive Fault where
  | invalidCount (directive value : String)
  | unsupportedOutputs (count : Nat)
  | inputCharacter (line : Nat) (character : Char) (position : Nat)
  | outputCharacter (line : Nat) (character : Char)
  /-- The row has another number of inputs than the table has variables. -/
  | rowWidth (line expected actual : Nat)
  | missingOutput (line : Nat)
  /-- The row leaves more inputs open than are written out. -/
  | tooManyFree (line count limit : Nat)
  | nameCount (expected actual : Nat)
  | missingDimensions
  /-- One more than the number of variables is too great for a word, and the reader breaks off. No
  caller gets this as an answer. -/
  | overflow
deriving DecidableEq, Repr

def Fault.message : Fault → String
  | invalidCount directive value =>
      directive ++ " expects a count, found '" ++ value ++ "'"
  | unsupportedOutputs count =>
      s!"Only single-output tables can be minimized, found {count} outputs"
  | inputCharacter line character position =>
      s!"Line {line}: '" ++ character.toString
        ++ s!"' is not an input value (variable {position})"
  | outputCharacter line character =>
      s!"Line {line}: '" ++ character.toString ++ "' is not an output value"
  | rowWidth line expected actual =>
      s!"Line {line}: row has {actual} inputs, table has {expected} variables"
  | missingOutput line => s!"Line {line}: row has no output value"
  | tooManyFree line count limit =>
      s!"Line {line}: row has {count} don't-care inputs, at most {limit} are expanded"
  | nameCount expected actual => s!".ilb names {actual} variables, table has {expected}"
  | missingDimensions => "Table has no .i directive and no rows"
  | overflow => "mid > len"

inductive ReadError where
  | malformed (fault : Fault)
  | invalid (failure : Failure)
  | unreadable (fault : FileFault)
deriving DecidableEq

namespace ReadError

def detail : ReadError → String
  | malformed fault => fault.message
  | invalid failure => failure.message
  | unreadable fault => fault.message

def message (e : ReadError) : String :=
  let kind := match e with
    | malformed _ => "Malformed PLA: "
    | invalid _ => "Invalid truth table: "
    | unreadable _ => "IO error: "
  kind ++ e.detail

end ReadError

end Table

def FileFault.report (fault : FileFault) : String := "IO error: " ++ fault.message

end TwoLevel
