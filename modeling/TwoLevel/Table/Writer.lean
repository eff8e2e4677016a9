import TwoLevel.Table.Basic

/-!
The text of tables and covers: directives for the number and the names of variables and output, then
one line for each row, its inputs followed by its output.
-/

namespace TwoLevel

def joinLines (lines : List String) : String := String.join (lines.map (· ++ "\n"))

namespace Table

def headerLines (arity : Nat) (names : Names) (output : String) : List String :=
  let nameLine := " ".intercalate (".ilb" :: names.toList.take arity)
  [".i " ++ toString arity] ++ (if 0 < arity then [nameLine] else [])
    ++ [".o 1", ".ob " ++ output]

/-- The input character of a variable: its value, or `-` if the cube leaves it free. -/
def inputCharacter : Option Polarity → Char
  | some .normal => '1'
  | some .complement => '0'
  | none => '-'

def rowLine (arity : Nat) (output : Char) (c : Cube) : String :=
  let inputs := (List.range arity).map fun var => inputCharacter (c.polarityOf? var)
  String.ofList (inputs ++ [' ', output])

def lines (t : Table) : List String :=
  [".type fr"] ++ headerLines t.arity t.names t.output
    ++ [".p " ++ toString (t.onset.size + t.offset.size)]
    ++ t.onset.minterms.map (rowLine t.arity '1')
    ++ t.offset.minterms.map (rowLine t.arity '0')
    ++ [".end"]

def text (t : Table) : String := joinLines t.lines

end Table

namespace NamedCover

def lines (c : NamedCover) : List String :=
  [".type f"] ++ Table.headerLines c.arity c.names c.output
    ++ [".p " ++ toString c.cubes.size]
    ++ c.cubes.cubes.map (Table.rowLine c.arity '1')
    ++ [".e"]

def text (c : NamedCover) : String := joinLines c.lines

end NamedCover

end TwoLevel
