import TwoLevel.Text.Blank

/-!
Files: how access to one may fail, and the lines of its contents.
-/

namespace TwoLevel

inductive FileFault where
  | notFound
  | isDirectory
  | notDirectory
  | nameTooLong
  | noSpace
  | noDevice
  | notText
  /-- A fault of the device, in its own words. -/
  | device (message : String)
deriving DecidableEq, Repr

def FileFault.message : FileFault → String
  | notFound => "No such file or directory (os error 2)"
  | isDirectory => "Is a directory (os error 21)"
  | notDirectory => "Not a directory (os error 20)"
  | nameTooLong => "File name too long (os error 36)"
  | noSpace => "No space left on device (os error 28)"
  | noDevice => "No such device or address (os error 6)"
  | notText => "stream did not contain valid UTF-8"
  | device message => message

namespace Text

abbrev Line := Except FileFault (List Char)

def linesOfString (text : String) : List Line :=
  (pieces (· == '\n') text.toList).map .ok

def decodeLine (bytes : List UInt8) : Line :=
  match String.fromUTF8? ⟨bytes.toArray⟩ with
  | some line => .ok line.toList
  | none => .error .notText

/-- The lines of the bytes. If reading broke off after them, the fault takes the place of the last
line. -/
def linesOfBytes (bytes : List UInt8) (broken : Option FileFault) : List Line :=
  let lines := pieces (· == 10) bytes
  match broken with
  | none => lines.map decodeLine
  | some fault => lines.dropLast.map decodeLine ++ [.error fault]

/-- Writes a text where there is room for `capacity` bytes: what was written, and whether it was
all. -/
def writeWithin (capacity : Nat) (text : String) : ByteArray × Bool :=
  let bytes := text.toUTF8
  (bytes.extract 0 capacity, bytes.size ≤ capacity)

end Text

end TwoLevel
