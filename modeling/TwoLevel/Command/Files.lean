import TwoLevel.Text.Lines

/-!
The files that a run can reach, and what reading and writing them by path does.

A path is walked name by name. The first name that cannot be passed decides the fault, so a fault
at the end of a path is found only if all before it can be passed.
-/

namespace TwoLevel.Command

inductive Device where
  /-- Holds nothing and drops what is written. -/
  | null
  /-- Has room for nothing. -/
  | full
  /-- Holds random bytes, which are no text. -/
  | noise
  /-- The terminal, which a run does not have. -/
  | terminal
  | output
  | report
deriving DecidableEq, Repr

inductive Entry where
  | folder
  | text (contents : String)
  | device (device : Device)
deriving DecidableEq, Repr

abbrev Place := List String

/-- The folder of the run. No path has a name for it, but it can be reached without one. -/
def home : Place := ["tmp", "."]

def folders : List Place :=
  [[], home, ["bin"], ["boot"], ["dev"], ["etc"], ["home"], ["lib"], ["media"], ["mnt"], ["opt"],
    ["proc"], ["root"], ["run"], ["sbin"], ["srv"], ["sys"], ["tmp"], ["usr"], ["var"],
    ["dev", "pts"], ["dev", "shm"], ["proc", "self"], ["proc", "self", "fd"], ["usr", "bin"],
    ["usr", "lib"], ["usr", "local"], ["usr", "sbin"], ["usr", "share"], ["var", "cache"],
    ["var", "lib"], ["var", "log"], ["var", "tmp"]]

def follow : Place → Place
  | ["dev", "fd"] => ["proc", "self", "fd"]
  | ["dev", "stdin"] => ["proc", "self", "fd", "0"]
  | ["dev", "stdout"] => ["proc", "self", "fd", "1"]
  | ["dev", "stderr"] => ["proc", "self", "fd", "2"]
  | ["proc", "self", "cwd"] => home
  | ["proc", "self", "root"] => []
  | place => place

/-- A run has no input, so what stands for the input is empty. -/
def Device.ofPlace? : Place → Option Device
  | ["dev", "null"] | ["dev", "zero"] | ["proc", "self", "fd", "0"] => some .null
  | ["dev", "full"] => some .full
  | ["dev", "random"] | ["dev", "urandom"] => some .noise
  | ["dev", "tty"] => some .terminal
  | ["proc", "self", "fd", "1"] => some .output
  | ["proc", "self", "fd", "2"] => some .report
  | _ => none

/-- What a device without end holds is not modelled: it counts as empty. -/
def Device.contents : Device → Except FileFault String
  | .noise => .error .notText
  | .terminal => .error .noDevice
  | _ => .ok ""

def Entry.contents : Entry → Except FileFault String
  | .folder => .error .isDirectory
  | .text written => .ok written
  | .device found => found.contents

def nameLimit : Nat := 255

def pathLimit : Nat := 4095

def absence (name : String) : FileFault :=
  if nameLimit < name.utf8ByteSize then .nameTooLong else .notFound

structure Files where
  texts : List (Place × String)
deriving DecidableEq, Repr

structure Effects where
  files : Files
  output : String := ""
  report : String := ""

namespace Files

def namesOfPath (path : String) : List String :=
  (Text.fields (· == '/') path.toList).map .ofList

def ofFolder (texts : List (String × String)) : Files :=
  ⟨texts.map fun (path, text) => (home ++ namesOfPath path, text)⟩

/-- A folder is there, too, if a text lies below it. -/
def hasFolder (files : Files) (place : Place) : Bool :=
  folders.contains place ||
    files.texts.any fun (other, _) => place.length < other.length && place.isPrefixOf other

def find? (files : Files) (place : Place) : Option Entry :=
  if files.hasFolder place then some .folder
  else
    match Device.ofPlace? place with
    | some device => some (.device device)
    | none => (files.texts.lookup place).map .text

/-- Where names lead from a place. Only the last may be that of nothing or of no folder. -/
def walk (files : Files) (place : Place) : List String → Except FileFault Place
  | [] => .ok place
  | "." :: rest => files.walk place rest
  | ".." :: rest => files.walk place.dropLast rest
  | name :: rest =>
      let next := follow (place ++ [name])
      if rest.isEmpty then .ok next
      else
        match files.find? next with
        | some .folder => files.walk next rest
        | some _ => .error .notDirectory
        | none => .error (absence name)

def locate (files : Files) (path : String) : Except FileFault Place :=
  if path.isEmpty then .error .notFound
  else if pathLimit < path.utf8ByteSize then .error .nameTooLong
  else files.walk (if path.startsWith "/" then [] else home) (namesOfPath path)

def isClosed (path : String) : Bool := path.endsWith "/"

def read (files : Files) (path : String) : Except FileFault String :=
  match files.locate path with
  | .error fault => .error fault
  | .ok place =>
      match files.find? place with
      | none => .error (absence (place.getLastD ""))
      | some .folder => .error .isDirectory
      | some entry => if isClosed path then .error .notDirectory else entry.contents

def put (files : Files) (place : Place) (text : String) : Files :=
  ⟨(place, text) :: files.texts.filter fun entry => entry.1 ≠ place⟩

def writeDevice (files : Files) (text : String) : Device → Except FileFault Effects
  | .null | .noise => .ok { files }
  | .full => .error .noSpace
  | .terminal => .error .noDevice
  | .output => .ok { files, output := text }
  | .report => .ok { files, report := text }

/-- Below `proc` nothing can be made. -/
def writePlace (files : Files) (place : Place) (text : String) : Except FileFault Effects :=
  match files.find? place with
  | some .folder => .error .isDirectory
  | some (.device device) => files.writeDevice text device
  | some (.text _) => .ok { files := files.put place text }
  | none =>
      match absence (place.getLastD "") with
      | .notFound =>
          if place.head? = some "proc" then .error .notFound
          else .ok { files := files.put place text }
      | fault => .error fault

/-- That a path is closed is found before the last name is looked at. -/
def write (files : Files) (path text : String) : Except FileFault Effects :=
  match files.locate path with
  | .error fault => .error fault
  | .ok place => if isClosed path then .error .isDirectory else files.writePlace place text

end Files

end TwoLevel.Command
