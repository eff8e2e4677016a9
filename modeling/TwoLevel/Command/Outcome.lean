import TwoLevel.Command.Run
import TwoLevel.Command.Files

/-!
Runs of the command on files, with all that can be seen of them afterwards.
-/

namespace TwoLevel.Command

structure Outcome extends Effects where
  code : Nat := 0

namespace Files

def readTable (files : Files) (path : String) : Except Table.ReadError Table :=
  match files.read path with
  | .error fault => .error (.unreadable fault)
  | .ok text => Table.ofString text

def finish (files : Files) : Action → Outcome
  | .print text => { files, output := text }
  | .fail message => { files, report := message, code := 1 }
  | .abort message => { files, report := message, code := 101 }
  | .save path text =>
      match files.write path text with
      | .ok effects => { effects with }
      | .error fault => { files, report := writeFailure fault, code := 1 }

def run (files : Files) (arguments : List String) (entropy : UInt64) : Outcome :=
  match Request.ofArguments arguments with
  | .misuse => { files, code := 2 }
  | .version => { files, output := versionText }
  | .run options =>
      files.finish (options.perform (files.readTable (options.file.getD "")) entropy)

end Files

end TwoLevel.Command
