import TwoLevel.Command.Run

/-!
The command line program.
-/

namespace TwoLevel.Command

def faultOf : IO.Error → FileFault
  | .noFileOrDirectory .. => .notFound
  | .inappropriateType _ 20 _ => .notDirectory
  | .inappropriateType .. => .isDirectory
  | .invalidArgument _ 36 _ => .nameTooLong
  | .resourceExhausted _ 28 _ => .noSpace
  | .noSuchThing _ 6 _ => .noDevice
  | .permissionDenied _ code details =>
      .device (details ++ " (os error " ++ toString code ++ ")")
  | other => .device (toString other)

def readTableFile (path : String) : IO (Except Table.ReadError Table) := do
  try
    let file ← IO.FS.Handle.mk path .read
    return Table.ofBytes (← file.readBinToEnd).toList none
  catch e => return .error (.unreadable (faultOf e))

def report (message : String) (code : UInt32) : IO UInt32 := do
  IO.eprintln message
  return code

def Action.execute : Action → IO UInt32
  | .print text => do
      IO.print text
      return 0
  | .fail message => report message 1
  | .abort message => report message 101
  | .save path text => do
      try
        let file ← IO.FS.Handle.mk path .write
        file.putStr text
        file.flush
        return 0
      catch e => report (writeFailure (faultOf e)) 1

def Request.execute : Request → IO UInt32
  | .misuse => do
      IO.eprintln "usage: boom [OPTIONS] FILE"
      return 2
  | .version => do
      IO.print versionText
      return 0
  | .run options => do
      let entropy ← IO.rand 0 (UInt64.size - 1)
      let contents ← readTableFile (options.file.getD "")
      (options.perform contents (.ofNat entropy)).execute

end TwoLevel.Command

def main (arguments : List String) : IO UInt32 :=
  (TwoLevel.Command.Request.ofArguments arguments).execute
