import TwoLevel.Command.Options
import TwoLevel.Scoring.Social
import TwoLevel.Solution
import TwoLevel.Table.Reader
import TwoLevel.Table.Writer

/-!
Runs of the command: what to print, to save or to report, given the options and the contents of the
file.
-/

namespace TwoLevel.Command

inductive Action where
  | print (text : String)
  | save (path text : String)
  | fail (message : String)
  /-- The run breaks off before it has an answer. -/
  | abort (message : String)
deriving DecidableEq, Repr

def versionText : String := "boom 0.1.0\n"

def statistics (t : Table) : String :=
  let side (rows : Rows) := s!"{rows.size} ({rows.distinct.length} distinct)"
  joinLines
    ["PLA Statistics:",
      "  Inputs:              " ++ toString t.arity,
      "  Onset rows:          " ++ side t.onset,
      "  Offset rows:         " ++ side t.offset,
      "  Conflicting minterms: " ++ toString t.conflicts.length]

namespace Options

def config (o : Options) : Config where
  iterations := o.iterations.getD 2
  seed := o.seed.map .ofNat
  workers := max (o.threads.getD 1) 1
  budget := o.budget

def scoring (o : Options) (t : Table) : Except Failure Scoring :=
  match o.strategy.getD .frequency with
  | .frequency => .ok .frequency
  | .social =>
      (Social.ofRows t.onset t.offset (o.interactivity.getD 0.5) (o.centrality.getD .degree)
        Social.defaultResolution).map (·.scoring)

def emit (o : Options) (text : String) : Action :=
  match o.target with
  | none => .print text
  | some path => .save path text

def minimizeTable (o : Options) (t : Table) (entropy : UInt64) : Action :=
  match o.scoring t with
  | .error failure => .fail ("Error building social strategy: " ++ failure.message)
  | .ok scoring =>
      match minimize o.config scoring t.onset t.offset entropy with
      | .error .overflow => .abort Failure.overflow.message
      | .error failure => .fail ("Error minimizing: " ++ failure.message)
      | .ok solution => o.emit (t.withCubes solution.cover).text

def perform (o : Options) (contents : Except Table.ReadError Table) (entropy : UInt64) : Action :=
  match contents with
  | .error (.malformed .overflow) => .abort Table.Fault.overflow.message
  | .error e =>
      .fail ("Error reading PLA file '" ++ o.file.getD "" ++ "': " ++ e.message)
  | .ok t =>
      let t := if o.clean then t.clean.1 else t
      match o.job.getD .minimize with
      | .stats => .print (statistics t)
      | .echo => o.emit t.text
      | .minimize => o.minimizeTable t entropy

end Options

def writeFailure (fault : FileFault) : String := "Error writing output: " ++ fault.report

end TwoLevel.Command
