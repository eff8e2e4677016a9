import TwoLevel.Number.Decimal
import TwoLevel.Graph.Centrality

/-!
The options of the command line. They and the name of the file may come in any order; an option that
takes a value has it attached or as the next argument, and no option but `verbose` is given twice.
-/

namespace TwoLevel.Command

inductive Job where
  | minimize
  | stats
  | echo
deriving DecidableEq, Repr

inductive StrategyKind where
  | frequency
  | social
deriving DecidableEq, Repr

structure Options where
  file : Option String := none
  job : Option Job := none
  iterations : Option Nat := none
  seed : Option Nat := none
  threads : Option Nat := none
  strategy : Option StrategyKind := none
  interactivity : Option Float := none
  centrality : Option Centrality := none
  clean : Bool := false
  budget : Option Nat := none
  target : Option String := none
  verbosity : Nat := 0

inductive Setting where
  | job
  | iterations
  | seed
  | threads
  | strategy
  | interactivity
  | centrality
  | budget
  | target
deriving DecidableEq, Repr

inductive Flag where
  | clean
  | verbose
  | version
deriving DecidableEq, Repr

inductive Switch where
  | setting (setting : Setting)
  | flag (flag : Flag)

def longSwitch? : String → Option Switch
  | "do" => some (.setting .job)
  | "iterations" => some (.setting .iterations)
  | "seed" => some (.setting .seed)
  | "threads" => some (.setting .threads)
  | "strategy" => some (.setting .strategy)
  | "interactivity" => some (.setting .interactivity)
  | "centrality" => some (.setting .centrality)
  | "node-budget" => some (.setting .budget)
  | "out-file" => some (.setting .target)
  | "clean" => some (.flag .clean)
  | "verbose" => some (.flag .verbose)
  | "version" => some (.flag .version)
  | _ => none

def shortSwitch? : Char → Option Switch
  | 'D' => some (.setting .job)
  | 'i' => some (.setting .iterations)
  | 's' => some (.setting .seed)
  | 'j' => some (.setting .threads)
  | 'O' => some (.setting .target)
  | 'v' => some (.flag .verbose)
  | 'V' => some (.flag .version)
  | _ => none

def job? (value : List Char) : Option Job :=
  match String.ofList value with
  | "minimize" => some .minimize
  | "stats" => some .stats
  | "echo" => some .echo
  | _ => none

def strategy? (value : List Char) : Option StrategyKind :=
  match String.ofList value with
  | "frequency" => some .frequency
  | "social" => some .social
  | _ => none

def centrality? (value : List Char) : Option Centrality :=
  match String.ofList value with
  | "degree" => some .degree
  | "betweenness" => some .betweenness
  | _ => none

def path? (value : List Char) : Option String :=
  if value.isEmpty then none else some (.ofList value)

def fill {α : Type} (place value : Option α) : Option (Option α) :=
  match place, value with
  | none, some value => some (some value)
  | _, _ => none

namespace Options

/-- Gives a setting its value, unless it has one or the value does not fit. -/
def set (o : Options) (setting : Setting) (value : List Char) : Option Options :=
  match setting with
  | .job => (fill o.job (job? value)).map fun v => { o with job := v }
  | .iterations => (fill o.iterations (Number.count? value)).map fun v => { o with iterations := v }
  | .seed => (fill o.seed (Number.count? value)).map fun v => { o with seed := v }
  | .threads => (fill o.threads (Number.count? value)).map fun v => { o with threads := v }
  | .strategy => (fill o.strategy (strategy? value)).map fun v => { o with strategy := v }
  | .interactivity =>
      (fill o.interactivity (Number.float? value)).map fun v => { o with interactivity := v }
  | .centrality => (fill o.centrality (centrality? value)).map fun v => { o with centrality := v }
  | .budget => (fill o.budget (Number.count? value)).map fun v => { o with budget := v }
  | .target => (fill o.target (path? value)).map fun v => { o with target := v }

def setFile (o : Options) (value : List Char) : Option Options :=
  (fill o.file (path? value)).map fun v => { o with file := v }

end Options

inductive Request where
  | run (options : Options)
  | version
  | misuse

/-- What one argument comes to: options, or a setting whose value is the next argument. -/
inductive Progress where
  | done (options : Options)
  | awaits (setting : Setting) (options : Options)
  | version
  | misuse

def Progress.ofOptions? : Option Options → Progress
  | some options => .done options
  | none => .misuse

def raise (o : Options) : Flag → Progress
  | .clean => if o.clean then .misuse else .done { o with clean := true }
  | .verbose => .done { o with verbosity := o.verbosity + 1 }
  | .version => .version

def attached : List Char → List Char
  | '=' :: value => value
  | value => value

/-- Short options written together; the first that takes a value takes the rest. -/
def readShort (o : Options) : List Char → Progress
  | [] => .done o
  | c :: rest =>
      match shortSwitch? c with
      | none => .misuse
      | some (.setting setting) =>
          if rest.isEmpty then .awaits setting o
          else .ofOptions? (o.set setting (attached rest))
      | some (.flag flag) =>
          match raise o flag with
          | .done o => readShort o rest
          | other => other

def readLong (o : Options) (text : List Char) : Progress :=
  let (name, tail) := text.span (· != '=')
  match longSwitch? (.ofList name), tail with
  | some (.setting setting), [] => .awaits setting o
  | some (.setting setting), _ :: value => .ofOptions? (o.set setting value)
  | some (.flag flag), [] => raise o flag
  | _, _ => .misuse

def readPlain (o : Options) (text : List Char) : Progress := .ofOptions? (o.setFile text)

def isOption : List Char → Bool
  | '-' :: _ :: _ => true
  | _ => false

def readArgument (o : Options) : List Char → Progress
  | '-' :: '-' :: text => readLong o text
  | '-' :: c :: text => readShort o (c :: text)
  | text => readPlain o text

def Options.request (o : Options) : Request :=
  if o.file.isSome then .run o else .misuse

/-- Arguments after a bare `--` are no options. -/
def readRest (o : Options) : List String → Request
  | [] => o.request
  | arg :: rest =>
      match o.setFile arg.toList with
      | some o => readRest o rest
      | none => .misuse

def readArguments (o : Options) : List String → Request
  | [] => o.request
  | arg :: rest =>
      if arg = "--" then readRest o rest
      else
        match readArgument o arg.toList with
        | .done o => readArguments o rest
        | .version => .version
        | .misuse => .misuse
        | .awaits setting o =>
            match rest with
            | [] => .misuse
            | value :: rest =>
                if isOption value.toList then .misuse
                else
                  match o.set setting value.toList with
                  | some o => readArguments o rest
                  | none => .misuse

def Request.ofArguments (arguments : List String) : Request := readArguments {} arguments

end TwoLevel.Command
