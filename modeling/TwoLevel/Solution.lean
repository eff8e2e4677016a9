import TwoLevel.Implicant
import TwoLevel.Prime
import TwoLevel.Cover

/-!
Minimization of a function given by its onset and its offset: implicants from several independent
searches, primes from the implicants, a cover from the primes.
-/

namespace TwoLevel

structure Config where
  /-- How many searches there are, each on random words of its own. -/
  iterations : Nat := 2
  seed : Option UInt64 := none
  workers : Nat := 1
  /-- The limit on the work items of each search and each later stage. -/
  budget : Option Nat := none
  /-- Whether to refuse an onset and an offset that share a row before anything else. -/
  validate : Bool := true
deriving DecidableEq, Repr

/-- The random words of a run; without a seed of its own it starts from `entropy`. -/
def Config.source (config : Config) (entropy : UInt64) : Source :=
  .ofSeed (config.seed.getD entropy)

structure Solution where
  implicants : CubeSet := ∅
  primes : CubeSet := ∅
  cover : CubeSet := ∅
deriving DecidableEq

def Solution.verify (s : Solution) (onset offset : Rows) : Bool :=
  onset.minterms.all s.cover.admits && s.cover.cubes.all (!offset.meets ·)

/-- Lists of `size` elements, the last one perhaps shorter. -/
def chunks {α : Type} (size : Nat) (l : List α) : List (List α) :=
  if _ : size = 0 ∨ l.length ≤ size then [l]
  else l.take size :: chunks size (l.drop size)
termination_by l.length
decreasing_by simp only [List.length_drop]; omega

/-- Adds the outcome of one more search. A search that ran out of budget adds what it had found. -/
def absorb (found : CubeSet) : Except Failure CubeSet → Except Failure CubeSet
  | .ok more => .ok (found ∪ more)
  | .error (.budgetExhausted stage budget more) =>
      .error (.budgetExhausted stage budget (found ∪ more))
  | .error failure => .error failure

def searchSeed (scoring : Scoring) (onset offset : Rows) (budget : Option Nat) (seed : UInt64) :
    Except Failure CubeSet :=
  (search scoring onset offset budget (.ofSeed seed)).result

/-- How many seeds there are in a chunk for so many workers, rounded up. The sum is a word and wraps,
so for very many workers there is no size. -/
def chunkSize (count workers : Nat) : Nat := (count + workers - 1) % UInt64.size / workers

/-- The outcomes of all searches, chunk by chunk of one worker each. A chunk cannot be empty. -/
def runChunks (run : UInt64 → Except Failure CubeSet) (seeds : List UInt64) (workers : Nat) :
    Except Failure (List (Except Failure CubeSet)) :=
  let size := chunkSize seeds.length workers
  if size = 0 then .error .overflow
  else .ok ((chunks size seeds).flatMap fun chunk => chunk.map run)

/-- The implicants of all searches, up to the first that fails. -/
def searchSeeds (scoring : Scoring) (onset offset : Rows) (budget : Option Nat)
    (seeds : List UInt64) (workers : Nat) : Except Failure CubeSet :=
  let run := searchSeed scoring onset offset budget
  if workers ≤ 1 ∨ seeds.length ≤ 1 then
    seeds.foldlM (fun found seed => absorb found (run seed)) ∅
  else do (← runChunks run seeds workers).foldlM absorb ∅

def searchMany (scoring : Scoring) (onset offset : Rows) (iterations : Nat) (source : Source) :
    Except Failure CubeSet × Source :=
  match Rows.checkVariables onset offset with
  | .error failure => (.error failure, source)
  | .ok () =>
      let (seeds, source) := source.seeds iterations
      (searchSeeds scoring onset offset none seeds 1, source)

def minimizeFrom (config : Config) (scoring : Scoring) (onset offset : Rows) (source : Source) :
    Except Failure Solution × Source :=
  let checked :=
    if config.validate then Rows.checkDisjoint onset offset else Rows.checkVariables onset offset
  match checked with
  | .error failure => (.error failure, source)
  | .ok () =>
      let (seeds, source) := source.seeds config.iterations
      match searchSeeds scoring onset offset config.budget seeds config.workers with
      | .error failure => (.error failure, source)
      | .ok implicants =>
          let expansion := expand scoring offset implicants config.budget source
          match expansion.result with
          | .error failure => (.error failure, expansion.source)
          | .ok primes =>
              let covering := cover onset primes config.budget expansion.source
              (covering.result.map fun chosen => ⟨implicants, primes, chosen⟩, covering.source)

def minimize (config : Config) (scoring : Scoring) (onset offset : Rows) (entropy : UInt64) :
    Except Failure Solution :=
  (minimizeFrom config scoring onset offset (config.source entropy)).1

def minimalCover (scoring : Scoring) (onset offset : Rows) (iterations : Nat) (source : Source) :
    Except Failure CubeSet × Source :=
  match Rows.checkDisjoint onset offset with
  | .error failure => (.error failure, source)
  | .ok () =>
      match searchMany scoring onset offset iterations source with
      | (.error failure, source) => (.error failure, source)
      | (.ok implicants, source) =>
          let expansion := expand scoring offset implicants none source
          match expansion.result with
          | .error failure => (.error failure, expansion.source)
          | .ok primes =>
              let covering := cover onset primes none expansion.source
              (covering.result, covering.source)

end TwoLevel
