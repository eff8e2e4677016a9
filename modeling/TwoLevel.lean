import TwoLevel.Main
import TwoLevel.Command.Outcome
import TwoLevel.Cube.Lemmas
import TwoLevel.Rows.Lemmas
import TwoLevel.Proofs.Cubes
import TwoLevel.Proofs.Rows
import TwoLevel.Proofs.Search
import TwoLevel.Proofs.Selection
import TwoLevel.Proofs.Expansion
import TwoLevel.Proofs.Covering
import TwoLevel.Proofs.Workers
import TwoLevel.Proofs.Stages
import TwoLevel.Proofs.Soundness
import TwoLevel.Proofs.Frequency
import TwoLevel.Proofs.Offers
import TwoLevel.Proofs.Outcome
import TwoLevel.Proofs.RowOrder
import TwoLevel.Proofs.CoverOrder
import TwoLevel.Proofs.Failures
import TwoLevel.Proofs.Budgets
import TwoLevel.Proofs.Accumulation
import TwoLevel.Proofs.Fillings
import TwoLevel.Proofs.Names
import TwoLevel.Proofs.Words
import TwoLevel.Proofs.Reader
import TwoLevel.Proofs.Written
import TwoLevel.Proofs.RoundTrip
import TwoLevel.Proofs.Composition
import TwoLevel.Proofs.Meaning
import TwoLevel.Proofs.Rounding
import TwoLevel.Proofs.Doubles
import TwoLevel.Proofs.DoubleOrder
import TwoLevel.Proofs.Scaling
import TwoLevel.Proofs.Degrees
import TwoLevel.Proofs.FiniteScores
import TwoLevel.Proofs.Resolutions
import TwoLevel.Proofs.Cleaning
import TwoLevel.Proofs.TextToText
import TwoLevel.Proofs.Discovery
import TwoLevel.Proofs.Choices
import TwoLevel.Proofs.Lineages
import TwoLevel.Proofs.FixedPoints
import TwoLevel.Proofs.WorkBounds
import TwoLevel.Proofs.Conflicts
import TwoLevel.Proofs.Minimality
import TwoLevel.Proofs.Containment
import TwoLevel.Proofs.Distances
import TwoLevel.Proofs.Construction
import TwoLevel.Proofs.Layout
import TwoLevel.Proofs.Greedy
import TwoLevel.Proofs.GeneratedNames
import TwoLevel.Proofs.TieBreaks
import TwoLevel.Proofs.Widths
import TwoLevel.Proofs.Occurrences
import TwoLevel.Proofs.Edges
import TwoLevel.Proofs.Workbench
import TwoLevel.Proofs.Ranks
import TwoLevel.Proofs.Meetings
import TwoLevel.Proofs.Queues
import TwoLevel.Proofs.Walks
import TwoLevel.Proofs.PathCounts
import TwoLevel.Proofs.Relaxing
import TwoLevel.Proofs.Settling
import TwoLevel.Proofs.Betweenness
