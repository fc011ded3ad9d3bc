import Sketchwright.Main
import Sketchwright.Proofs.Attempt
import Sketchwright.Proofs.Kinds
import Sketchwright.Proofs.Slots
import Sketchwright.Proofs.Outcome
import Sketchwright.Proofs.Tables
import Sketchwright.Proofs.Effects
import Sketchwright.Proofs.Frames
import Sketchwright.Proofs.Typing
import Sketchwright.Proofs.Bodies
import Sketchwright.Proofs.Contexts
import Sketchwright.Proofs.Definitions
import Sketchwright.Proofs.Globals
import Sketchwright.Proofs.Rounds
import Sketchwright.Proofs.Bare
import Sketchwright.Proofs.Emission
import Sketchwright.Proofs.Scoping
import Sketchwright.Proofs.Rereading
import Sketchwright.Proofs.Blocks
import Sketchwright.Proofs.Dependencies
import Sketchwright.Proofs.Reordering
import Sketchwright.Proofs.Braces
import Sketchwright.Proofs.Bracketing
import Sketchwright.Proofs.Hygiene
import Sketchwright.Proofs.Remarks
import Sketchwright.Proofs.Reparsing
import Sketchwright.Proofs.Locality
import Sketchwright.Proofs.LoopBounds
import Sketchwright.Proofs.RuntimeNames
import Sketchwright.Proofs.Arithmetic
import Sketchwright.Proofs.Counting
import Sketchwright.Proofs.Conservativity
import Sketchwright.Proofs.Calling
import Sketchwright.Proofs.LineEnds
import Sketchwright.Proofs.Exhaustion
import Sketchwright.Proofs.InPlace
import Sketchwright.Proofs.TriviaLines
import Sketchwright.Proofs.StringLiterals
import Sketchwright.Proofs.StringObjects
import Sketchwright.Proofs.Integers
import Sketchwright.Proofs.Totality
import Sketchwright.Proofs.Additions
import Sketchwright.Proofs.Placement
import Sketchwright.Proofs.Discipline
import Sketchwright.Proofs.Paths
import Sketchwright.Proofs.Delivery
import Sketchwright.Proofs.Scalars
