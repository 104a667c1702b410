import DewyFront.Expr.Range
import DewyFront.Main
import DewyFront.Proofs.Climbing
import DewyFront.Proofs.Totality
import DewyFront.Proofs.Traversal
import DewyFront.Proofs.Limits
import DewyFront.Proofs.Rejection
import DewyFront.Proofs.Matching
import DewyFront.Proofs.Scanning
import DewyFront.Proofs.Tiling
import DewyFront.Proofs.Pairing
import DewyFront.Proofs.Bodies
import DewyFront.Proofs.Rows
import DewyFront.Proofs.Covering
import DewyFront.Proofs.WellShaped
import DewyFront.Proofs.Inventory
import DewyFront.Proofs.Semicolons
import DewyFront.Proofs.Moves
import DewyFront.Proofs.MovedItems
import DewyFront.Proofs.MovedChains
import DewyFront.Proofs.MovedPasses
import DewyFront.Proofs.MovedReadings
import DewyFront.Proofs.Trailing
import DewyFront.Proofs.Brackets
import DewyFront.Proofs.Enclosing
import DewyFront.Proofs.MovedLexemes
import DewyFront.Proofs.Wrapping
import DewyFront.Proofs.Layout
import DewyFront.Proofs.Allowances
import DewyFront.Proofs.Places
import DewyFront.Proofs.PlacedItems
import DewyFront.Proofs.PlacedChains
import DewyFront.Proofs.PlacedSlots
import DewyFront.Proofs.PlacedExprs
import DewyFront.Proofs.Labels
import DewyFront.Proofs.Evidence
import DewyFront.Proofs.Pointing
import DewyFront.Proofs.Controls
import DewyFront.Proofs.Strings
import DewyFront.Proofs.Interiors
import DewyFront.Proofs.Openings
import DewyFront.Proofs.Literals
import DewyFront.Proofs.Verbatim
import DewyFront.Proofs.Delimited
import DewyFront.Proofs.Standing
import DewyFront.Proofs.Numerals
import DewyFront.Proofs.Bases
import DewyFront.Proofs.Digits
import DewyFront.Proofs.BasedStrings
import DewyFront.Proofs.Lookahead
import DewyFront.Proofs.Replacing
import DewyFront.Proofs.Rereading
import DewyFront.Proofs.Alikes
import DewyFront.Proofs.Rewrites
import DewyFront.Proofs.Candidates
import DewyFront.Proofs.Throughout
import DewyFront.Proofs.RangeTurns
import DewyFront.Proofs.RangeChains
import DewyFront.Proofs.NormalRanges
import DewyFront.Proofs.Tiers
import DewyFront.Proofs.TieredPasses
import DewyFront.Proofs.Unforked
import DewyFront.Proofs.LineEndings
import DewyFront.Proofs.Abreast
import DewyFront.Proofs.Returns
import DewyFront.Proofs.Comments
import DewyFront.Proofs.Positions
import DewyFront.Proofs.Atoms
import DewyFront.Proofs.Legible
import DewyFront.Proofs.Drawing
import DewyFront.Proofs.Alternating
import DewyFront.Proofs.BetweenForks
import DewyFront.Proofs.TypeParameters
