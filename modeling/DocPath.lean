import DocPath.FileCommand
import DocPath.Json.Reader
import DocPath.Json.Written
import DocPath.Session
import DocPath.Proofs.Meaning
import DocPath.Proofs.WalkMeaning
import DocPath.Proofs.Blanks
import DocPath.Proofs.Delimiters
import DocPath.Proofs.Grammar
import DocPath.Proofs.Brackets
import DocPath.Proofs.Turns
import DocPath.Proofs.Padding
import DocPath.Proofs.Segments
import DocPath.Proofs.Building
import DocPath.Proofs.Reading
import DocPath.Proofs.Canonical
import DocPath.Proofs.Arrivals
import DocPath.Proofs.Rendering
import DocPath.Proofs.Spacing
import DocPath.Proofs.Rereading
import DocPath.Proofs.Runs
import DocPath.Proofs.SameWalk
import DocPath.Proofs.TextWalk
import DocPath.Proofs.Composition
import DocPath.Proofs.Equality
import DocPath.Proofs.EqualWalks
import DocPath.Proofs.Obtainable
import DocPath.Proofs.Portable
import DocPath.Proofs.Collisions
import DocPath.Proofs.Origins
import DocPath.Proofs.Inert
import DocPath.Proofs.Positions
import DocPath.Proofs.OutOfRange
import DocPath.Proofs.Ownership
import DocPath.Proofs.Delivery
import DocPath.Proofs.Dividers
import DocPath.Proofs.Fragments
import DocPath.Proofs.SavedText
import DocPath.Proofs.Saving
import DocPath.Proofs.Branches
import DocPath.Proofs.Gaps
import DocPath.Proofs.Captures
import DocPath.Proofs.Threading
import DocPath.Proofs.Folding
import DocPath.Proofs.Resolution
import DocPath.Proofs.Partition
import DocPath.Proofs.InStep
import DocPath.Proofs.Cuts
import DocPath.Proofs.IndexText
import DocPath.Proofs.QuotedDefaults
import DocPath.Proofs.Documents
import DocPath.Proofs.Coercions
import DocPath.Proofs.Visits
import DocPath.Proofs.Defaults
import DocPath.Proofs.KeyTexts
import DocPath.Proofs.Equivalence
import DocPath.Proofs.BranchTree
import DocPath.Proofs.ByteOffsets
import DocPath.Proofs.CompileEnds
