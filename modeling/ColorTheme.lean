import ColorTheme.Active
import ColorTheme.Bake.Graph
import ColorTheme.Main
import ColorTheme.Proofs.Built
import ColorTheme.Proofs.Lookup
import ColorTheme.Proofs.Attempt
import ColorTheme.Proofs.Resolution
import ColorTheme.Proofs.Stuck
import ColorTheme.Proofs.Filling
import ColorTheme.Proofs.Verdict
import ColorTheme.Proofs.Baking
import ColorTheme.Proofs.Transfer
import ColorTheme.Proofs.Reordering
import ColorTheme.Proofs.Session
import ColorTheme.Proofs.Combining
import ColorTheme.Proofs.Overriding
import ColorTheme.Proofs.EightBit
import ColorTheme.Proofs.Reading
import ColorTheme.Proofs.Relisting
import ColorTheme.Proofs.Isolation
import ColorTheme.Proofs.Evaluation
import ColorTheme.Proofs.Locality
import ColorTheme.Proofs.Scanning
import ColorTheme.Proofs.Editing
import ColorTheme.Proofs.Grounding
import ColorTheme.Proofs.Recovery
import ColorTheme.Proofs.Wording
import ColorTheme.Proofs.Checking
import ColorTheme.Proofs.Pinning
import ColorTheme.Proofs.Shadowing
import ColorTheme.Proofs.NormalForm
import ColorTheme.Proofs.Precedence
import ColorTheme.Proofs.Idleness
import ColorTheme.Proofs.Undoing
import ColorTheme.Proofs.Visibility
import ColorTheme.Proofs.Refusal
import ColorTheme.Proofs.Spacing
import ColorTheme.Proofs.Layering
import ColorTheme.Proofs.Calling
import ColorTheme.Proofs.Classifying
import ColorTheme.Proofs.Expansion
import ColorTheme.Proofs.Naming
import ColorTheme.Proofs.Numerals
import ColorTheme.Proofs.Literals
import ColorTheme.Proofs.Hexadecimal
import ColorTheme.Proofs.Parsers
import ColorTheme.Proofs.Consuming
import ColorTheme.Proofs.Passes
import ColorTheme.Proofs.Decoding
import ColorTheme.Proofs.Exporting
