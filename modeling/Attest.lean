import Attest.Text.Utf8
import Attest.Run.Log
import Attest.Text.Hex
import Attest.Text.UpperCase
import Attest.Number.Decimal
import Attest.Number.Double
import Attest.Json.Printer
import Attest.Json.Record
import Attest.Canonical.Native
import Attest.Canonical.Views
import Attest.Canonical.Difference
import Attest.Order
import Attest.Random
import Attest.KeyMap.Json
import Attest.Manifest.Template
import Attest.Run.Trials
import Attest.Reference.Sample
import Attest.Reference.Vector
import Attest.Proofs.Merkle.Binding
import Attest.Proofs.Number.Digits
import Attest.Proofs.Number.Literal
import Attest.Proofs.Number.Numeral
import Attest.Proofs.Json.Strings
import Attest.Proofs.Entries
import Attest.Proofs.Json.Reading
import Attest.Proofs.Number.Rounding
import Attest.Proofs.Number.Shortest
import Attest.Proofs.Number.Exact
import Attest.Proofs.Canonical.Normal
import Attest.Proofs.Canonical.Encoding
import Attest.Proofs.Manifest.Cycle
import Attest.Proofs.Manifest.Loop
import Attest.Proofs.Manifest.Validity
import Attest.Proofs.Json.Accepted
import Attest.Proofs.Text.Hex
import Attest.Proofs.Canonical.Settled
import Attest.Proofs.Manifest.Sealing
import Attest.Proofs.Run.Binding
import Attest.Proofs.Merkle.Root
import Attest.Proofs.Merkle.Row
import Attest.Proofs.Manifest.Identity
import Attest.Proofs.Merkle.Membership
import Attest.Proofs.Merkle.Commitment
import Attest.Proofs.Canonical.Difference
import Attest.Proofs.Run.Comparison
import Attest.Proofs.Run.Version
import Attest.Proofs.Json.Record
import Attest.Proofs.Json.Values
import Attest.Proofs.Json.Rewriting
import Attest.Proofs.Manifest.Reading
import Attest.Proofs.Json.Rendering
import Attest.Proofs.Canonical.Native
import Attest.Proofs.Canonical.Integer
import Attest.Proofs.Canonical.Number
import Attest.Proofs.Manifest.Inclusion
import Attest.Proofs.Manifest.Report
import Attest.Proofs.Manifest.SealedReport
import Attest.Proofs.Json.Written
import Attest.Proofs.Manifest.Written
import Attest.Proofs.Manifest.SealedText
import Attest.Proofs.Manifest.SignedContent
import Attest.Proofs.Manifest.SpelledOut
import Attest.Proofs.Store
import Attest.Proofs.Hash.Context
import Attest.Proofs.Hash.Stream
import Attest.Proofs.Manifest.Registry
import Attest.Proofs.Canonical.Views
import Attest.Proofs.Json.Spelling
import Attest.Proofs.Json.Layout
import Attest.Proofs.Json.Outline
import Attest.Proofs.Json.Alike
import Attest.Proofs.Canonical.Layout
import Attest.Proofs.Json.Steady
import Attest.Proofs.Manifest.Layout
import Attest.Proofs.Hash.Copies
import Attest.Proofs.Manifest.Stored
import Attest.Proofs.Notary
import Attest.Proofs.KeyMap.Written
import Attest.Proofs.Order
import Attest.Proofs.KeyMap.History
import Attest.Proofs.Number.Scientific
import Attest.Proofs.Number.Fewest
import Attest.Proofs.Canonical.Double
import Attest.Proofs.Canonical.Explained
import Attest.Proofs.KeyMap.Merge
import Attest.Proofs.Canonical.Walk
import Attest.Proofs.Canonical.Location
import Attest.Proofs.Canonical.Truthful
import Attest.Proofs.Canonical.Stored
import Attest.Proofs.Canonical.Path
import Attest.Proofs.Account
import Attest.Proofs.Manifest.Findings
import Attest.Proofs.Manifest.Relisting
import Attest.Proofs.Manifest.Limits
import Attest.Proofs.Manifest.Verification
import Attest.Proofs.Manifest.Registrations
import Attest.Proofs.Run.Defaulting
import Attest.Proofs.Text.Line
import Attest.Proofs.Run.Appending
import Attest.Proofs.Run.Written
import Attest.Proofs.Run.Trials
import Attest.Proofs.Hash.Digest
import Attest.Proofs.Merkle.Stored
import Attest.Proofs.Number.Compared
import Attest.Proofs.Order.Consistent
import Attest.Proofs.Order.Stable
import Attest.Proofs.Hash.Order
import Attest.Proofs.Hash.Combination
import Attest.Proofs.Number.Product
import Attest.Proofs.Random.Shuffle
import Attest.Proofs.Random.Period
import Attest.Proofs.Random.Index
import Attest.Proofs.Manifest.Template
import Attest.Proofs.Text.ByteOrder
import Attest.Proofs.Merkle.Building
import Attest.Proofs.Merkle.Shape
