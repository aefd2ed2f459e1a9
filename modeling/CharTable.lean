import CharTable.File.Tree
import CharTable.Main
import CharTable.Model
import CharTable.Scheme
import CharTable.Table.Initializer
import CharTable.TagSet
import CharTable.Proofs.Occurrence
import CharTable.Proofs.Numbering
import CharTable.Proofs.Search
import CharTable.Proofs.Traverse
import CharTable.Proofs.Resolution
import CharTable.Proofs.Acceptance
import CharTable.Proofs.Leaves
import CharTable.Proofs.Legible
import CharTable.Proofs.Program
import CharTable.Proofs.Meaning
import CharTable.Proofs.Extension
import CharTable.Proofs.Flags
import CharTable.Proofs.Packing
import CharTable.Proofs.Json.Grammar
import CharTable.Proofs.Json.Strings
import CharTable.Proofs.Json.Marks
import CharTable.Proofs.Json.Numbers
import CharTable.Proofs.Json.Values
import CharTable.Proofs.Document.Form
import CharTable.Proofs.Document.Members
import CharTable.Proofs.Document.Reading
import CharTable.Proofs.Document.Layout
import CharTable.Proofs.Binary
import CharTable.Proofs.Faults
import CharTable.Proofs.Edits
import CharTable.Proofs.Monotone
import CharTable.Proofs.Initializer
import CharTable.Proofs.Storage
import CharTable.Proofs.Equality
import CharTable.Proofs.Truncation
import CharTable.Proofs.CyclePath
import CharTable.Proofs.Expansion
import CharTable.Proofs.Growth
import CharTable.Proofs.Flattening
import CharTable.Proofs.Failure
import CharTable.Proofs.ByteOrder
import CharTable.Proofs.Refusal
import CharTable.Proofs.RuleText
import CharTable.Proofs.Capacity
import CharTable.Proofs.Encodable
import CharTable.Proofs.Scheme
import CharTable.Proofs.Streaming
import CharTable.Proofs.History
import CharTable.Proofs.Faithful
import CharTable.Proofs.Visits
import CharTable.Proofs.Footprint
import CharTable.Proofs.Height
import CharTable.Proofs.Ascending
