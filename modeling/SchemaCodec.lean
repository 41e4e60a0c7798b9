import SchemaCodec.Batch.Watch
import SchemaCodec.CommandLine.Run
import SchemaCodec.Document.Draft
import SchemaCodec.Main
import SchemaCodec.Module.Generate
import SchemaCodec.Proofs.Conversion.Contribution
import SchemaCodec.Settings.File
import SchemaCodec.Proofs.Conversion.Unfolding
import SchemaCodec.Proofs.Meaning.Acceptance
import SchemaCodec.Proofs.Meaning.Coverage
import SchemaCodec.Proofs.Meaning.Narrowing
import SchemaCodec.Proofs.Meaning.Fragment
import SchemaCodec.Proofs.Meaning.Exactness
import SchemaCodec.Proofs.Conversion.References
import SchemaCodec.Proofs.Order.Walk
import SchemaCodec.Proofs.Module.DeclarationOrder
import SchemaCodec.Proofs.Text.Encoding
import SchemaCodec.Proofs.Json.Strings
import SchemaCodec.Proofs.Json.Tokens
import SchemaCodec.Proofs.Json.RoundTrip
import SchemaCodec.Proofs.Document.Repetition
import SchemaCodec.Proofs.Json.Grammar
import SchemaCodec.Proofs.Json.Spelling
import SchemaCodec.Proofs.Json.Completeness
import SchemaCodec.Proofs.Conversion.Accounting
import SchemaCodec.Proofs.Conversion.Trace
import SchemaCodec.Proofs.Conversion.Provision
import SchemaCodec.Proofs.Module.Bindings
import SchemaCodec.Proofs.Module.LibraryImport
import SchemaCodec.Proofs.Path.Relative
import SchemaCodec.Proofs.Batch.ImportTarget
import SchemaCodec.Proofs.Diagnostics.Tracking
import SchemaCodec.Proofs.Module.Strictness
import SchemaCodec.Proofs.Document.Reordering
import SchemaCodec.Proofs.Conversion.Likeness
import SchemaCodec.Proofs.Conversion.KeywordOrder
import SchemaCodec.Proofs.Conversion.Exports
import SchemaCodec.Proofs.Module.Origins
import SchemaCodec.Proofs.Module.DeclaredNames
import SchemaCodec.Proofs.Module.Descriptions
import SchemaCodec.Proofs.Except
import SchemaCodec.Proofs.Text.Margins
import SchemaCodec.Proofs.Codec.Nesting
import SchemaCodec.Proofs.Document.Pointing
import SchemaCodec.Proofs.Document.Parsing
import SchemaCodec.Proofs.Conversion.Faults
import SchemaCodec.Proofs.Conversion.FaultPlaces
import SchemaCodec.Proofs.Link.FaultPlaces
import SchemaCodec.Proofs.Module.FaultPlaces
import SchemaCodec.Proofs.Text.Comments
import SchemaCodec.Proofs.Module.Containment
import SchemaCodec.Proofs.FileSystem.Places
import SchemaCodec.Proofs.FileSystem.Growth
import SchemaCodec.Proofs.Glob.Existence
import SchemaCodec.Proofs.Batch.Product
import SchemaCodec.Proofs.Batch.Independence
import SchemaCodec.Proofs.Settings.Layers
import SchemaCodec.Proofs.CommandLine.Layering
import SchemaCodec.Proofs.Path.Routes
import SchemaCodec.Proofs.Batch.Confinement
import SchemaCodec.Proofs.Batch.Survival
import SchemaCodec.Proofs.Decimal.Denotation
import SchemaCodec.Proofs.Yaml.Numbers
import SchemaCodec.Proofs.Order.Traversal
import SchemaCodec.Proofs.Order.Sorting
import SchemaCodec.Proofs.Order.Stability
import SchemaCodec.Proofs.Conversion.WellFormed
import SchemaCodec.Proofs.Conversion.Relocation
import SchemaCodec.Proofs.Conversion.FaultValues
import SchemaCodec.Proofs.Conversion.TypeShape
import SchemaCodec.Proofs.Conversion.KeywordReports
import SchemaCodec.Proofs.Reference.ImportSpecifier
import SchemaCodec.Proofs.Codec.ReadingBack
import SchemaCodec.Proofs.Codec.BrandInterfaces
import SchemaCodec.Proofs.Reference.Grammar
import SchemaCodec.Proofs.Link.Defaults
import SchemaCodec.Proofs.Document.Construction
import SchemaCodec.Proofs.Diagnostics.Bookkeeping
import SchemaCodec.Proofs.CommandLine.Precedence
import SchemaCodec.Proofs.Pointer.Escaping
import SchemaCodec.Proofs.Json.Termination
import SchemaCodec.Proofs.Constraint.RegexpForms
import SchemaCodec.Proofs.Name.Stability
