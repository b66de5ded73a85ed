import LayeredConfig.Binary64
import LayeredConfig.Codec
import LayeredConfig.Command
import LayeredConfig.CommandLine
import LayeredConfig.Decimal.Shortest
import LayeredConfig.Dict
import LayeredConfig.Failure
import LayeredConfig.FileTree
import LayeredConfig.FileTree.Archive
import LayeredConfig.FileTree.Atomic
import LayeredConfig.Filter.Stock
import LayeredConfig.Glob.Braces
import LayeredConfig.Glob.Match
import LayeredConfig.Glob.Token
import LayeredConfig.Ignore.Filter
import LayeredConfig.Ignore.Patterns
import LayeredConfig.Ignore.Settings
import LayeredConfig.Json.Pretty
import LayeredConfig.KeyPath
import LayeredConfig.Main
import LayeredConfig.Name
import LayeredConfig.Overlay
import LayeredConfig.Path
import LayeredConfig.Pipeline
import LayeredConfig.Proofs.AllOrNothing
import LayeredConfig.Proofs.Atomic
import LayeredConfig.Proofs.ByteOrder
import LayeredConfig.Proofs.Calls
import LayeredConfig.Proofs.ChainOrder
import LayeredConfig.Proofs.Concealment
import LayeredConfig.Proofs.Deactivation
import LayeredConfig.Proofs.Deletion
import LayeredConfig.Proofs.Dialogue
import LayeredConfig.Proofs.Dict
import LayeredConfig.Proofs.Directory
import LayeredConfig.Proofs.Discovery
import LayeredConfig.Proofs.Export
import LayeredConfig.Proofs.Face
import LayeredConfig.Proofs.FileTree
import LayeredConfig.Proofs.FirstWrite
import LayeredConfig.Proofs.Holdings
import LayeredConfig.Proofs.Identity
import LayeredConfig.Proofs.Import
import LayeredConfig.Proofs.Interruption
import LayeredConfig.Proofs.KeyPath
import LayeredConfig.Proofs.Layer
import LayeredConfig.Proofs.Layout
import LayeredConfig.Proofs.Lens
import LayeredConfig.Proofs.Likeness
import LayeredConfig.Proofs.Listing
import LayeredConfig.Proofs.LiteralBraces
import LayeredConfig.Proofs.Mapping
import LayeredConfig.Proofs.Passage
import LayeredConfig.Proofs.Path
import LayeredConfig.Proofs.PatternOrder
import LayeredConfig.Proofs.Presence
import LayeredConfig.Proofs.Protection
import LayeredConfig.Proofs.Reflection
import LayeredConfig.Proofs.Relocation
import LayeredConfig.Proofs.Reports
import LayeredConfig.Proofs.RoundTrip
import LayeredConfig.Proofs.Run
import LayeredConfig.Proofs.Sameness
import LayeredConfig.Proofs.Separation
import LayeredConfig.Proofs.Session
import LayeredConfig.Proofs.Shield
import LayeredConfig.Proofs.Splice
import LayeredConfig.Proofs.SpliceOrder
import LayeredConfig.Proofs.Stacking
import LayeredConfig.Proofs.Transfer
import LayeredConfig.Proofs.World
import LayeredConfig.Registry
import LayeredConfig.Run
import LayeredConfig.Storage
import LayeredConfig.Storage.Directory
import LayeredConfig.Storage.Journal
import LayeredConfig.Storage.Shelf
import LayeredConfig.Store
import LayeredConfig.Table
import LayeredConfig.Text.Blank
import LayeredConfig.Transfer
import LayeredConfig.Value
import LayeredConfig.Yaml.Cursor
import LayeredConfig.Yaml.Decode
import LayeredConfig.Yaml.Encode
import LayeredConfig.Yaml.Fault
import LayeredConfig.Yaml.Node
import LayeredConfig.Yaml.Pen
import LayeredConfig.Yaml.Plain
import LayeredConfig.Yaml.ScalarStyle
import LayeredConfig.Yaml.Token
import LayeredConfig.Yaml.Token.Lexer
import LayeredConfig.Yaml.Token.Property
import LayeredConfig.Yaml.Token.Scalar
