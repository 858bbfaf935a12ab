import CodeAtlas.AllowedRoots
import CodeAtlas.Binary32
import CodeAtlas.Binary64
import CodeAtlas.Collection.Call
import CodeAtlas.Collection.Filter
import CodeAtlas.Collection.Memory
import CodeAtlas.Collection.Point
import CodeAtlas.CommandLine.Command
import CodeAtlas.CommandLine.Options
import CodeAtlas.CommandLine.Run
import CodeAtlas.Config.Basic
import CodeAtlas.Config.Toml
import CodeAtlas.Document.File
import CodeAtlas.Document.Output
import CodeAtlas.Document.Project
import CodeAtlas.Document.Structure
import CodeAtlas.Document.Value
import CodeAtlas.Embedding.Cache
import CodeAtlas.Embedding.Embedder
import CodeAtlas.Error
import CodeAtlas.Exclusion
import CodeAtlas.FileSystem.Basic
import CodeAtlas.FileSystem.Change
import CodeAtlas.FileSystem.Path
import CodeAtlas.FileSystem.Resolve
import CodeAtlas.Glob
import CodeAtlas.Grammar.Go
import CodeAtlas.Grammar.Java
import CodeAtlas.Grammar.Python
import CodeAtlas.Grammar.Script
import CodeAtlas.HashDiff
import CodeAtlas.Host
import CodeAtlas.Host.Run
import CodeAtlas.Indexing.Basic
import CodeAtlas.Indexing.Full
import CodeAtlas.Indexing.Update
import CodeAtlas.Json.Basic
import CodeAtlas.Json.Printer
import CodeAtlas.Json.Reader
import CodeAtlas.JsonForm
import CodeAtlas.Keyed
import CodeAtlas.Language
import CodeAtlas.Main
import CodeAtlas.Outline.Comment
import CodeAtlas.Outline.Go
import CodeAtlas.Outline.Java
import CodeAtlas.Outline.Python
import CodeAtlas.Outline.Script
import CodeAtlas.OutputLayout
import CodeAtlas.ParseRun
import CodeAtlas.Program
import CodeAtlas.Project
import CodeAtlas.Proofs.Accounts
import CodeAtlas.Proofs.Amid
import CodeAtlas.Proofs.Attempts
import CodeAtlas.Proofs.Blanks
import CodeAtlas.Proofs.Bodies
import CodeAtlas.Proofs.Bystanders
import CodeAtlas.Proofs.Calls
import CodeAtlas.Proofs.Changes
import CodeAtlas.Proofs.Collection
import CodeAtlas.Proofs.Confinement
import CodeAtlas.Proofs.Delivery
import CodeAtlas.Proofs.Difference
import CodeAtlas.Proofs.Digits
import CodeAtlas.Proofs.DirectoryTree
import CodeAtlas.Proofs.Documents
import CodeAtlas.Proofs.Drafts
import CodeAtlas.Proofs.Enclosing
import CodeAtlas.Proofs.Ensures
import CodeAtlas.Proofs.Exactness
import CodeAtlas.Proofs.Faults
import CodeAtlas.Proofs.FileDocuments
import CodeAtlas.Proofs.FileEntries
import CodeAtlas.Proofs.Filing
import CodeAtlas.Proofs.FullRuns
import CodeAtlas.Proofs.Heading
import CodeAtlas.Proofs.History
import CodeAtlas.Proofs.Holding
import CodeAtlas.Proofs.Identity
import CodeAtlas.Proofs.Index
import CodeAtlas.Proofs.Indexing
import CodeAtlas.Proofs.Interleaving
import CodeAtlas.Proofs.Keyed
import CodeAtlas.Proofs.Lines
import CodeAtlas.Proofs.Looks
import CodeAtlas.Proofs.Members
import CodeAtlas.Proofs.Memory
import CodeAtlas.Proofs.Opening
import CodeAtlas.Proofs.Orderly
import CodeAtlas.Proofs.Outputs
import CodeAtlas.Proofs.Paging
import CodeAtlas.Proofs.Parsing
import CodeAtlas.Proofs.Patching
import CodeAtlas.Proofs.Patterns
import CodeAtlas.Proofs.Payload
import CodeAtlas.Proofs.Places
import CodeAtlas.Proofs.Printing
import CodeAtlas.Proofs.ProjectDocument
import CodeAtlas.Proofs.Projects
import CodeAtlas.Proofs.Pruning
import CodeAtlas.Proofs.Ranking
import CodeAtlas.Proofs.ReadBack
import CodeAtlas.Proofs.ReadsFirst
import CodeAtlas.Proofs.Refinement
import CodeAtlas.Proofs.Refusals
import CodeAtlas.Proofs.RenewedDocuments
import CodeAtlas.Proofs.Repair
import CodeAtlas.Proofs.Repeating
import CodeAtlas.Proofs.Reporting
import CodeAtlas.Proofs.Requests
import CodeAtlas.Proofs.Rereading
import CodeAtlas.Proofs.SavedConfig
import CodeAtlas.Proofs.Scan
import CodeAtlas.Proofs.Scene
import CodeAtlas.Proofs.Scopes
import CodeAtlas.Proofs.Separation
import CodeAtlas.Proofs.Session
import CodeAtlas.Proofs.SettingUp
import CodeAtlas.Proofs.SharedCache
import CodeAtlas.Proofs.Store
import CodeAtlas.Proofs.Structure
import CodeAtlas.Proofs.Tagged
import CodeAtlas.Proofs.Timestamp
import CodeAtlas.Proofs.Toml.Quoted
import CodeAtlas.Proofs.Toml.Tables
import CodeAtlas.Proofs.Toml.Values
import CodeAtlas.Proofs.Tracking
import CodeAtlas.Proofs.Transcoding
import CodeAtlas.Proofs.Updating
import CodeAtlas.Proofs.Uuid
import CodeAtlas.Proofs.Vectors
import CodeAtlas.Proofs.Walks
import CodeAtlas.Proofs.WellFormed
import CodeAtlas.Proofs.Yaml.Scalars
import CodeAtlas.Proofs.Yaml.Trees
import CodeAtlas.Proofs.Writing
import CodeAtlas.Remote.Address
import CodeAtlas.Remote.Store
import CodeAtlas.Request
import CodeAtlas.Retry
import CodeAtlas.Rpc.Message
import CodeAtlas.Rpc.Server
import CodeAtlas.Scan
import CodeAtlas.Sha256
import CodeAtlas.SourceFile
import CodeAtlas.Status
import CodeAtlas.Structure
import CodeAtlas.Symbol
import CodeAtlas.SymbolStore.Basic
import CodeAtlas.SymbolStore.Files
import CodeAtlas.SymbolStore.Payload
import CodeAtlas.SymbolStore.Projects
import CodeAtlas.Syntax.Lexeme
import CodeAtlas.Syntax.Pattern
import CodeAtlas.Syntax.Reading
import CodeAtlas.Syntax.Tree
import CodeAtlas.Text.Blank
import CodeAtlas.Text.LowerCase
import CodeAtlas.Text.Utf8
import CodeAtlas.Timestamp
import CodeAtlas.Toml.Basic
import CodeAtlas.Toml.Number
import CodeAtlas.Toml.Printer
import CodeAtlas.Toml.Quoted
import CodeAtlas.Toml.Reader
import CodeAtlas.Tool.Basic
import CodeAtlas.Tool.Call
import CodeAtlas.Tool.Run
import CodeAtlas.Uuid
import CodeAtlas.Yaml.Basic
import CodeAtlas.Yaml.Cursor
import CodeAtlas.Yaml.Printer
import CodeAtlas.Yaml.Reader
import CodeAtlas.Yaml.Scalar
import CodeAtlas.Yaml.Word
