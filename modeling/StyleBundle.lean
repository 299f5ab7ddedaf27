import StyleBundle.Asset
import StyleBundle.Cache.Basic
import StyleBundle.Cache.Entry
import StyleBundle.Cache.Files
import StyleBundle.Cache.Key
import StyleBundle.Cache.Store
import StyleBundle.Candidate
import StyleBundle.CommandLine.Arguments
import StyleBundle.CommandLine.Report
import StyleBundle.CommandLine.Run
import StyleBundle.Compiler
import StyleBundle.Config
import StyleBundle.Config.Yaml
import StyleBundle.ContentType
import StyleBundle.DependencySet
import StyleBundle.Digest.Basic
import StyleBundle.Digest.Sha256
import StyleBundle.Engine
import StyleBundle.Expansion
import StyleBundle.FileSystem
import StyleBundle.Glob
import StyleBundle.Host
import StyleBundle.Importer
import StyleBundle.Json.Basic
import StyleBundle.Json.Reader
import StyleBundle.Lookup
import StyleBundle.Main
import StyleBundle.Options
import StyleBundle.Options.Yaml
import StyleBundle.Path.Basic
import StyleBundle.Path.Normal
import StyleBundle.Source.Comment
import StyleBundle.Source.Directive
import StyleBundle.Text.Affix
import StyleBundle.Text.CharSet
import StyleBundle.Text.Concealed
import StyleBundle.Text.Hex
import StyleBundle.Text.Quoted
import StyleBundle.Text.Split
import StyleBundle.Text.Utf8
import StyleBundle.Text.WordChar
import StyleBundle.Tree
import StyleBundle.Yaml.Characters
import StyleBundle.Yaml.Content
import StyleBundle.Yaml.Node
import StyleBundle.Yaml.Number
import StyleBundle.Yaml.Scalar
import StyleBundle.Yaml.Token
import StyleBundle.Proofs.Expansion.Cursor
import StyleBundle.Proofs.Expansion.Step
import StyleBundle.Proofs.Expansion.Carry
import StyleBundle.Proofs.Path
import StyleBundle.Proofs.Tree
import StyleBundle.Proofs.Source.Substitution
import StyleBundle.Proofs.Expansion.Targets
import StyleBundle.Proofs.Expansion.Meaning
import StyleBundle.Proofs.Json
import StyleBundle.Proofs.Digest
import StyleBundle.Proofs.Cache.Entry
import StyleBundle.Proofs.Cache.Key
import StyleBundle.Proofs.Cache.Memory
import StyleBundle.Proofs.Cache.Exchange
import StyleBundle.Proofs.Engine.Compile
import StyleBundle.Proofs.DependencySet
import StyleBundle.Proofs.Expansion.Visits
import StyleBundle.Proofs.Expansion.Contents
import StyleBundle.Proofs.Engine.Session
import StyleBundle.Proofs.Engine.Transparency
import StyleBundle.Proofs.Engine.Roots
import StyleBundle.Proofs.Engine.Freshness
import StyleBundle.Proofs.Engine.Sharing
import StyleBundle.Proofs.Order
import StyleBundle.Proofs.Expansion.InOrder
import StyleBundle.Proofs.Expansion.Places
import StyleBundle.Proofs.Engine.Influence
import StyleBundle.Proofs.Expansion.Graph
import StyleBundle.Proofs.Expansion.Walk
import StyleBundle.Proofs.Engine.Dependencies
import StyleBundle.Proofs.Expansion.Failure
import StyleBundle.Proofs.Engine.Success
import StyleBundle.Proofs.Expansion.Nesting
import StyleBundle.Proofs.Engine.Termination
import StyleBundle.Proofs.Engine.Provenance
import StyleBundle.Proofs.Engine.Repetition
import StyleBundle.Proofs.Engine.BrokenStore
import StyleBundle.Proofs.Engine.Footprint
import StyleBundle.Proofs.Cache.Sameness
import StyleBundle.Proofs.Cache.Version
import StyleBundle.Proofs.Engine.Lending
import StyleBundle.Proofs.Engine.Listing
import StyleBundle.Proofs.Path.Steps
import StyleBundle.Proofs.Path.Below
import StyleBundle.Proofs.Path.Parent
import StyleBundle.Proofs.Cache.EntryPath
import StyleBundle.Proofs.Config
import StyleBundle.Proofs.Cache.OnDisk
import StyleBundle.Proofs.Import.Candidates
import StyleBundle.Proofs.Import.Order
import StyleBundle.Proofs.Import.Places
import StyleBundle.Proofs.Source.Grammar
import StyleBundle.Proofs.Path.Names
import StyleBundle.Proofs.Tree.Ancestry
import StyleBundle.Proofs.Expansion.GlobMatches
import StyleBundle.Proofs.Import.CandidateList
import StyleBundle.Proofs.Import.Dotted
import StyleBundle.Proofs.Engine.Cycles
import StyleBundle.Proofs.Tree.Map
import StyleBundle.Proofs.Source.Bytes
import StyleBundle.Proofs.Source.Comments
import StyleBundle.Proofs.Source.Leaps
import StyleBundle.Proofs.Source.Locality
import StyleBundle.Proofs.ContentType
import StyleBundle.Proofs.Tree.Shape
import StyleBundle.Proofs.Cache.Containment
import StyleBundle.Proofs.Engine.Identity
import StyleBundle.Proofs.Engine.OneFile
import StyleBundle.Proofs.Engine.Climb
import StyleBundle.Proofs.Options
import StyleBundle.Proofs.Path.Canonical
import StyleBundle.Proofs.DependencySet.Algebra
import StyleBundle.Proofs.DependencySet.Linked
