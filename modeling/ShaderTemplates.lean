import ShaderTemplates.Text
import ShaderTemplates.SortedMap
import ShaderTemplates.Directives
import ShaderTemplates.Template.Token
import ShaderTemplates.Template.Token.Match
import ShaderTemplates.Template.Token.Stream
import ShaderTemplates.Template.Content
import ShaderTemplates.Template.Conditional
import ShaderTemplates.Template.Block
import ShaderTemplates.Template.Variable
import ShaderTemplates.Template.Values
import ShaderTemplates.Template.Inventory
import ShaderTemplates.Template.Conversion
import ShaderTemplates.Path
import ShaderTemplates.Error
import ShaderTemplates.Generator
import ShaderTemplates.Toml.Quoted
import ShaderTemplates.Toml.Number
import ShaderTemplates.Toml.Moment
import ShaderTemplates.Toml.Value
import ShaderTemplates.Toml.Reader
import ShaderTemplates.Toml.Section
import ShaderTemplates.Toml.Writer
import ShaderTemplates.Config
import ShaderTemplates.FileTree
import ShaderTemplates.FileTree.Lookup
import ShaderTemplates.FileTree.Write
import ShaderTemplates.Catalog
import ShaderTemplates.Project
import ShaderTemplates.Project.Export
import ShaderTemplates.Json
import ShaderTemplates.CommandLine.Arguments
import ShaderTemplates.CommandLine.Listing
import ShaderTemplates.CommandLine.Run
import ShaderTemplates.Main
import ShaderTemplates.Proofs.Reading
import ShaderTemplates.Proofs.Markers
import ShaderTemplates.Proofs.LineBreaks
import ShaderTemplates.Proofs.MarkerLines
import ShaderTemplates.Proofs.Contents
import ShaderTemplates.Proofs.Layout
import ShaderTemplates.Proofs.Pieces
import ShaderTemplates.Proofs.LayoutPasses
import ShaderTemplates.Proofs.Words
import ShaderTemplates.Proofs.WellFormed
import ShaderTemplates.Proofs.Evaluation
import ShaderTemplates.Proofs.Canonical
import ShaderTemplates.Proofs.LineWords
import ShaderTemplates.Proofs.BlockSites
import ShaderTemplates.Proofs.BlockRegions
import ShaderTemplates.Proofs.ScanCompleteness
import ShaderTemplates.Proofs.QuotedTexts
import ShaderTemplates.Proofs.Tables
import ShaderTemplates.Proofs.WrittenLines
import ShaderTemplates.Proofs.WrittenDocuments
import ShaderTemplates.Proofs.GeneratorDocuments
import ShaderTemplates.Proofs.Walks
import ShaderTemplates.Proofs.FileChanges
import ShaderTemplates.Proofs.Catalogs
import ShaderTemplates.Proofs.SettledGenerators
import ShaderTemplates.Proofs.Exports
import ShaderTemplates.Proofs.Confinement
import ShaderTemplates.Proofs.PulledBlocks
import ShaderTemplates.Proofs.StoppedExports
import ShaderTemplates.Proofs.ExportSessions
import ShaderTemplates.Proofs.ForeignFiles
import ShaderTemplates.Proofs.FailedExports
import ShaderTemplates.Proofs.RecordedOutputs
import ShaderTemplates.Proofs.KeptChoices
import ShaderTemplates.Proofs.ExportEffects
import ShaderTemplates.Proofs.FileDifferences
import ShaderTemplates.Proofs.PullThenExport
import ShaderTemplates.Proofs.SavedDocuments
import ShaderTemplates.Proofs.Pairings
import ShaderTemplates.Proofs.Closings
import ShaderTemplates.Proofs.CutTexts
import ShaderTemplates.Proofs.BranchTexts
import ShaderTemplates.Proofs.Forests
import ShaderTemplates.Proofs.HeaderWalls
import ShaderTemplates.Proofs.UntakenBranches
import ShaderTemplates.Proofs.HiddenBranches
import ShaderTemplates.Proofs.CarriageReturns
import ShaderTemplates.Proofs.PairedPasses
import ShaderTemplates.Proofs.LineEndings
import ShaderTemplates.Proofs.ExportRuns
import ShaderTemplates.Proofs.AddedValues
import ShaderTemplates.Proofs.VisitedConditionals
import ShaderTemplates.Proofs.GrownDirectories
import ShaderTemplates.Proofs.CreatedGenerators
import ShaderTemplates.Proofs.SameChanges
import ShaderTemplates.Proofs.IndependentExports
import ShaderTemplates.Proofs.TemplateDefaults
import ShaderTemplates.Proofs.ResolvedValues
import ShaderTemplates.Proofs.SyncedNames
import ShaderTemplates.Proofs.ShownBlocks
import ShaderTemplates.Proofs.InsertedValues
import ShaderTemplates.Proofs.ReadBack
import ShaderTemplates.Proofs.RewrittenHeaders
import ShaderTemplates.Proofs.PlainTemplates
import ShaderTemplates.Proofs.JoinedDirectories
import ShaderTemplates.Proofs.ConvertedBreaks
import ShaderTemplates.Proofs.RedrawnTexts
import ShaderTemplates.Proofs.StableOutputs
import ShaderTemplates.Proofs.ExportAgain
import ShaderTemplates.Proofs.Listings
import ShaderTemplates.Proofs.ListedGenerators
import ShaderTemplates.Proofs.ListedTemplates
import ShaderTemplates.Proofs.Labels
import ShaderTemplates.FileTree.Draft
import ShaderTemplates.Proofs.Drafts
import ShaderTemplates.Template.Offsets.Slice
import ShaderTemplates.Template.Offsets.Match
import ShaderTemplates.Template.Offsets.Stream
import ShaderTemplates.Template.Offsets.Region
import ShaderTemplates.Template.Offsets.Conversion
import ShaderTemplates.Proofs.ByteMatches
import ShaderTemplates.Proofs.CommentLeaders
import ShaderTemplates.Proofs.ByteMarkers
import ShaderTemplates.Proofs.ByteReading
import ShaderTemplates.Proofs.PlacedItems
import ShaderTemplates.Proofs.OffsetRegions
import ShaderTemplates.Proofs.OffsetConversion
import ShaderTemplates.Proofs.OffsetSpans
import ShaderTemplates.Proofs.LoggedLines
import ShaderTemplates.Proofs.MarkerCounts
import ShaderTemplates.Proofs.MatchedHeaders
import ShaderTemplates.Proofs.InsertionRuns
