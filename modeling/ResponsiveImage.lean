import ResponsiveImage.Command.Arguments
import ResponsiveImage.Command.Run
import ResponsiveImage.Digest.Sha1
import ResponsiveImage.Edit.Basic
import ResponsiveImage.Edit.Splice
import ResponsiveImage.Eligibility
import ResponsiveImage.Fault
import ResponsiveImage.Files.Content
import ResponsiveImage.Files.Tree
import ResponsiveImage.Json.Printer
import ResponsiveImage.Json.Reader
import ResponsiveImage.Json.Value
import ResponsiveImage.Main
import ResponsiveImage.Markup.Attribute
import ResponsiveImage.Markup.Document
import ResponsiveImage.Markup.Element
import ResponsiveImage.Markup.Event
import ResponsiveImage.Markup.Expression
import ResponsiveImage.Markup.Mask
import ResponsiveImage.Markup.Node
import ResponsiveImage.Markup.StartTag
import ResponsiveImage.Number.Basic
import ResponsiveImage.Number.Binary64
import ResponsiveImage.Number.Decimal
import ResponsiveImage.Options.Basic
import ResponsiveImage.Options.Field
import ResponsiveImage.Options.Load
import ResponsiveImage.Path.Basic
import ResponsiveImage.Path.FileName
import ResponsiveImage.Path.Url
import ResponsiveImage.Picture.Codec
import ResponsiveImage.Picture.Encoder
import ResponsiveImage.Picture.HeaderCodec
import ResponsiveImage.Picture.MimeType
import ResponsiveImage.Picture.OutputPlan
import ResponsiveImage.Picture.Signature
import ResponsiveImage.Picture.Size
import ResponsiveImage.Picture.Variant
import ResponsiveImage.Placeholder.Basic
import ResponsiveImage.Placeholder.Outline
import ResponsiveImage.Placeholder.Raster
import ResponsiveImage.Proofs.Command.InPlace
import ResponsiveImage.Proofs.Command.Refusals
import ResponsiveImage.Proofs.Edit.Arrangements
import ResponsiveImage.Proofs.Edit.Collisions
import ResponsiveImage.Proofs.Edit.Landings
import ResponsiveImage.Proofs.Edit.WriteOut
import ResponsiveImage.Proofs.Files.Tree
import ResponsiveImage.Proofs.Job.Beside
import ResponsiveImage.Proofs.Job.Changing
import ResponsiveImage.Proofs.Job.Looking
import ResponsiveImage.Proofs.Job.Making
import ResponsiveImage.Proofs.Job.Run
import ResponsiveImage.Proofs.Markup.AddedAttributes
import ResponsiveImage.Proofs.Markup.Agreement
import ResponsiveImage.Proofs.Markup.Balanced
import ResponsiveImage.Proofs.Markup.EditedTags
import ResponsiveImage.Proofs.Markup.Listing
import ResponsiveImage.Proofs.Markup.Lookahead
import ResponsiveImage.Proofs.Markup.Masked
import ResponsiveImage.Proofs.Markup.Nesting
import ResponsiveImage.Proofs.Markup.Pieces
import ResponsiveImage.Proofs.Markup.Positions
import ResponsiveImage.Proofs.Markup.RawElements
import ResponsiveImage.Proofs.Markup.Reading
import ResponsiveImage.Proofs.Markup.Segments
import ResponsiveImage.Proofs.Markup.SourceEdit
import ResponsiveImage.Proofs.Markup.SpanTexts
import ResponsiveImage.Proofs.Markup.Spans
import ResponsiveImage.Proofs.Markup.TagEnds
import ResponsiveImage.Proofs.Markup.TagText
import ResponsiveImage.Proofs.Markup.Transplants
import ResponsiveImage.Proofs.Markup.WrittenTags
import ResponsiveImage.Proofs.Number.Comparison
import ResponsiveImage.Proofs.Number.Exact
import ResponsiveImage.Proofs.Number.LeadingDigit
import ResponsiveImage.Proofs.Number.Text
import ResponsiveImage.Proofs.Obstacles
import ResponsiveImage.Proofs.Options.Checks
import ResponsiveImage.Proofs.Options.Defaults
import ResponsiveImage.Proofs.Options.RoundTrip
import ResponsiveImage.Proofs.Path.FileNames
import ResponsiveImage.Proofs.Path.Names
import ResponsiveImage.Proofs.Path.Resolving
import ResponsiveImage.Proofs.Path.Urls
import ResponsiveImage.Proofs.Picture.Again
import ResponsiveImage.Proofs.Picture.AlternateUrls
import ResponsiveImage.Proofs.Picture.CandidateSizes
import ResponsiveImage.Proofs.Picture.CandidateStrings
import ResponsiveImage.Proofs.Picture.Coupled
import ResponsiveImage.Proofs.Picture.InlineUri
import ResponsiveImage.Proofs.Picture.Missing
import ResponsiveImage.Proofs.Picture.NameClashes
import ResponsiveImage.Proofs.Picture.Outputs
import ResponsiveImage.Proofs.Picture.Pairing
import ResponsiveImage.Proofs.Picture.PublicUrls
import ResponsiveImage.Proofs.Picture.Renditions
import ResponsiveImage.Proofs.Picture.Reuse
import ResponsiveImage.Proofs.Picture.SourceSet
import ResponsiveImage.Proofs.Picture.Staging
import ResponsiveImage.Proofs.Picture.WholeSizes
import ResponsiveImage.Proofs.Remote.Downloads
import ResponsiveImage.Proofs.Remote.Interleaved
import ResponsiveImage.Proofs.Remote.Outcomes
import ResponsiveImage.Proofs.Remote.Refetched
import ResponsiveImage.Proofs.Remote.Repeated
import ResponsiveImage.Proofs.Remote.Room
import ResponsiveImage.Proofs.Rewrite.Closing
import ResponsiveImage.Proofs.Rewrite.ComponentAttributes
import ResponsiveImage.Proofs.Rewrite.Conflicts
import ResponsiveImage.Proofs.Rewrite.Directories
import ResponsiveImage.Proofs.Rewrite.Endings
import ResponsiveImage.Proofs.Rewrite.FoundAgain
import ResponsiveImage.Proofs.Rewrite.Histories
import ResponsiveImage.Proofs.Rewrite.Isolation
import ResponsiveImage.Proofs.Rewrite.LinkedCopies
import ResponsiveImage.Proofs.Rewrite.Markers
import ResponsiveImage.Proofs.Rewrite.Pages
import ResponsiveImage.Proofs.Rewrite.Passes
import ResponsiveImage.Proofs.Rewrite.Places
import ResponsiveImage.Proofs.Rewrite.Rereading
import ResponsiveImage.Proofs.Rewrite.Revisits
import ResponsiveImage.Proofs.Rewrite.SecondPass
import ResponsiveImage.Proofs.Rewrite.SourceFiles
import ResponsiveImage.Proofs.Rewrite.Tidy
import ResponsiveImage.Proofs.Rewrite.Turns
import ResponsiveImage.Proofs.Rewrite.Visits
import ResponsiveImage.Proofs.Searches
import ResponsiveImage.Proofs.Sources
import ResponsiveImage.Proofs.Text.Case
import ResponsiveImage.Proofs.Text.Newlines
import ResponsiveImage.Proofs.Text.Position
import ResponsiveImage.Proofs.Text.Utf8
import ResponsiveImage.Remote.ContentType
import ResponsiveImage.Remote.Download
import ResponsiveImage.Resolution
import ResponsiveImage.Rewrite.Page
import ResponsiveImage.Rewrite.Progress
import ResponsiveImage.Srcset
import ResponsiveImage.Text.Base64
import ResponsiveImage.Text.Blank
import ResponsiveImage.Text.Case
import ResponsiveImage.Text.CharSet
import ResponsiveImage.Text.Digit
import ResponsiveImage.Text.Letter
import ResponsiveImage.Text.Line
import ResponsiveImage.Text.Printable
import ResponsiveImage.Text.Quoted
import ResponsiveImage.Text.Search
import ResponsiveImage.Text.Split
import ResponsiveImage.Text.Utf8
import ResponsiveImage.Workspace
