import LogCodec.Bytes
import LogCodec.Bytes.Escaped
import LogCodec.Bytes.Hex
import LogCodec.Bytes.LittleEndian
import LogCodec.Checksum
import LogCodec.Codec
import LogCodec.Cursor
import LogCodec.DecodeError
import LogCodec.FlatBytes
import LogCodec.FlatBytes.Json
import LogCodec.Json.Reader
import LogCodec.Json.Token
import LogCodec.Json.Tree
import LogCodec.Json.Writer
import LogCodec.Logtype
import LogCodec.Logtype.Dump
import LogCodec.Matcher
import LogCodec.Matcher.Batch
import LogCodec.Matcher.Row
import LogCodec.Message
import LogCodec.Message.Decoding
import LogCodec.Message.Encoding
import LogCodec.Message.Json
import LogCodec.Misuse
import LogCodec.Packing
import LogCodec.Packing.Decimal
import LogCodec.Packing.Integer
import LogCodec.Placeholder
import LogCodec.Proofs.Coverage
import LogCodec.Proofs.PackedText
import LogCodec.Query.Combination
import LogCodec.Query.Cut
import LogCodec.Query.Decomposition
import LogCodec.Query.Dump
import LogCodec.Query.Part
import LogCodec.Query.Reading
import LogCodec.Query.Subquery
import LogCodec.Record
import LogCodec.Record.Header
import LogCodec.Roster
import LogCodec.Schema
import LogCodec.Search
import LogCodec.Settings
import LogCodec.Settings.Json
import LogCodec.Text.Quoted
import LogCodec.Text.Unprintable
import LogCodec.Version
import LogCodec.View
import LogCodec.View.Table
import LogCodec.Width
import LogCodec.Wildcard.Match
import LogCodec.Wildcard.Normal
import LogCodec.Wildcard.Pattern
import LogCodec.Written
import LogCodec.Proofs.Atom
import LogCodec.Proofs.RoundTrip
import LogCodec.Proofs.Alignment
import LogCodec.Proofs.Fields
import LogCodec.Proofs.Tiling
import LogCodec.Proofs.Soundness
import LogCodec.Proofs.Subqueries
import LogCodec.Proofs.Outlines
import LogCodec.Proofs.Alternatives
import LogCodec.Proofs.Splitting
import LogCodec.Proofs.Completeness
import LogCodec.Proofs.ExactQuery
import LogCodec.Proofs.WireForm
import LogCodec.Proofs.Escapes
import LogCodec.Proofs.NumberSearch
import LogCodec.Proofs.FixedWidth
import LogCodec.Proofs.RecordHeader
import LogCodec.Proofs.Consistency
import LogCodec.Proofs.RecordFormat
import LogCodec.Message.Operation
import LogCodec.Proofs.Operations
import LogCodec.Proofs.Storage
import LogCodec.FlatBytes.Operation
import LogCodec.Proofs.Segments
import LogCodec.Proofs.AppendedText
import LogCodec.Proofs.RecordSize
import LogCodec.Proofs.TrueHits
import LogCodec.Proofs.StaticReading
import LogCodec.Proofs.FalseHits
import LogCodec.Packing.Checked
import LogCodec.Packing.InPlace
import LogCodec.Message.InPlace
import LogCodec.Proofs.TokenGrammar
import LogCodec.Proofs.DigitLoop
import LogCodec.Proofs.PackedToken
import LogCodec.Proofs.PackedImage
import LogCodec.Proofs.DecodedText
import LogCodec.Bytes.EscapePairs
import LogCodec.Wildcard.Placed
import LogCodec.Wildcard.Expression
import LogCodec.Logtype.InPlace
import LogCodec.Proofs.PatternMeaning
import LogCodec.Proofs.NormalForm
import LogCodec.Proofs.LogtypeRoundTrip
import LogCodec.Query.LogtypeWriter
import LogCodec.Query.Ranges
import LogCodec.Query.InPlace
import LogCodec.Proofs.VariableRuns
import LogCodec.Proofs.Delimiters
import LogCodec.Proofs.LogtypeQuery
import LogCodec.Proofs.QueryUnits
import LogCodec.Proofs.StoredValues
import LogCodec.Proofs.RangedReadings
import LogCodec.Proofs.RangedChoices
import LogCodec.Proofs.RangedTokens
import LogCodec.Proofs.Odometer
import LogCodec.Proofs.LaidParts
import LogCodec.Proofs.BuiltSubqueries
import LogCodec.Proofs.Descriptors
import LogCodec.Logtype.NumberReader
import LogCodec.Matcher.Lazy
import LogCodec.Proofs.LazySearch
import LogCodec.Proofs.NumberedChoices
import LogCodec.Query.Words
import LogCodec.Proofs.QueryWords
import LogCodec.Proofs.SubqueryLimit
import LogCodec.Proofs.VariablePlaces
import LogCodec.Proofs.Seams
import LogCodec.Proofs.RepeatedReadings
import LogCodec.Proofs.DistinctSubqueries
import LogCodec.Proofs.BurstErrors
import LogCodec.Matcher.InPlace
import LogCodec.Proofs.BatchRows
import LogCodec.Matcher.Serialized
import LogCodec.Proofs.SerializedPatterns
import LogCodec.Proofs.DamagedHeaders
import LogCodec.Proofs.TypedNumbers
import LogCodec.FlatBytes.InPlace
import LogCodec.Proofs.SegmentReading
import LogCodec.Proofs.TokenSlots
import LogCodec.Message.EncodingInPlace
import LogCodec.Proofs.EncodingInPlace
