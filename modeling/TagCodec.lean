import TagCodec.Bytes.Output
import TagCodec.Bytes.Cursor
import TagCodec.Binary64.Text
import TagCodec.Text.Quoted
import TagCodec.Json.Text
import TagCodec.Json.Number
import TagCodec.Json.Printer
import TagCodec.Json.Record
import TagCodec.Value.Text
import TagCodec.Value.Record
import TagCodec.Format.Payload
import TagCodec.Names
import TagCodec.Fallback.Memo
import TagCodec.Layout
import TagCodec.Draft
import TagCodec.Registry.Lookup
import TagCodec.Encoding
import TagCodec.Decoding
import TagCodec.CommandLine
import TagCodec.Main
import TagCodec.Proofs.Agreement
import TagCodec.Proofs.Streaming
import TagCodec.Proofs.Transcript
import TagCodec.Proofs.Transfer
import TagCodec.Proofs.PlainReading
import TagCodec.Proofs.Runs
import TagCodec.Proofs.MemoOrder
import TagCodec.Proofs.Assembly
import TagCodec.Proofs.NearestClaim
import TagCodec.Proofs.RegistrationOrder
import TagCodec.Proofs.SingleConstruction
import TagCodec.Proofs.Reopening
import TagCodec.Proofs.Watching
import TagCodec.Proofs.Objects
import TagCodec.Proofs.EqualLayouts
import TagCodec.Proofs.Extension
import TagCodec.Proofs.NumberRange
import TagCodec.Proofs.Writers
import TagCodec.Proofs.Reencoding
import TagCodec.Proofs.PartialWrites
import TagCodec.Proofs.WriteRuns
import TagCodec.Proofs.Listing
import TagCodec.Proofs.ConstantIdentity
import TagCodec.Proofs.Tables
import TagCodec.Proofs.FallbackOutcome
import TagCodec.Proofs.RecordPayloads
import TagCodec.Proofs.Conflicts
import TagCodec.Proofs.VarintLanguage
import TagCodec.Proofs.FieldSequences
import TagCodec.Proofs.SampleRuns
import TagCodec.Proofs.ShortestSpelling
import TagCodec.Proofs.CursorRuns
import TagCodec.Proofs.LosslessText
