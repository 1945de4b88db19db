import ChunkStrings.Main
import ChunkStrings.Proofs.Emission
import ChunkStrings.Proofs.RecordRun
import ChunkStrings.RecordTable
import ChunkStrings.Session
import ChunkStrings.Proofs.TableRoundTrip
import ChunkStrings.Proofs.Reencoding
import ChunkStrings.Proofs.CompactMismatch
import ChunkStrings.Proofs.MachineWords
import ChunkStrings.Proofs.MachineSession
import ChunkStrings.Proofs.Rollback
import ChunkStrings.Proofs.Truncation
import ChunkStrings.Proofs.Workers
import ChunkStrings.Proofs.CompactCensus
import ChunkStrings.Proofs.EncodedSize
import ChunkStrings.Proofs.Delivery
import ChunkStrings.Proofs.UniqueDecoding
import ChunkStrings.Proofs.Tracing
import ChunkStrings.Proofs.Numerals
import ChunkStrings.Proofs.Spelling
import ChunkStrings.Proofs.Resumption
import ChunkStrings.Proofs.LengthPrefix
import ChunkStrings.Proofs.StoredContent
import ChunkStrings.Proofs.Switches
import ChunkStrings.Proofs.Verdict
import ChunkStrings.Proofs.AllOrNothing
import ChunkStrings.Proofs.EncodedText
import ChunkStrings.Proofs.KeystreamDoubling
import ChunkStrings.Proofs.SuccessiveReads
import ChunkStrings.Proofs.Progress
import ChunkStrings.Proofs.StoredIntegers
import ChunkStrings.Proofs.NumeralGrammar
import ChunkStrings.Proofs.EscapedText
import ChunkStrings.Proofs.SourceAccess
import ChunkStrings.Proofs.Counting
import ChunkStrings.Proofs.JsonText
import ChunkStrings.Proofs.TableText
import ChunkStrings.Proofs.PrintedProducts
