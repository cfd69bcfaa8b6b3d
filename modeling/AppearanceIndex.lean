import AppearanceIndex.Bloom.Builder
import AppearanceIndex.Bloom.File
import AppearanceIndex.Chunk.Builder
import AppearanceIndex.Chunk.File
import AppearanceIndex.Ingest.Progress
import AppearanceIndex.Main
import AppearanceIndex.Proofs.Decode.Count
import AppearanceIndex.Source.Sparse
import AppearanceIndex.Proofs.Decode.Ending
import AppearanceIndex.Proofs.Bloom.Lookup
import AppearanceIndex.Proofs.Bloom.Written
import AppearanceIndex.Proofs.Chunk.Written
import AppearanceIndex.Proofs.Decode.Shards
import AppearanceIndex.Proofs.Decode.Undisturbed
import AppearanceIndex.Proofs.Decode.Whole
import AppearanceIndex.Proofs.Files.Changes
import AppearanceIndex.Proofs.Files.Filed
import AppearanceIndex.Proofs.Files.Name
import AppearanceIndex.Proofs.Index.Agreement
import AppearanceIndex.Proofs.Decode.Sequential
import AppearanceIndex.Proofs.Scan.Groups
import AppearanceIndex.Proofs.Ingest.Batches
import AppearanceIndex.Proofs.Ingest.Counted
import AppearanceIndex.Proofs.Run.Causes
import AppearanceIndex.Proofs.Run.Rows
import AppearanceIndex.Proofs.Run.Followed
import AppearanceIndex.Proofs.Run.Durable
import AppearanceIndex.Proofs.Chunk.Recode
import AppearanceIndex.Proofs.Chunk.Search
import AppearanceIndex.Proofs.Chunk.Canonical
import AppearanceIndex.Proofs.Chunk.RoundTrip
import AppearanceIndex.Proofs.Bloom.Exact
import AppearanceIndex.Proofs.Decode.Rebuilt
import AppearanceIndex.Proofs.Chunk.Opened
import AppearanceIndex.Proofs.Bloom.Answer
import AppearanceIndex.Proofs.Chunk.Verdict
import AppearanceIndex.Proofs.Decode.Stopping
import AppearanceIndex.Proofs.Source.Session
import AppearanceIndex.Proofs.Decode.Unread
import AppearanceIndex.Proofs.Index.Selection
import AppearanceIndex.Proofs.Text.RangeGrammar
import AppearanceIndex.Proofs.Json.Written
import AppearanceIndex.Proofs.Text.HexText
import AppearanceIndex.Proofs.Json.Row
import AppearanceIndex.Proofs.Run.RowFile
import AppearanceIndex.Proofs.Run.LogFile
import AppearanceIndex.Proofs.Word.Checked
import AppearanceIndex.Proofs.Word.Chunk
import AppearanceIndex.Proofs.Word.Shards
import AppearanceIndex.Proofs.Word.Bloom
import AppearanceIndex.Proofs.Word.Exact
import AppearanceIndex.Proofs.Index.Printed
import AppearanceIndex.Proofs.Layout.Inverse
