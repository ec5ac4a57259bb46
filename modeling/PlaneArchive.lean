import PlaneArchive.Add
import PlaneArchive.Bits
import PlaneArchive.Block
import PlaneArchive.Bytes
import PlaneArchive.CommandLine.Command
import PlaneArchive.CommandLine.Parse
import PlaneArchive.CommandLine.Usage
import PlaneArchive.Compression
import PlaneArchive.Contents
import PlaneArchive.Error
import PlaneArchive.FileTree.Basic
import PlaneArchive.FileTree.Path
import PlaneArchive.Frame
import PlaneArchive.Gzip.Checksum
import PlaneArchive.Gzip.Deflate
import PlaneArchive.Gzip.Member
import PlaneArchive.Header.Basic
import PlaneArchive.Header.Codec
import PlaneArchive.History
import PlaneArchive.Main
import PlaneArchive.Padding
import PlaneArchive.Pipeline
import PlaneArchive.Pipeline.Machine
import PlaneArchive.Record
import PlaneArchive.Scan.Basic
import PlaneArchive.Scan.Expansion
import PlaneArchive.Scan.Machine
import PlaneArchive.Scan.Sequential
import PlaneArchive.Scan.Shared
import PlaneArchive.Sink.Basic
import PlaneArchive.Sink.Buffer
import PlaneArchive.Sink.File
import PlaneArchive.Sink.Limited
import PlaneArchive.Sink.Recorder
import PlaneArchive.Sink.Scripted
import PlaneArchive.Tar.Attribute
import PlaneArchive.Tar.Entry
import PlaneArchive.Tar.Header
import PlaneArchive.Tar.Sparse
import PlaneArchive.Text.Blank
import PlaneArchive.Text.Digits
import PlaneArchive.Text.Utf8
import PlaneArchive.Transpose.Basic
import PlaneArchive.Transpose.Tiles
import PlaneArchive.Wire.Field
import PlaneArchive.Wire.Varint
import PlaneArchive.Writer.Basic
import PlaneArchive.Writer.Session
import PlaneArchive.Zstandard.Checksum
import PlaneArchive.Zstandard.Frame
import PlaneArchive.Zstandard.Literals
import PlaneArchive.Zstandard.Sequence
import PlaneArchive.Zstandard.StateTable
import PlaneArchive.Zstandard.Stored
import PlaneArchive.Zstandard.WeightedCode
import PlaneArchive.Proofs.Padding
import PlaneArchive.Proofs.Transpose.Tiling
import PlaneArchive.Proofs.Transpose.Bounds
import PlaneArchive.Proofs.Transpose.Copying
import PlaneArchive.Proofs.Transpose.IndexMapping
import PlaneArchive.Proofs.Transpose.Composition
import PlaneArchive.Proofs.Transpose.Inverse
import PlaneArchive.Proofs.Wire.Fields
import PlaneArchive.Proofs.Wire.Canonical
import PlaneArchive.Proofs.Header.Codec
import PlaneArchive.Proofs.Header.RoundTrip
import PlaneArchive.Proofs.Frame.Reading
import PlaneArchive.Proofs.Frame.Tearing
import PlaneArchive.Proofs.Block.Records
import PlaneArchive.Proofs.Block.Appending
import PlaneArchive.Proofs.Writer.Frames
import PlaneArchive.Proofs.Writer.Cuts
import PlaneArchive.Proofs.Writer.Packing
import PlaneArchive.Proofs.Writer.Partition
import PlaneArchive.Proofs.Sink.Filling
import PlaneArchive.Proofs.Sink.Lengths
import PlaneArchive.Proofs.Sink.File
import PlaneArchive.Proofs.Sink.Calls
import PlaneArchive.Proofs.Frame.Writing
import PlaneArchive.Proofs.Writer.Emission
import PlaneArchive.Proofs.Writer.Counting
import PlaneArchive.Proofs.Writer.Batches
import PlaneArchive.Proofs.Writer.RoundTrip
import PlaneArchive.Proofs.Writer.Boundaries
import PlaneArchive.Proofs.Writer.Poisoning
import PlaneArchive.Proofs.Writer.TornFrames
import PlaneArchive.Proofs.Writer.Failures
import PlaneArchive.Proofs.Writer.Layouts
import PlaneArchive.Proofs.Scan.Worklist
import PlaneArchive.Proofs.Scan.Accounts
import PlaneArchive.Proofs.Scan.Pending
import PlaneArchive.Proofs.Scan.Shutdown
import PlaneArchive.Proofs.Scan.ScheduleIndependence
import PlaneArchive.Proofs.Scan.Expanding
import PlaneArchive.Proofs.Gzip.Members
import PlaneArchive.Proofs.Scan.Tasks
import PlaneArchive.Proofs.Scan.Isolation
import PlaneArchive.Proofs.FileTree.Resolution
import PlaneArchive.Proofs.FileTree.Entries
import PlaneArchive.Proofs.Scan.Origins
import PlaneArchive.Proofs.Scan.FanOut
import PlaneArchive.Proofs.Scan.Reference
import PlaneArchive.Proofs.Scan.Progress
import PlaneArchive.Proofs.Scan.Termination
import PlaneArchive.Proofs.Scan.Counting
import PlaneArchive.Proofs.Scan.Dismissal
import PlaneArchive.Proofs.Tar.Walk
import PlaneArchive.Proofs.Scan.TarFiles
import PlaneArchive.Proofs.Scan.GzipItems
import PlaneArchive.Proofs.Pipeline.Moves
import PlaneArchive.Proofs.Pipeline.Progress
import PlaneArchive.Proofs.Pipeline.Consumption
import PlaneArchive.Proofs.Pipeline.Termination
import PlaneArchive.Proofs.Pipeline.Delivery
import PlaneArchive.Proofs.Pipeline.Success
import PlaneArchive.Proofs.Pipeline.Faithful
import PlaneArchive.Proofs.Add.Additions
import PlaneArchive.Proofs.Add.Configuration
