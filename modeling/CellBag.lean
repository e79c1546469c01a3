import CellBag.Address.Basic
import CellBag.Address.Message
import CellBag.Address.Stored
import CellBag.Address.Text
import CellBag.Bag.Basic
import CellBag.Bag.Decode
import CellBag.Bag.Encode
import CellBag.Bag.Header
import CellBag.Bag.Record
import CellBag.Bag.Scan
import CellBag.Bag.Table
import CellBag.Bag.Text
import CellBag.Binary
import CellBag.Bits.Basic
import CellBag.Bits.Read
import CellBag.Bits.Tape
import CellBag.Bits.Text
import CellBag.Bits.Write
import CellBag.Builder
import CellBag.Cell.Basic
import CellBag.Cell.Construct
import CellBag.Cell.Lookup
import CellBag.Cell.Exotic
import CellBag.Cell.Finalize
import CellBag.Cell.Text
import CellBag.Checksum.Crc16
import CellBag.Checksum.Crc32
import CellBag.Command.Arguments
import CellBag.Command.Basic
import CellBag.Command.Run
import CellBag.Dictionary.Basic
import CellBag.Dictionary.Key
import CellBag.Dictionary.Label
import CellBag.Dictionary.Trie
import CellBag.Digest
import CellBag.Error
import CellBag.Json.Number
import CellBag.Json.Record
import CellBag.Json.Scan
import CellBag.LevelMask
import CellBag.Main
import CellBag.MethodId
import CellBag.Octets
import CellBag.Settings
import CellBag.Sha256
import CellBag.Slice.Basic
import CellBag.Slice.Load
import CellBag.Snake
import CellBag.Stack.Basic
import CellBag.Stack.Value
import CellBag.StateInit
import CellBag.Text.Base64
import CellBag.Text.Blank
import CellBag.Text.Decimal
import CellBag.Text.Hex
import CellBag.Proofs.Binary
import CellBag.Proofs.Bits
import CellBag.Proofs.Checksum
import CellBag.Proofs.LevelMask
import CellBag.Proofs.TwosComplement
import CellBag.Proofs.Bits.Write
import CellBag.Proofs.Bits.Read
import CellBag.Proofs.Cell.Layout
import CellBag.Proofs.Cell.Built
import CellBag.Proofs.Cell.Fingerprint
import CellBag.Proofs.Cell.Lookup
import CellBag.Proofs.Cell.Pruning
import CellBag.Proofs.Cell.Message
import CellBag.Proofs.Cell.Binding
import CellBag.Proofs.Bag.Table
import CellBag.Proofs.Cell.Soundness
import CellBag.Proofs.Bag.Scan
import CellBag.Proofs.Bag.Record
import CellBag.Proofs.Bag.Order
import CellBag.Proofs.Bag.Assembly
import CellBag.Proofs.Bag.Rebuild
import CellBag.Proofs.Bag.Header
import CellBag.Proofs.Bag.Image
import CellBag.Proofs.Bag.Contents
import CellBag.Proofs.Bag.Encode
import CellBag.Proofs.Bag.RoundTrip
import CellBag.Proofs.Bag.Roots
import CellBag.Proofs.Bag.Corruption
import CellBag.Proofs.Builder
import CellBag.Proofs.Slice
import CellBag.Proofs.Dictionary.Label
import CellBag.Proofs.Dictionary.Order
import CellBag.Proofs.Dictionary.Trie
import CellBag.Proofs.Dictionary.Tree
import CellBag.Proofs.Dictionary.RoundTrip
import CellBag.Proofs.Dictionary.Node
import CellBag.Proofs.Dictionary.Acceptance
import CellBag.Proofs.Stream.Recovery
import CellBag.Proofs.Stream.Codec
import CellBag.Proofs.Stream.Field
import CellBag.Proofs.Stack.Loading
import CellBag.Proofs.Stack.Value
import CellBag.Proofs.Stack.RoundTrip
import CellBag.Bits.Buffer
import CellBag.Bits.Lookup
import CellBag.Proofs.Bits.Buffer
import CellBag.Proofs.Bits.Tape
import CellBag.Proofs.Bits.Lookup
import CellBag.Proofs.Bits.Parts
import CellBag.Proofs.Bits.Reader
import CellBag.Proofs.Atomic
import CellBag.Proofs.Builder.Appends
import CellBag.Proofs.Builder.Calls
import CellBag.Proofs.Slice.Reads
import CellBag.Proofs.Slice.Calls
import CellBag.Proofs.Dictionary.Canonical
import CellBag.Proofs.Dictionary.Uniqueness
import CellBag.Proofs.Dictionary.ByteOrder
import CellBag.Proofs.Dictionary.History
import CellBag.Proofs.Cell.Depth
import CellBag.Proofs.Dictionary.Shortest
import CellBag.Proofs.Snake
import CellBag.Proofs.Dictionary.Exotic
import CellBag.Proofs.Builder.Writes
import CellBag.Proofs.Stream.Spelling
import CellBag.Proofs.StateInit.Layout
import CellBag.Proofs.StateInit.RoundTrip
import CellBag.Proofs.StateInit.Address
import CellBag.Proofs.Cell.Levels
import CellBag.Proofs.Bag.Framing
import CellBag.Bag.Search
import CellBag.Proofs.Bag.Search
import CellBag.Proofs.Snake.Chain
import CellBag.Proofs.Snake.RoundTrip
import CellBag.Proofs.Cell.Height
import CellBag.Proofs.Cell.Exotic
import CellBag.Proofs.Dictionary.LabelLength
import CellBag.Proofs.Dictionary.Splitting
import CellBag.Proofs.Dictionary.Room
import CellBag.Proofs.Bits.Words
import CellBag.Proofs.Stream.Variable
import CellBag.Proofs.Stack.Window
import CellBag.Proofs.Text.Base64
import CellBag.Proofs.Text.Digits
import CellBag.Proofs.Address.Text
import CellBag.Proofs.Checksum.Burst
import CellBag.Proofs.Address.Mistyped
import CellBag.Proofs.Bits.Text
import CellBag.Proofs.Cell.Text
import CellBag.Proofs.Command.Format
