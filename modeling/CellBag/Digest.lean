import CellBag.Sha256
import CellBag.Text.Hex

/-!
# Digests

A digest is 32 bytes: the SHA-256 of a message, or bytes that claim to be one.
-/

namespace CellBag

/-- Thirty-two bytes. -/
@[ext]
structure Digest where
  bytes : List UInt8
  length_bytes : bytes.length = 32
deriving DecidableEq

namespace Digest

/-- The digest of a message. -/
def of (message : List UInt8) : Digest :=
  ⟨(Sha256.final message).bytes, Sha256.State.length_bytes _⟩

/-- Bytes as a digest, if there are 32 of them. -/
def ofBytes? (bytes : List UInt8) : Option Digest :=
  if h : bytes.length = 32 then some ⟨bytes, h⟩ else none

/-- The bits of a digest. -/
def bits (d : Digest) : List Bool :=
  Octets.unpack d.bytes

/-- A digest as 64 lower-case hexadecimal digits. -/
def text (d : Digest) : String :=
  Text.Hex.lower d.bytes

instance : Inhabited Digest :=
  ⟨⟨List.replicate 32 0, by decide⟩⟩

instance : Hashable Digest :=
  ⟨fun d => hash d.bytes⟩

end Digest

end CellBag
