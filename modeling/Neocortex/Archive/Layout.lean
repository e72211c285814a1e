import Neocortex.Archive.Zip

/-!
# The layout of a ZIP file

The records of a ZIP file as bytes, written from their fields: what `struct.pack` makes of the formats
that `platform.zip_safety` unpacks.
-/

namespace Neocortex
namespace Archive

open Python

/-- A little-endian field of `width` bytes. -/
def packField : ℕ → ℕ → Bytes
  | 0, _ => []
  | width + 1, value => UInt8.ofNat value :: packField width (value / 256)

/-- A record of fields, each with its width. -/
def packFields (fields : List (ℕ × ℕ)) : Bytes := fields.flatMap fun f => packField f.1 f.2

/-- A local file header of a member without data descriptor, and its name. -/
def packLocal (compression compressedSize uncompressedSize : ℕ) (name : Bytes) : Bytes :=
  localFileSignature ++ packFields [(2, 20), (2, 0), (2, compression), (2, 0), (2, 0), (4, 0),
    (4, compressedSize), (4, uncompressedSize), (2, name.length), (2, 0)] ++ name

/-- The record of such a member in the central directory, with its extra fields. -/
def packCentralExtra (compression compressedSize uncompressedSize headerOffset : ℕ)
    (name extra : Bytes) : Bytes :=
  centralSignature ++ packFields [(2, 20), (2, 20), (2, 0), (2, compression), (2, 0), (2, 0), (4, 0),
    (4, compressedSize), (4, uncompressedSize), (2, name.length), (2, extra.length), (2, 0), (2, 0),
    (2, 0), (4, 0), (4, headerOffset)] ++ name ++ extra

/-- The record without extra fields. -/
def packCentral (compression compressedSize uncompressedSize headerOffset : ℕ) (name : Bytes) :
    Bytes :=
  packCentralExtra compression compressedSize uncompressedSize headerOffset name []

/-- The record with its sizes in a ZIP64 extra field. -/
def packCentralZip64 (compression compressedSize uncompressedSize headerOffset : ℕ) (name : Bytes) :
    Bytes :=
  packCentralExtra compression 0xFFFFFFFF 0xFFFFFFFF headerOffset name
    (packFields [(2, 1), (2, 16), (8, uncompressedSize), (8, compressedSize)])

/-- An end record without comment. -/
def packEnd (members centralSize centralOffset : ℕ) : Bytes :=
  eocdSignature ++ packFields [(2, 0), (2, 0), (2, members), (2, members), (4, centralSize),
    (4, centralOffset), (2, 0)]

end Archive
end Neocortex
