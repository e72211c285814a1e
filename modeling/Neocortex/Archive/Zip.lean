import Neocortex.Library.Checks
import Neocortex.Python.Text

/-!
# ZIP structure preflight

`platform.zip_safety`: the checks of a ZIP file's end records, central directory and local headers
before anything is extracted.

A file is its list of bytes.  A preflight is a `Scan`: it may raise, and it keeps the offset and the
length of every read, so that a theorem can say where it reads.

* `findEocd`, `zip64Details`: the end records.
* `zip64EntryValues`, `validateCentralMember`: one record of the central directory and the local
  header it names.
* `inspectCentralDirectory`, `inspectZipSource`: all records, and the whole preflight.
* `rawMemberPayloadOffset`, `readRawDeflateMember`: the bounds of the raw recovery of one member;
  zlib is a parameter.

Python's integers are natural numbers here; where a difference may be negative, its check stands in
front of it.
-/

namespace Neocortex
namespace Archive

open Python

/-! ## Reading -/

/-- `ZipStructureError`, and `ValueError` for a bound. -/
inductive ZipError where
  | structure_ (message : String)
  | value (message : String)
  | zlib (message : String)
  deriving DecidableEq

/-- A computation that may raise, with the reads so far: offset and length. -/
abbrev Scan := StateT (List (ℕ × ℕ)) (Except ZipError)

/-- `raise ZipStructureError(message)` under a condition. -/
def raiseIf (c : Prop) [Decidable c] (message : String) : Except ZipError Unit :=
  Checks.raiseIf c (.structure_ message)

/-- `source[offset : offset + length]`. -/
def slice (source : Bytes) (offset length : ℕ) : Bytes := (source.drop offset).take length

/-- `_read_exact`. -/
def readExact (source : Bytes) (offset length : ℕ) : Scan Bytes := do
  modify fun reads => reads ++ [(offset, length)]
  let payload := slice source offset length
  raiseIf (payload.length ≠ length) "truncated ZIP metadata"
  pure payload

/-- The value of little-endian bytes. -/
def littleEndian : Bytes → ℕ
  | [] => 0
  | b :: bs => b.toNat + 256 * littleEndian bs

/-- The little-endian field of `width` bytes at `offset`. -/
def field (record : Bytes) (offset width : ℕ) : ℕ := littleEndian (slice record offset width)

/-! ## Records -/

def eocdSignature : Bytes := [0x50, 0x4b, 0x05, 0x06]
def zip64EocdSignature : Bytes := [0x50, 0x4b, 0x06, 0x06]
def zip64LocatorSignature : Bytes := [0x50, 0x4b, 0x06, 0x07]
def centralSignature : Bytes := [0x50, 0x4b, 0x01, 0x02]
def localFileSignature : Bytes := [0x50, 0x4b, 0x03, 0x04]
def eocdFixedBytes : ℕ := 22
def maxZipCommentBytes : ℕ := 65535
def zip64LocatorBytes : ℕ := 20
def zip64EocdMinBytes : ℕ := 56
def centralHeaderBytes : ℕ := 46
def localHeaderBytes : ℕ := 30

/-- The end record, `<4s4H2IH` behind its signature. -/
structure EndRecord where
  diskNumber : ℕ
  centralDisk : ℕ
  diskMembers : ℕ
  members : ℕ
  centralSize : ℕ
  centralOffset : ℕ
  commentLength : ℕ
  deriving DecidableEq

def EndRecord.unpack (b : Bytes) : EndRecord where
  diskNumber := field b 4 2
  centralDisk := field b 6 2
  diskMembers := field b 8 2
  members := field b 10 2
  centralSize := field b 12 4
  centralOffset := field b 16 4
  commentLength := field b 20 2

/-- The ZIP64 end record, `<4sQ2H2I4Q`. -/
structure Zip64Record where
  signature : Bytes
  recordSize : ℕ
  diskNumber : ℕ
  centralDisk : ℕ
  diskMembers : ℕ
  members : ℕ
  centralSize : ℕ
  centralOffset : ℕ

def Zip64Record.unpack (b : Bytes) : Zip64Record where
  signature := slice b 0 4
  recordSize := field b 4 8
  diskNumber := field b 16 4
  centralDisk := field b 20 4
  diskMembers := field b 24 8
  members := field b 32 8
  centralSize := field b 40 8
  centralOffset := field b 48 8

/-- The header of a central directory record, `<4s6H3I5H2I`. -/
structure CentralHeader where
  signature : Bytes
  flags : ℕ
  compression : ℕ
  crc32 : ℕ
  compressedSize : ℕ
  uncompressedSize : ℕ
  nameLength : ℕ
  extraLength : ℕ
  commentLength : ℕ
  diskNumberStart : ℕ
  localHeaderOffset : ℕ

def CentralHeader.unpack (b : Bytes) : CentralHeader where
  signature := slice b 0 4
  flags := field b 8 2
  compression := field b 10 2
  crc32 := field b 16 4
  compressedSize := field b 20 4
  uncompressedSize := field b 24 4
  nameLength := field b 28 2
  extraLength := field b 30 2
  commentLength := field b 32 2
  diskNumberStart := field b 34 2
  localHeaderOffset := field b 42 4

/-- The bytes that a record takes in the directory. -/
def CentralHeader.recordLength (c : CentralHeader) : ℕ :=
  centralHeaderBytes + c.nameLength + c.extraLength + c.commentLength

/-- A local file header, `<4s5H3I2H`. -/
structure LocalHeader where
  signature : Bytes
  flags : ℕ
  compression : ℕ
  compressedSize : ℕ
  uncompressedSize : ℕ
  nameLength : ℕ
  extraLength : ℕ

def LocalHeader.unpack (b : Bytes) : LocalHeader where
  signature := slice b 0 4
  flags := field b 6 2
  compression := field b 8 2
  compressedSize := field b 18 4
  uncompressedSize := field b 22 4
  nameLength := field b 26 2
  extraLength := field b 28 2

/-- `ZipMemberStructure`. -/
structure ZipMemberStructure where
  ordinal : ℕ
  filename : Text
  headerOffset : ℕ
  payloadOffset : ℕ
  compressedSize : ℕ
  uncompressedSize : ℕ
  crc32 : ℕ
  compressionMethod : ℕ
  flags : ℕ
  upperBound : ℕ
  isDirectory : Bool
  deriving DecidableEq

/-- `ZipStructure`. -/
structure ZipStructure where
  members : ℕ
  centralDirectoryBytes : ℕ
  centralDirectoryOffset : ℕ
  zip64 : Bool
  entries : List ZipMemberStructure
  deriving DecidableEq

/-! ## End records -/

/-- `tail.rfind(EOCD_SIGNATURE, 0, stop)`. -/
def rfindEocd (tail : Bytes) : ℕ → Option ℕ
  | 0 => none
  | stop + 1 =>
    if 4 ≤ stop + 1 ∧ slice tail (stop + 1 - 4) 4 = eocdSignature then some (stop + 1 - 4)
    else rfindEocd tail stop

/-- The loop of `_find_eocd`, from the end of the search down; the first argument bounds its
turns. -/
def eocdIndex (tail : Bytes) : ℕ → ℕ → Except ZipError (ℕ × EndRecord)
  | 0, _ => .error (.structure_ "ZIP end-of-central-directory record not found")
  | turns + 1, stop =>
    match rfindEocd tail stop with
    | none => .error (.structure_ "ZIP end-of-central-directory record not found")
    | some index =>
      let record := EndRecord.unpack (slice tail index eocdFixedBytes)
      if index + eocdFixedBytes ≤ tail.length ∧
          index + eocdFixedBytes + record.commentLength ≤ tail.length then
        .ok (index, record)
      else eocdIndex tail turns index

/-- `_find_eocd`. -/
def findEocd (source : Bytes) (fileSize : ℕ) : Scan (ℕ × EndRecord) := do
  let tailSize := min fileSize (eocdFixedBytes + maxZipCommentBytes)
  let tailOffset := fileSize - tailSize
  let tail ← readExact source tailOffset tailSize
  let (index, record) ← (eocdIndex tail (tail.length + 1) tail.length : Except ZipError _)
  pure (tailOffset + index, record)

/-- The ZIP64 end record at its unadjusted offset, if there is one that ends at the locator. -/
def rawZip64Record (source : Bytes) (fileSize recordOffset locatorOffset : ℕ) :
    Scan (Option Zip64Record) :=
  if recordOffset + zip64EocdMinBytes ≤ fileSize then do
    let candidate ← readExact source recordOffset zip64EocdMinBytes
    let record := Zip64Record.unpack candidate
    if record.signature = zip64EocdSignature ∧ 44 ≤ record.recordSize ∧
        recordOffset + 12 + record.recordSize = locatorOffset then
      pure (some record)
    else pure none
  else pure none

/-- The ZIP64 end record with its physical offset: the one that was found, or a fixed-size one
immediately before the locator. -/
def placedZip64Record (source : Bytes) (locatorOffset rawRecordOffset : ℕ) :
    Option Zip64Record → Scan (Zip64Record × ℕ)
  | some record => pure (record, rawRecordOffset)
  | none => do
    raiseIf (locatorOffset < zip64EocdMinBytes) "ZIP64 end record points outside the file"
    let physical := locatorOffset - zip64EocdMinBytes
    let bytes ← readExact source physical zip64EocdMinBytes
    pure (Zip64Record.unpack bytes, physical)

/-- `_zip64_details`, with the record and its physical offset. -/
def zip64Details (source : Bytes) (eocdOffset fileSize : ℕ) : Scan (Zip64Record × ℕ) := do
  raiseIf (eocdOffset < zip64LocatorBytes) "ZIP64 locator is missing"
  let locatorOffset := eocdOffset - zip64LocatorBytes
  let locator ← readExact source locatorOffset zip64LocatorBytes
  raiseIf (slice locator 0 4 ≠ zip64LocatorSignature) "ZIP64 locator is missing"
  raiseIf (field locator 4 4 ≠ 0 ∨ field locator 16 4 ≠ 1)
    "multi-disk ZIP containers are not supported"
  let rawRecordOffset := field locator 8 8
  let candidate ← rawZip64Record source fileSize rawRecordOffset locatorOffset
  let (record, physicalRecordOffset) ← placedZip64Record source locatorOffset rawRecordOffset
    candidate
  raiseIf (record.signature ≠ zip64EocdSignature ∨ record.recordSize < 44)
    "invalid ZIP64 end record"
  let recordEnd := physicalRecordOffset + 12 + record.recordSize
  raiseIf (recordEnd ≠ locatorOffset) "ZIP64 end record is not adjacent to its locator"
  raiseIf (record.diskNumber ≠ 0 ∨ record.centralDisk ≠ 0 ∨ record.diskMembers ≠ record.members)
    "multi-disk ZIP containers are not supported"
  raiseIf (fileSize < recordEnd) "ZIP64 end record points outside the file"
  pure (record, physicalRecordOffset)

/-! ## Members -/

/-- The upper half of code page 437, as Python decodes it. -/
def cp437High : Text := lit
  "ÇüéâäàåçêëèïîìÄÅÉæÆôöòûùÿÖÜ¢£¥₧ƒáíóúñÑªº¿⌐¬½¼¡«»░▒▓│┤╡╢╖╕╣║╗╝╜╛┐└┴┬├─┼╞╟╚╔╩╦╠═╬╧╨╤╥╙╘╒╓╫╪┘┌█▄▌▐▀αßΓπΣσµτΦΘΩδ∞φε∩≡±≥≤⌠⌡÷≈°∙·√ⁿ²■\u00a0"

/-- `bytes.decode("cp437")`. -/
def decodeCp437 (b : Bytes) : Text :=
  b.map fun x => if x.toNat < 128 then Char.ofNat x.toNat else cp437High.getD (x.toNat - 128) ' '

/-- `raw_name.decode("utf-8" if flags & 0x800 else "cp437", "strict")`. -/
def decodeName (flags : ℕ) (raw : Bytes) : Option Text :=
  if flags.testBit 11 then decodeUtf8 raw else some (decodeCp437 raw)

/-- The walk over the extra fields; the first argument bounds the number of fields. -/
def zip64Payload : ℕ → Option Bytes → Bytes → Except ZipError (Option Bytes)
  | _, found, [] => .ok found
  | 0, found, _ :: _ => .ok found
  | n + 1, found, extra => do
    raiseIf (extra.length < 4) "truncated ZIP extra field header"
    let fieldId := field extra 0 2
    let fieldLength := field extra 2 2
    raiseIf (extra.length < 4 + fieldLength) "ZIP extra field extends beyond its member record"
    raiseIf (fieldId = 1 ∧ found.isSome) "duplicate ZIP64 extra field"
    zip64Payload n (if fieldId = 1 then some (slice extra 4 fieldLength) else found)
      (extra.drop (4 + fieldLength))

/-- A field that the ZIP64 extra value replaces when it is all ones; `take(width)`. -/
def zip64Field (sentinel width value : ℕ) (payload : Bytes) : Except ZipError (ℕ × Bytes) :=
  if value = sentinel then do
    raiseIf (payload.length < width) "truncated ZIP64 member extra data"
    pure (field payload 0 width, payload.drop width)
  else pure (value, payload)

/-- The sizes, the local offset and the disk of a member. -/
structure EntryValues where
  compressedSize : ℕ
  uncompressedSize : ℕ
  localHeaderOffset : ℕ
  diskNumberStart : ℕ
  deriving DecidableEq

/-- `_zip64_entry_values`. -/
def zip64EntryValues (central : CentralHeader) (extra : Bytes) : Except ZipError EntryValues := do
  let found ← zip64Payload extra.length none extra
  if central.uncompressedSize ≠ 0xFFFFFFFF ∧ central.compressedSize ≠ 0xFFFFFFFF ∧
      central.localHeaderOffset ≠ 0xFFFFFFFF ∧ central.diskNumberStart ≠ 0xFFFF then
    pure ⟨central.compressedSize, central.uncompressedSize, central.localHeaderOffset,
      central.diskNumberStart⟩
  else
    match found with
    | none => .error (.structure_ "ZIP64 member field has no ZIP64 extra value")
    | some payload => do
      let (uncompressedSize, payload) ← zip64Field 0xFFFFFFFF 8 central.uncompressedSize payload
      let (compressedSize, payload) ← zip64Field 0xFFFFFFFF 8 central.compressedSize payload
      let (localHeaderOffset, payload) ← zip64Field 0xFFFFFFFF 8 central.localHeaderOffset payload
      let (diskNumberStart, _) ← zip64Field 0xFFFF 4 central.diskNumberStart payload
      pure ⟨compressedSize, uncompressedSize, localHeaderOffset, diskNumberStart⟩

/-- The sizes of a local header without a data descriptor. -/
def checkLocalSizes (local_ : LocalHeader) (values : EntryValues) : Except ZipError Unit :=
  if local_.flags.testBit 3 then pure ()
  else do
    raiseIf (local_.compressedSize ≠ 0xFFFFFFFF ∧ local_.compressedSize ≠ values.compressedSize)
      "ZIP local and central compressed sizes disagree"
    raiseIf (local_.uncompressedSize ≠ 0xFFFFFFFF ∧
        local_.uncompressedSize ≠ values.uncompressedSize)
      "ZIP local and central uncompressed sizes disagree"

/-- `_validate_central_member`; the name and the extra fields lie behind the record's header. -/
def validateCentralMember (source : Bytes) (central : CentralHeader)
    (ordinal nameOffset extraOffset centralDirectoryOffset offsetAdjustment fileSize : ℕ) :
    Scan ZipMemberStructure := do
  let rawName ← readExact source nameOffset central.nameLength
  match decodeName central.flags rawName with
  | none => throw (.structure_ "ZIP member name is not decodable")
  | some name => do
    raiseIf ('\x00' ∈ name) "ZIP member name contains a NUL byte"
    raiseIf (central.signature ≠ centralSignature) "invalid ZIP central directory record signature"
    let extra ← readExact source extraOffset central.extraLength
    let values ← zip64EntryValues central extra
    raiseIf (values.diskNumberStart ≠ 0) "multi-disk ZIP members are not supported"
    let headerOffset := values.localHeaderOffset + offsetAdjustment
    raiseIf (centralDirectoryOffset ≤ headerOffset) "ZIP local header points outside member data"
    raiseIf (centralDirectoryOffset < headerOffset + localHeaderBytes)
      "truncated ZIP local file header"
    let header ← readExact source headerOffset localHeaderBytes
    let local_ := LocalHeader.unpack header
    raiseIf (local_.signature ≠ localFileSignature) "invalid ZIP local file header"
    let payloadOffset := headerOffset + localHeaderBytes + local_.nameLength + local_.extraLength
    raiseIf (centralDirectoryOffset < payloadOffset)
      "ZIP local file header extends into the central directory"
    raiseIf (centralDirectoryOffset - payloadOffset < values.compressedSize)
      "ZIP member payload points outside member data"
    checkLocalSizes local_ values
    raiseIf (fileSize < payloadOffset + values.compressedSize)
      "ZIP member payload points outside the file"
    pure {
      ordinal := ordinal
      filename := name
      headerOffset := headerOffset
      payloadOffset := payloadOffset
      compressedSize := values.compressedSize
      uncompressedSize := values.uncompressedSize
      crc32 := central.crc32
      compressionMethod := central.compression
      flags := central.flags
      upperBound := centralDirectoryOffset
      isDirectory := name.getLast? = some '/' }

/-! ## The central directory -/

/-- One turn of the loop of `_inspect_central_directory`: the entry of the record at `cursor`, and the
cursor behind it. -/
def inspectRecord (source : Bytes) (centralDirectoryOffset centralEnd declaredMembers : ℕ)
    (maxMembers : ℤ) (offsetAdjustment fileSize cursor : ℕ) (entries : List ZipMemberStructure) :
    Scan (ZipMemberStructure × ℕ) := do
  let remaining := centralEnd - cursor
  raiseIf (remaining < centralHeaderBytes) "truncated ZIP central directory record"
  let header ← readExact source cursor centralHeaderBytes
  let central := CentralHeader.unpack header
  raiseIf (central.signature ≠ centralSignature) "invalid ZIP central directory record signature"
  raiseIf (remaining < central.recordLength)
    "ZIP central directory record extends beyond its boundary"
  let actualMembers := entries.length + 1
  raiseIf (maxMembers < actualMembers)
    s!"ZIP contains more than {maxMembers} members; limit is {maxMembers}"
  raiseIf (declaredMembers < actualMembers)
    s!"ZIP central directory contains more records than its end record declares: declared {declaredMembers}, found at least {actualMembers}"
  let entry ← validateCentralMember source central entries.length (cursor + centralHeaderBytes)
    (cursor + centralHeaderBytes + central.nameLength) centralDirectoryOffset offsetAdjustment
    fileSize
  raiseIf (entry.headerOffset ∈ entries.map ZipMemberStructure.headerOffset)
    "ZIP members share a local header offset"
  pure (entry, cursor + central.recordLength)

/-- The loop of `_inspect_central_directory`, with the entries so far; the first argument bounds its
turns. -/
def inspectRecords (source : Bytes) (centralDirectoryOffset centralEnd declaredMembers : ℕ)
    (maxMembers : ℤ) (offsetAdjustment fileSize : ℕ) :
    ℕ → ℕ → List ZipMemberStructure → Scan (ℕ × List ZipMemberStructure)
  | 0, cursor, entries => pure (cursor, entries)
  | turns + 1, cursor, entries =>
    if cursor < centralEnd then do
      let (entry, next) ← inspectRecord source centralDirectoryOffset centralEnd declaredMembers
        maxMembers offsetAdjustment fileSize cursor entries
      inspectRecords source centralDirectoryOffset centralEnd declaredMembers maxMembers
        offsetAdjustment fileSize turns next (entries ++ [entry])
    else pure (cursor, entries)

/-- `upper_bounds`, from the entries by header offset. -/
def upperBounds (centralDirectoryOffset : ℕ) : List ZipMemberStructure → List (ℕ × ℕ)
  | [] => []
  | [item] => [(item.headerOffset, centralDirectoryOffset)]
  | item :: next :: rest =>
    (item.headerOffset, next.headerOffset) :: upperBounds centralDirectoryOffset (next :: rest)

/-- The entries with their upper bounds. -/
def withUpperBounds (centralDirectoryOffset : ℕ) (entries : List ZipMemberStructure) :
    List ZipMemberStructure :=
  let byOffset := entries.insertionSort fun a b => a.headerOffset ≤ b.headerOffset
  let bounds := upperBounds centralDirectoryOffset byOffset
  entries.map fun item =>
    { item with upperBound := (bounds.lookup item.headerOffset).getD centralDirectoryOffset }

/-- `_inspect_central_directory`. -/
def inspectCentralDirectory (source : Bytes) (centralDirectoryOffset centralDirectoryBytes
    declaredMembers : ℕ) (maxMembers : ℤ) (offsetAdjustment fileSize : ℕ) :
    Scan (List ZipMemberStructure) := do
  let centralEnd := centralDirectoryOffset + centralDirectoryBytes
  let (cursor, entries) ← inspectRecords source centralDirectoryOffset centralEnd declaredMembers
    maxMembers offsetAdjustment fileSize centralDirectoryBytes centralDirectoryOffset []
  raiseIf (cursor ≠ centralEnd) "ZIP central directory length is inconsistent"
  raiseIf (entries.length ≠ declaredMembers)
    s!"ZIP central directory member count disagrees with its end record: declared {declaredMembers}, found {entries.length}"
  pure (withUpperBounds centralDirectoryOffset entries)

/-! ## The preflight -/

/-- Where the directory is said to be. -/
structure Directory where
  members : ℕ
  centralSize : ℕ
  centralOffset : ℕ
  expectedEnd : ℕ

/-- `is_zip64`. -/
def EndRecord.IsZip64 (e : EndRecord) : Prop :=
  e.diskMembers = 0xFFFF ∨ e.members = 0xFFFF ∨ e.centralSize = 0xFFFFFFFF ∨
    e.centralOffset = 0xFFFFFFFF

instance (e : EndRecord) : Decidable e.IsZip64 := inferInstanceAs (Decidable (_ ∨ _))

/-- The values of the end record, or those of the ZIP64 record. -/
def directoryOf (source : Bytes) (eocdOffset fileSize : ℕ) (e : EndRecord) : Scan Directory :=
  if e.IsZip64 then do
    let (record, recordOffset) ← zip64Details source eocdOffset fileSize
    raiseIf (e.diskMembers ≠ 0xFFFF ∧ e.diskMembers ≠ record.members)
      "ZIP end record member counts are inconsistent"
    raiseIf (e.members ≠ 0xFFFF ∧ e.members ≠ record.members)
      "ZIP end record member counts are inconsistent"
    raiseIf (e.centralSize ≠ 0xFFFFFFFF ∧ e.centralSize ≠ record.centralSize)
      "ZIP end record central directory sizes are inconsistent"
    raiseIf (e.centralOffset ≠ 0xFFFFFFFF ∧ e.centralOffset ≠ record.centralOffset)
      "ZIP end record central directory offsets are inconsistent"
    pure ⟨record.members, record.centralSize, record.centralOffset, recordOffset⟩
  else do
    raiseIf (e.diskMembers ≠ e.members) "multi-disk ZIP containers are not supported"
    pure ⟨e.members, e.centralSize, e.centralOffset, eocdOffset⟩

/-- The checks of the limits; a file size is never negative. -/
def checkLimits (maxMembers maxCentralDirectoryBytes : ℤ) : Except ZipError Unit :=
  if maxMembers < 1 then .error (.value "max_members must be positive")
  else if maxCentralDirectoryBytes < 1 then
    .error (.value "max_central_directory_bytes must be positive")
  else .ok ()

/-- `_inspect_zip_source`. -/
def inspectZipSource (source : Bytes) (fileSize : ℕ) (maxMembers maxCentralDirectoryBytes : ℤ) :
    Scan ZipStructure := do
  checkLimits maxMembers maxCentralDirectoryBytes
  raiseIf (fileSize < eocdFixedBytes) "file is too small to contain a ZIP end record"
  let (eocdOffset, e) ← findEocd source fileSize
  raiseIf (eocdOffset + eocdFixedBytes + e.commentLength ≠ fileSize)
    "ZIP end record is not at the end of the file"
  raiseIf (e.diskNumber ≠ 0 ∨ e.centralDisk ≠ 0) "multi-disk ZIP containers are not supported"
  let directory ← directoryOf source eocdOffset fileSize e
  raiseIf (maxMembers < directory.members)
    s!"ZIP contains {directory.members} members; limit is {maxMembers}"
  raiseIf (maxCentralDirectoryBytes < directory.centralSize)
    s!"ZIP central directory exceeds the safety limit: {directory.centralSize} > {maxCentralDirectoryBytes} bytes"
  raiseIf (directory.expectedEnd < directory.centralSize)
    "ZIP central directory points outside the file"
  raiseIf (directory.expectedEnd < directory.centralSize + directory.centralOffset)
    "ZIP central directory does not end at its end record"
  let offsetAdjustment := directory.expectedEnd - directory.centralSize - directory.centralOffset
  let physicalOffset := directory.centralOffset + offsetAdjustment
  raiseIf (fileSize < physicalOffset + directory.centralSize)
    "ZIP central directory points outside the file"
  let entries ← inspectCentralDirectory source physicalOffset directory.centralSize
    directory.members maxMembers offsetAdjustment fileSize
  pure ⟨directory.members, directory.centralSize, physicalOffset, decide e.IsZip64, entries⟩

/-! ## Raw recovery -/

/-- `_validate_raw_member_bounds`. -/
def validateRawMemberBounds (fileSize : ℕ) (headerOffset compressedSize upperBound
    maxCompressedBytes maxOutputBytes : ℤ) : Except ZipError Unit := do
  raiseIf (headerOffset < 0 ∨ compressedSize < 0) "negative ZIP member offset or size"
  if maxCompressedBytes < 1 ∨ maxOutputBytes < 1 then
    .error (.value "raw DEFLATE bounds must be positive")
  raiseIf (maxCompressedBytes < compressedSize)
    "compressed ZIP member exceeds the raw recovery safety limit"
  raiseIf (upperBound < 0 ∨ fileSize < upperBound) "ZIP member boundary points outside the file"
  raiseIf (upperBound - localHeaderBytes < headerOffset) "truncated ZIP local header"

/-- `_raw_member_payload_offset`. -/
def rawMemberPayloadOffset (source : Bytes) (headerOffset compressedSize upperBound : ℕ) :
    Scan ℕ := do
  let header ← readExact source headerOffset localHeaderBytes
  let local_ := LocalHeader.unpack header
  raiseIf (local_.signature ≠ localFileSignature) "invalid ZIP local file header"
  raiseIf (local_.flags.testBit 0) "encrypted ZIP members cannot be recovered"
  raiseIf (local_.flags.testBit 3) "ZIP data descriptors are not supported for raw recovery"
  raiseIf (local_.compression ≠ 8) "raw recovery supports only DEFLATE members"
  let payloadOffset := headerOffset + localHeaderBytes + local_.nameLength + local_.extraLength
  raiseIf (upperBound < payloadOffset + compressedSize)
    "ZIP member payload crosses its boundary"
  pure payloadOffset

/-- `_decompress_raw_member`: the compressed bytes are read in chunks, which zlib inflates; the first
argument bounds the number of chunks. -/
def readChunks (source : Bytes) : ℕ → ℕ → ℕ → Scan Bytes
  | 0, _, _ => pure []
  | _ + 1, _, 0 => pure []
  | turns + 1, position, remaining + 1 => do
    let length := min (64 * 1024) (remaining + 1)
    modify fun reads => reads ++ [(position, length)]
    let chunk := slice source position length
    raiseIf (chunk = []) "truncated ZIP member payload"
    let rest ← readChunks source turns (position + chunk.length) (remaining + 1 - chunk.length)
    pure (chunk ++ rest)

/-- `read_raw_deflate_member`: the payload; `inflate` is what zlib makes of the compressed bytes under
the bound of the output. -/
def readRawDeflateMember (inflate : Bytes → ℤ → Except ZipError Bytes) (source : Bytes)
    (headerOffset compressedSize upperBound maxCompressedBytes maxOutputBytes : ℤ) :
    Scan Bytes := do
  validateRawMemberBounds source.length headerOffset compressedSize upperBound maxCompressedBytes
    maxOutputBytes
  let payloadOffset ← rawMemberPayloadOffset source headerOffset.toNat compressedSize.toNat
    upperBound.toNat
  let compressed ← readChunks source compressedSize.toNat payloadOffset compressedSize.toNat
  inflate compressed maxOutputBytes

end Archive
end Neocortex
