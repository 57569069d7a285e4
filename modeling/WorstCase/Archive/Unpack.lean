import WorstCase.Archive.Zstd

/-!
# Packed files

A file may be packed with gzip or Zstandard. Its first bytes tell, whatever its name; a file that
begins otherwise is taken as it is.
-/

namespace WorstCase.Archive

/-- How a file is packed. -/
inductive Packing where
  | plain
  | gzip
  | zstd
deriving DecidableEq, Repr

/-- The first bytes of a gzip file. -/
def gzipMagic : List UInt8 := [0x1F, 0x8B]

/-- The first bytes of a Zstandard file. -/
def zstdMagic : List UInt8 := [0x28, 0xB5, 0x2F, 0xFD]

/-- How data is packed, by its first bytes. -/
def packingOf (data : ByteArray) : Packing :=
  let head := (data.extract 0 4).toList
  if gzipMagic.isPrefixOf head then .gzip
  else if zstdMagic.isPrefixOf head then .zstd
  else .plain

/-- Why data cannot be unpacked. -/
inductive UnpackError where
  /-- The first header of a gzip file is not in order. -/
  | gzipHeader (cause : GzipError)
  | gzip (cause : GzipError)
  | zstd (cause : ZstdError)
deriving DecidableEq, Repr

/-- The wording of an error. -/
def UnpackError.message : UnpackError → String
  | .gzipHeader e => "creating gzip reader: " ++ e.message
  | .gzip e => e.message
  | .zstd e => e.message

/-- Whether the error is noticed before any contents are read. -/
def UnpackError.isEarly : UnpackError → Bool
  | .gzipHeader _ => true
  | _ => false

/-- The contents of data that may be packed. -/
def unpack (data : ByteArray) : Except UnpackError ByteArray :=
  match packingOf data with
  | .plain => .ok data
  | .zstd => (unzstd data).mapError .zstd
  | .gzip =>
    match gzipHeader data 0 with
    | .error e => .error (.gzipHeader e)
    | .ok start => (gzipMembers data (data.size + 1) ByteArray.empty {} start).mapError .gzip

@[simp] theorem unpack_of_plain {data : ByteArray} (h : packingOf data = .plain) :
    unpack data = .ok data := by
  simp [unpack, h]

end WorstCase.Archive
