import OdfCrypto.Lib.Read
import OdfCrypto.Lib.Text

/-!
# Errors

What the layers of the crate report to each other: `BadParameter` (a setting a
package declares wrongly), `Fault` (a streaming primitive's own failure, which
travels inside an I/O error), `IoError`, and the zip crate's `ZipError` with the
wording of its message.
-/

namespace OdfCrypto

open ByteStream Text

/-- Three Argon2 parameters. -/
inductive Argon2Axis
  | t
  | mKib
  | p
  deriving DecidableEq

/-- LibreOffice's three ciphers. -/
inductive Cipher
  | blowfishCfb8
  | aesCbcW3c
  | aesGcmW3c
  deriving DecidableEq

/-- A manifest setting a package can declare wrongly. -/
inductive ManifestField
  | iterationCount
  | argon2 (axis : Argon2Axis)
  | keySize
  | size
  | ivLen
  | saltLen
  | encryptedEntries
  deriving DecidableEq

/-- A primitive with requirements of its own. -/
inductive Primitive
  | argon2
  | aesGcm
  | aesCbc
  | blowfish
  deriving DecidableEq

/-- What is wrong with an encrypted member. -/
inductive MemberFault
  | shorterThanIvAndTag
  | ivMismatch
  | notBlockMultiple
  | longerThanHeader
  deriving DecidableEq

/-- A verdict on a file's encryption parameters. -/
inductive BadParameter
  | outOfRange (field : ManifestField) (got min max : ℤ)
  | cipherRejects (field : ManifestField) (by_ : Primitive) (got min max : ℤ)
  | keySizeForCipher (got : ℤ) (cipher : Cipher)
  | member (fault : MemberFault)
  | noMember (row : ℕ)
  deriving DecidableEq

/-- A streaming primitive's own failure. -/
inductive Fault
  | wrongPassword
  | changed
  | badParameters (b : BadParameter)
  | internal (s : Str)
  | inflate (s : Str)
  | outputLimit
  | alloc (n : ℕ)
  | deflate (s : Str)
  deriving DecidableEq

/-- The kinds of I/O error that the crate tells apart. -/
inductive ErrorKind
  | interrupted
  | unexpectedEof
  | invalidData
  | invalidInput
  | writeZero
  | other
  deriving DecidableEq

/-- An I/O error: a kind with a text, or one that carries a `Fault`, or the
    failure of an output under a reader. -/
inductive IoError
  | simple (kind : ErrorKind) (text : Str)
  | fault (f : Fault)
  | outputFailed (e : IoError)
  deriving DecidableEq

/-- The kind of an I/O error; those that carry another error are of kind `other`. -/
def IoError.kind : IoError → ErrorKind
  | .simple kind _ => kind
  | .fault _ => .other
  | .outputFailed _ => .other

instance : IsError IoError where
  interrupted e := e.kind == .interrupted
  writeZero := .simple .writeZero (ascii "failed to write whole buffer")
  writeZero_not_interrupted := rfl

/-- The error of a read that came to the end too early. -/
def IoError.unexpectedEof : IoError := .simple .unexpectedEof (ascii "unexpected end of file")

/-- Carry a fault as an I/O error. -/
def Fault.intoIo (f : Fault) : IoError := .fault f

/-- The fault an I/O error carries, or the error. -/
def Fault.take : IoError → Except IoError Fault
  | .fault f => .ok f
  | e => .error e

@[simp] theorem Fault.take_intoIo (f : Fault) : Fault.take f.intoIo = .ok f := rfl

/-- The decimal digits of a number. -/
def decimal (n : ℕ) : Str := Nat.toDigits 10 n

/-- A number with its sign. -/
def decimalInt : ℤ → Str
  | .ofNat n => decimal n
  | .negSucc n => '-' :: decimal (n + 1)

/-- The text of a manifest field. -/
def ManifestField.text : ManifestField → Str
  | .iterationCount => ascii "manifest:iteration-count"
  | .argon2 .t => ascii "loext:argon2-iterations"
  | .argon2 .mKib => ascii "loext:argon2-memory (KiB)"
  | .argon2 .p => ascii "loext:argon2-lanes"
  | .keySize => ascii "manifest:key-size"
  | .size => ascii "manifest:size"
  | .ivLen => ascii "manifest:initialisation-vector length"
  | .saltLen => ascii "manifest:salt length"
  | .encryptedEntries => ascii "encrypted row count"

/-- The text of a primitive. -/
def Primitive.text : Primitive → Str
  | .argon2 => ascii "argon2"
  | .aesGcm => ascii "AES-GCM"
  | .aesCbc => ascii "AES-CBC"
  | .blowfish => ascii "Blowfish"

/-- The text of a fault of a member. -/
def MemberFault.text : MemberFault → Str
  | .shorterThanIvAndTag => ascii "an AES-GCM member is shorter than its IV and tag"
  | .ivMismatch => ascii "an AES-GCM member does not begin with its manifest IV"
  | .notBlockMultiple => ascii "an AES-CBC member is not a whole number of blocks"
  | .longerThanHeader => ascii "a member is longer than its zip header says"

/-- The debug text of a cipher. -/
def Cipher.text : Cipher → Str
  | .blowfishCfb8 => ascii "BlowfishCfb8"
  | .aesCbcW3c => ascii "AesCbcW3c"
  | .aesGcmW3c => ascii "AesGcmW3c"

/-- The text of a verdict on a parameter. -/
def BadParameter.text : BadParameter → Str
  | .outOfRange field got min max =>
    field.text ++ ascii " is " ++ decimalInt got ++ ascii ", outside " ++ decimalInt min ++
      ascii "..=" ++ decimalInt max ++ ascii ", the range this crate acts on"
  | .cipherRejects field by_ got min max =>
    field.text ++ ascii " is " ++ decimalInt got ++ ascii ", outside " ++ decimalInt min ++
      ascii "..=" ++ decimalInt max ++ ascii ", which " ++ by_.text ++ ascii " itself requires"
  | .keySizeForCipher got cipher =>
    ascii "manifest:key-size " ++ decimalInt got ++ ascii " cannot be used with " ++ cipher.text
  | .member fault => fault.text
  | .noMember row => ascii "encrypted row " ++ decimal row ++ ascii " names no zip member"

/-- The text of a fault. -/
def Fault.text : Fault → Str
  | .wrongPassword => ascii "wrong password"
  | .changed => ascii "input changed between passes"
  | .badParameters b => b.text
  | .internal s => s
  | .inflate s => s
  | .outputLimit => ascii "output limit exceeded"
  | .alloc n => ascii "could not allocate " ++ decimal n ++ ascii " bytes"
  | .deflate s => ascii "deflate failed: " ++ s

/-- The text of an I/O error. -/
def IoError.text : IoError → Str
  | .simple _ text => text
  | .fault f => f.text
  | .outputFailed e => ascii "writing the output failed: " ++ e.text

/-- The zip crate's errors. An invalid archive is reported with a literal of
    the crate's, or with a text `formatted` at run time. -/
inductive ZipError
  | io (e : IoError)
  | invalidArchive (literal : Str)
  | invalidArchiveFormatted (formatted : Str)
  | unsupportedArchive (literal : Str)
  | fileNotFound
  | invalidPassword
  | compressionMethodNotSupported (id : ℕ)
  | decompressedSizeLimitExceeded (size limit : ℕ)
  | decompressedSizeUnknown
  | unrecognized
  deriving DecidableEq

/-- The wording of the zip crate's errors; a text formatted at run time is not
    quoted. -/
def ZipError.message : ZipError → Str
  | .io e => ascii "i/o error: " ++ e.text
  | .invalidArchive s => ascii "invalid Zip archive: " ++ s
  | .invalidArchiveFormatted _ => ascii "invalid Zip archive"
  | .unsupportedArchive s => ascii "unsupported Zip archive: " ++ s
  | .fileNotFound => ascii "specified file not found in archive"
  | .invalidPassword => ascii "provided password is incorrect"
  | .compressionMethodNotSupported id => ascii "compression method not supported: " ++ decimal id
  | .decompressedSizeLimitExceeded size limit =>
    ascii "decompressed size " ++ decimal size ++ ascii " exceeds limit " ++ decimal limit
  | .decompressedSizeUnknown =>
    ascii "decompressed size is unknown, so a size limit cannot be checked"
  | .unrecognized => ascii "zip error (unrecognized variant)"

end OdfCrypto
