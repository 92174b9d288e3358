import CoinLedger.Text

/-!
# Errors

A `Fault` is the cause of a failure and an `Error` is a fault together with the number of input
bytes that were read before it.  Every fault has a numbered code (`Fault.code`), the code has a
name and a coarse kind on which callers decide (`ErrorCode.kind`), and every fault has one text
(`Fault.message`).  `Error.format` is the one-line report used in logs.
-/

namespace CoinLedger

open Text (ofString decimal)

/-- The coarse classes of errors that callers tell apart. -/
inductive ErrorKind where
  /-- no error at all -/
  | none
  /-- input bytes do not form a valid record -/
  | malformed
  /-- persisted state no longer decodes -/
  | corruption
  /-- a requested record is absent -/
  | notFound
  /-- a caller or the store broke an invariant -/
  | internal
  /-- any other failure -/
  | other
  deriving DecidableEq

namespace ErrorKind

/-- The kinds in the order of their numbers. -/
def all : List ErrorKind := [none, malformed, corruption, notFound, internal, other]

/-- The name of a kind in reports. -/
def name : ErrorKind → String
  | none => "none"
  | malformed => "malformed"
  | corruption => "corruption"
  | notFound => "not-found"
  | internal => "internal"
  | other => "other"

/-- The name of the kind with a given number; numbers without a kind are unknown. -/
def nameOfNumber (n : Nat) : String := (all[n]?).elim "unknown" name

end ErrorKind

/-- A numbered error code.  Numbers are open: one without a name is still a code. -/
structure ErrorCode where
  /-- The number by which reports refer to the code. -/
  number : UInt16
  deriving DecidableEq

namespace ErrorCode

/-- The code of success. -/
def none : ErrorCode := ⟨0⟩

/-- Unspecified failure to read a record. -/
def parseError : ErrorCode := ⟨100⟩

/-- A value does not fit its type. -/
def parseOverflow : ErrorCode := ⟨101⟩

/-- The input ends too early. -/
def parseUnderflow : ErrorCode := ⟨102⟩

/-- The input has a form that no record has. -/
def parseBadFormat : ErrorCode := ⟨103⟩

/-- The cryptographic library failed. -/
def cryptoError : ErrorCode := ⟨400⟩

/-- A public key is not valid. -/
def cryptoKeyFail : ErrorCode := ⟨403⟩

/-- The store failed. -/
def storageError : ErrorCode := ⟨500⟩

/-- The store has no such record. -/
def storageNotFound : ErrorCode := ⟨501⟩

/-- A stored record does not decode. -/
def storageCorrupt : ErrorCode := ⟨502⟩

/-- An invariant is broken. -/
def internalError : ErrorCode := ⟨900⟩

/-- The named codes, each with its name and kind. -/
def registry : List (ErrorCode × String × ErrorKind) :=
  [(none, "NONE", .none),
   (parseError, "PARSE_ERROR", .malformed),
   (parseOverflow, "PARSE_OVERFLOW", .malformed),
   (parseUnderflow, "PARSE_UNDERFLOW", .malformed),
   (parseBadFormat, "PARSE_BAD_FORMAT", .malformed),
   (cryptoError, "CRYPTO_ERROR", .other),
   (cryptoKeyFail, "CRYPTO_KEY_FAIL", .other),
   (storageError, "STORAGE_ERROR", .other),
   (storageNotFound, "STORAGE_NOT_FOUND", .notFound),
   (storageCorrupt, "STORAGE_CORRUPT", .corruption),
   (internalError, "INTERNAL_ERROR", .internal)]

/-- The name of a code; numbers outside the registry are unknown. -/
def name (c : ErrorCode) : String := (registry.lookup c).elim "UNKNOWN" Prod.fst

/-- The kind of a code; numbers outside the registry are of the kind `other`. -/
def kind (c : ErrorCode) : ErrorKind := (registry.lookup c).elim .other Prod.snd

end ErrorCode

/-- What can be wrong with the text of a tip set. -/
inductive TipFault where
  /-- another byte stands where `wanted` has to -/
  | expected (wanted : UInt8)
  /-- the text ends where `wanted` has to stand -/
  | endExpected (wanted : UInt8)
  /-- a numeral starts with a zero and goes on -/
  | leadingZero
  /-- a numeral denotes no byte -/
  | byteTooLarge
  /-- no numeral where one has to stand -/
  | expectedByte
  /-- the text ends where a numeral has to stand -/
  | endExpectedByte
  /-- a hash is closed after fewer than 32 values -/
  | hashTooShort (count : Nat)
  /-- a hash goes on after 32 values -/
  | hashTooLong
  /-- the set is closed and the text goes on -/
  | trailing
  deriving DecidableEq

/-- The text of a fault in a tip set. -/
def TipFault.message : TipFault → Text
  | expected wanted => ofString "expected '" ++ [wanted] ++ ofString "'"
  | endExpected wanted =>
    ofString "unexpected end of text, expected '" ++ [wanted] ++ ofString "'"
  | leadingZero => ofString "leading zero in byte value"
  | byteTooLarge => ofString "byte value exceeds 255"
  | expectedByte => ofString "expected a byte value"
  | endExpectedByte => ofString "unexpected end of text, expected a byte value"
  | hashTooShort count =>
    ofString "tip hash has " ++ decimal count ++ ofString " bytes, expected 32"
  | hashTooLong => ofString "tip hash has more than 32 bytes"
  | trailing => ofString "trailing characters after tip set"

/-- The causes of failure. -/
inductive Fault where
  /-- an integer does not fit `bits` bits -/
  | integerTooWide (bits : Nat)
  /-- an integer is wanted and there is no byte -/
  | integerMissing
  /-- the data end inside an integer -/
  | integerUnterminated
  /-- a byte is no hexadecimal digit -/
  | hexDigit
  /-- a row of hexadecimal digits is cut inside a byte -/
  | hexOddLength
  /-- the text of a hash has `length` digits, which is not 64 -/
  | hashLength (length : Nat)
  /-- a byte in the text of a hash is no hexadecimal digit -/
  | hashDigit
  /-- an amount code stands for an amount of more than 64 bits -/
  | amountTooLarge (code : Nat)
  /-- a public key does not start with 02 or 03 -/
  | keyPrefix
  /-- no point of the curve has this x coordinate -/
  | keyOffCurve
  /-- the size of a compressed script exceeds 64 bits -/
  | scriptSizeOverflow
  /-- a raw script is longer than the data -/
  | rawScriptTruncated (needed available : Nat)
  /-- the data end inside the payload of a script template -/
  | scriptPayloadTruncated
  /-- a compressed script holds a key that is not on the curve -/
  | scriptKeyInvalid
  /-- the data end after the amount of an output -/
  | endsAfterAmount
  /-- the data end after the script size of an output -/
  | endsAfterScriptSize
  /-- a header code carries a height of more than 32 bits -/
  | heightTooLarge (height : Nat)
  /-- a record is wanted and there is no byte -/
  | recordMissing
  /-- the data end after the header of a record -/
  | endsAfterHeader
  /-- the data end after the reserved field of a record -/
  | endsAfterReserved
  /-- bytes follow the record of a coin -/
  | coinTrailing (count : Nat)
  /-- a header code of zero would be read as a repeat of `remembered` -/
  | headerAmbiguous (remembered : Nat)
  /-- a journal does not hold one entry per spent output -/
  | journalCount (wanted held : Nat)
  /-- a journal is empty and the block spends outputs -/
  | journalMissing (wanted : Nat)
  /-- a journal ends between two entries -/
  | journalEnded (found wanted : Nat)
  /-- a journal goes on after the last entry -/
  | journalLeftover (count wanted : Nat)
  /-- the text of a tip set is malformed -/
  | tipSet (fault : TipFault)
  /-- an outpoint key has no index -/
  | outPointKeyShort
  /-- the index in an outpoint key exceeds 32 bits -/
  | outPointIndexTooLarge
  /-- bytes follow the index in an outpoint key -/
  | outPointKeyTrailing
  /-- a bucket has no entry under the key -/
  | noEntry (bucket : Text)
  /-- the stored record `what` is malformed -/
  | damaged (what : Text) (cause : Fault)
  /-- an argument does not start with a dash -/
  | positionalArgument (argument : Text)
  /-- a settings file cannot be opened -/
  | settingsUnreadable (path : Text)
  /-- a line of a settings file has no key -/
  | settingsKeyEmpty (line : Nat) (path : Text)
  /-- a setting is no unsigned 64-bit number -/
  | settingNotNumber (value key : Text)
  /-- no log level has this name -/
  | logLevelUnknown (name : Text)
  /-- an item in a list of input counts is no unsigned 64-bit number -/
  | inputCount (item : Text)
  /-- a failure described by the caller -/
  | reported (code : ErrorCode) (message : Text)
  deriving DecidableEq

namespace Fault

/-- The code of a fault. -/
def code : Fault → ErrorCode
  | integerTooWide _ => .internalError
  | integerMissing => .parseUnderflow
  | integerUnterminated => .parseUnderflow
  | hexDigit => .parseBadFormat
  | hexOddLength => .parseBadFormat
  | hashLength _ => .parseBadFormat
  | hashDigit => .parseBadFormat
  | amountTooLarge _ => .parseOverflow
  | keyPrefix => .cryptoKeyFail
  | keyOffCurve => .cryptoKeyFail
  | scriptSizeOverflow => .parseOverflow
  | rawScriptTruncated _ _ => .parseUnderflow
  | scriptPayloadTruncated => .parseUnderflow
  | scriptKeyInvalid => .parseBadFormat
  | endsAfterAmount => .parseUnderflow
  | endsAfterScriptSize => .parseUnderflow
  | heightTooLarge _ => .parseOverflow
  | recordMissing => .parseUnderflow
  | endsAfterHeader => .parseUnderflow
  | endsAfterReserved => .parseUnderflow
  | coinTrailing _ => .parseBadFormat
  | headerAmbiguous _ => .internalError
  | journalCount _ _ => .internalError
  | journalMissing _ => .internalError
  | journalEnded _ _ => .internalError
  | journalLeftover _ _ => .internalError
  | tipSet _ => .storageCorrupt
  | outPointKeyShort => .parseUnderflow
  | outPointIndexTooLarge => .parseOverflow
  | outPointKeyTrailing => .parseBadFormat
  | noEntry _ => .storageNotFound
  | damaged _ _ => .storageCorrupt
  | positionalArgument _ => .parseBadFormat
  | settingsUnreadable _ => .storageNotFound
  | settingsKeyEmpty _ _ => .parseBadFormat
  | settingNotNumber _ _ => .parseBadFormat
  | logLevelUnknown _ => .parseBadFormat
  | inputCount _ => .parseBadFormat
  | reported code _ => code

/-- The kind of a fault is the kind of its code. -/
def kind (f : Fault) : ErrorKind := f.code.kind

/-- The text of a fault. -/
def message : Fault → Text
  | integerTooWide bits =>
    ofString "variable-length integer exceeds " ++ decimal bits ++ ofString " bits"
  | integerMissing => ofString "unexpected end of data"
  | integerUnterminated => ofString "unterminated variable-length integer"
  | hexDigit => ofString "invalid hex character"
  | hexOddLength => ofString "hex string has odd length"
  | hashLength length => ofString "hash hex must be 64 characters, got " ++ decimal length
  | hashDigit => ofString "invalid hex character in hash"
  | amountTooLarge code =>
    ofString "compressed amount " ++ decimal code ++ ofString " exceeds 64 bits when decompressed"
  | keyPrefix => ofString "compressed public key must start with 0x02 or 0x03"
  | keyOffCurve => ofString "public key x coordinate is not on the curve"
  | scriptSizeOverflow => ofString "compressed script size overflows"
  | rawScriptTruncated needed available =>
    ofString "raw script needs " ++ decimal needed ++ ofString " bytes, have " ++ decimal available
  | scriptPayloadTruncated => ofString "compressed script payload truncated"
  | scriptKeyInvalid => ofString "compressed script carries an invalid public key"
  | endsAfterAmount => ofString "unexpected end of data after compressed amount"
  | endsAfterScriptSize => ofString "unexpected end of data after script size"
  | heightTooLarge height =>
    ofString "block height " ++ decimal height ++ ofString " exceeds 32 bits"
  | recordMissing => ofString "no serialized bytes"
  | endsAfterHeader => ofString "unexpected end of data after header"
  | endsAfterReserved => ofString "unexpected end of data after reserved"
  | coinTrailing count => decimal count ++ ofString " trailing bytes after unspent output entry"
  | headerAmbiguous remembered =>
    ofString "spent output at height 0 follows header code " ++ decimal remembered ++
      ofString " in the same transaction and cannot be journaled"
  | journalCount wanted held =>
    ofString "block spends " ++ decimal wanted ++ ofString " outputs but the journal holds " ++
      decimal held
  | journalMissing wanted =>
    ofString "no spend journal data for a block that spends " ++ decimal wanted ++
      ofString " outputs"
  | journalEnded found wanted =>
    ofString "spend journal ended after " ++ decimal found ++ ofString " of " ++ decimal wanted ++
      ofString " spent outputs"
  | journalLeftover count wanted =>
    decimal count ++ ofString " bytes left over after " ++ decimal wanted ++
      ofString " spent outputs"
  | tipSet fault => ofString "malformed tip set: " ++ fault.message
  | outPointKeyShort => ofString "outpoint key too short"
  | outPointIndexTooLarge => ofString "outpoint index exceeds 32 bits"
  | outPointKeyTrailing => ofString "trailing bytes after outpoint key"
  | noEntry bucket => ofString "no entry in bucket " ++ bucket
  | damaged what cause => what ++ ofString ": " ++ cause.message
  | positionalArgument argument =>
    ofString "unexpected positional argument '" ++ argument ++ ofString "'"
  | settingsUnreadable path => ofString "unable to open config file '" ++ path ++ ofString "'"
  | settingsKeyEmpty line path =>
    ofString "empty key on line " ++ decimal line ++ ofString " of '" ++ path ++ ofString "'"
  | settingNotNumber value key =>
    ofString "cannot parse '" ++ value ++ ofString "' as unsigned integer for key '" ++ key ++
      ofString "'"
  | logLevelUnknown name => ofString "unknown log level '" ++ name ++ ofString "'"
  | inputCount item => ofString "invalid input count '" ++ item ++ ofString "'"
  | reported _ message => message

end Fault

/-- A fault and the number of input bytes that were read before it. -/
structure Error where
  /-- The cause. -/
  fault : Fault
  /-- The number of bytes read before the failure. -/
  bytesRead : Nat
  deriving DecidableEq

namespace Error

/-- The code of an error is the code of its fault. -/
def code (e : Error) : ErrorCode := e.fault.code

/-- The kind of an error is the kind of its code. -/
def kind (e : Error) : ErrorKind := e.code.kind

/-- The text of an error is the text of its fault. -/
def message (e : Error) : Text := e.fault.message

/-- Whether the error stands for success. -/
def isNone (e : Error) : Bool := e.code == .none

/-- Errors are told apart by their code alone. -/
def sameCode (a b : Error) : Bool := a.code == b.code

/-- The error as seen by a reader that had read `start` bytes before the failing part. -/
def after (start : Nat) (e : Error) : Error := { e with bytesRead := start + e.bytesRead }

/-- Moves the count of read bytes by `base`; the count is a 64-bit word and wraps. -/
def offsetBy (base : Nat) (e : Error) : Error :=
  { e with bytesRead := (e.bytesRead + base) % UInt64.size }

/-- Whether reports show the count of read bytes: only for input that does not decode. -/
def showsBytesRead (e : Error) : Bool := e.kind == .malformed || e.kind == .corruption

/-- The report of an error on one line. -/
def format (e : Error) : Text :=
  if e.isNone then ofString "no error"
  else
    ofString e.code.name ++ ofString "(" ++ decimal e.code.number.toNat ++ ofString ")" ++
      (if e.message = [] then [] else ofString ": " ++ e.message) ++
      (if e.showsBytesRead then ofString " (bytes read: " ++ decimal e.bytesRead ++ ofString ")"
       else [])

end Error

/-- Outcomes with comparable values can be compared. -/
instance decidableEqOutcome {α : Type} [DecidableEq α] : DecidableEq (Except Error α)
  | .ok a, .ok b => decidable_of_iff (a = b) ⟨congrArg _, Except.ok.inj⟩
  | .error e, .error f => decidable_of_iff (e = f) ⟨congrArg _, Except.error.inj⟩
  | .ok _, .error _ => isFalse nofun
  | .error _, .ok _ => isFalse nofun

/-- Asking an outcome for the side that it does not have. -/
inductive WrongSide where
  /-- the value of a failure -/
  | valueOfError
  /-- the error of a success -/
  | errorOfValue
  deriving DecidableEq

/-- The text of a wrong access. -/
def WrongSide.message : WrongSide → String
  | valueOfError => "Result::value() on error"
  | errorOfValue => "Result::error() on value"

/-- The value of an outcome, or the complaint that it has none. -/
def valueOf {α : Type} : Except Error α → Except WrongSide α
  | .ok a => .ok a
  | .error _ => .error .valueOfError

/-- The error of an outcome, or the complaint that it has none. -/
def errorOf {α : Type} : Except Error α → Except WrongSide Error
  | .ok _ => .error .errorOfValue
  | .error e => .ok e

end CoinLedger
