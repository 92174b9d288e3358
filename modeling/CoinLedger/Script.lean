import CoinLedger.PublicKey
import CoinLedger.Vlq

/-!
# Compressed scripts

Most locking scripts follow one of four templates and are stored as a tag and the part that
varies.  A `Form` says which template a script follows:

* tag 0, payment to the 20-byte hash of a key: `76 a9 14 hash 88 ac`;
* tag 1, payment to the 20-byte hash of a script: `a9 14 hash 87`;
* tags 2 and 3, payment to a short key: `21 key ac`, stored as the key itself;
* tags 4 and 5, payment to a full key: `41 key ac`, stored as the parity of `y` and `x`;
* any other script is stored raw, behind its length plus 6.

Key templates are recognised only with keys on the curve.  `compress` writes, `compressedSize`
predicts the length, `readSize` finds the length of stored bytes from the tag alone, and
`decompress` gives the script back.
-/

namespace CoinLedger.Script

/-- Pushes the next 20 bytes. -/
def push20 : UInt8 := 0x14

/-- Pushes the next 33 bytes. -/
def push33 : UInt8 := 0x21

/-- Pushes the next 65 bytes. -/
def push65 : UInt8 := 0x41

/-- Duplicates the top of the stack. -/
def dup : UInt8 := 0x76

/-- Compares two values. -/
def equal : UInt8 := 0x87

/-- Compares two values and fails unless they are equal. -/
def equalVerify : UInt8 := 0x88

/-- Hashes a value to 20 bytes. -/
def hash160 : UInt8 := 0xa9

/-- Checks a signature. -/
def checkSig : UInt8 := 0xac

/-- The script that pays to the hash of a key. -/
def payToKeyHash (hash : Bytes) : Bytes := [dup, hash160, push20] ++ hash ++ [equalVerify, checkSig]

/-- The script that pays to the hash of a script. -/
def payToScriptHash (hash : Bytes) : Bytes := [hash160, push20] ++ hash ++ [equal]

/-- The script that pays to a key in short form. -/
def payToShortKey (key : Bytes) : Bytes := [push33] ++ key ++ [checkSig]

/-- The script that pays to a key in full form. -/
def payToFullKey (key : Bytes) : Bytes := [push65] ++ key ++ [checkSig]

/-- The `count` bytes between `head` and `tail`, if the script consists of the three. -/
def between? (head : Bytes) (count : Nat) (tail script : Bytes) : Option Bytes :=
  let middle := (script.drop head.length).take count
  if middle.length = count ∧ script = head ++ middle ++ tail then some middle else none

/-- Taking a script apart gives the bytes from which it is put together. -/
theorem between?_eq_some_iff {head tail script middle : Bytes} {count : Nat} :
    between? head count tail script = some middle ↔
      middle.length = count ∧ script = head ++ middle ++ tail := by
  simp only [between?]
  constructor
  · intro h
    split at h
    · rename_i fits
      cases h
      exact fits
    · cases h
  · rintro ⟨rfl, rfl⟩
    simp

/-- The template that a script follows, with the part that varies. -/
inductive Form where
  /-- payment to the hash of a key -/
  | keyHash (hash : Bytes)
  /-- payment to the hash of a script -/
  | scriptHash (hash : Bytes)
  /-- payment to a key in short form -/
  | shortKey (key : Bytes)
  /-- payment to a key in full form -/
  | fullKey (key : Bytes)
  /-- any other script -/
  | raw (script : Bytes)
  deriving DecidableEq

/-- The form of a script.  The templates differ in length, so at most one of them fits. -/
def form (script : Bytes) : Form :=
  match between? [dup, hash160, push20] 20 [equalVerify, checkSig] script with
  | some hash => .keyHash hash
  | none =>
    match between? [hash160, push20] 20 [equal] script with
    | some hash => .scriptHash hash
    | none =>
      match (between? [push33] 33 [checkSig] script).filter PublicKey.isValid with
      | some key => .shortKey key
      | none =>
        match (between? [push65] 65 [checkSig] script).filter PublicKey.isValid with
        | some key => .fullKey key
        | none => .raw script

/-- The number of tags that stand for templates. -/
def templateTags : Nat := 6

/-- The number of bytes behind the tag of a template. -/
def payloadSize (tag : Nat) : Nat := if tag < 2 then 20 else 32

/-- The parity of the last byte of a full key, which is the parity of its `y`. -/
def fullKeyParity (key : Bytes) : Nat := (key.getLast?.getD 0).toNat % 2

/-- The stored bytes of a script of the given form. -/
def Form.encode : Form → Bytes
  | keyHash hash => 0 :: hash
  | scriptHash hash => 1 :: hash
  | shortKey key => key
  | fullKey key => UInt8.ofNat (4 + fullKeyParity key) :: (key.drop 1).take 32
  | raw script => Vlq.encode (script.length + templateTags) ++ script

/-- The number of stored bytes of a script of the given form. -/
def Form.encodedSize : Form → Nat
  | keyHash _ => 1 + 20
  | scriptHash _ => 1 + 20
  | shortKey _ => 1 + 32
  | fullKey _ => 1 + 32
  | raw script => Vlq.size (script.length + templateTags) + script.length

/-- The stored bytes of a script. -/
def compress (script : Bytes) : Bytes := (form script).encode

/-- The number of stored bytes of a script. -/
def compressedSize (script : Bytes) : Nat := (form script).encodedSize

/-- The length of the compressed script at the front of the data, read from its tag alone.  A
length of more than 64 bits is refused. -/
def readSize (data : Bytes) : Except Error Nat :=
  match Vlq.decode 64 data with
  | .error e => .error e
  | .ok tag =>
    if tag.value < templateTags then .ok (1 + payloadSize tag.value)
    else if tag.value - templateTags + tag.bytesRead < UInt64.size then
      .ok (tag.value - templateTags + tag.bytesRead)
    else .error ⟨.scriptSizeOverflow, tag.bytesRead⟩

/-- The script of a template tag and its payload.  Tags 2 and 3 take the payload as it is; tags 4
and 5 need a point of the curve, and without one the failure lies behind the tag. -/
def ofTemplate (tag : Nat) (payload : Bytes) (tagLength : Nat) : Except Error Bytes :=
  match tag with
  | 0 => .ok (payToKeyHash payload)
  | 1 => .ok (payToScriptHash payload)
  | 2 => .ok (payToShortKey (2 :: payload))
  | 3 => .ok (payToShortKey (3 :: payload))
  | _ =>
    match PublicKey.expand (UInt8.ofNat (tag - 2)) payload with
    | .ok key => .ok (payToFullKey key)
    | .error _ => .error ⟨.scriptKeyInvalid, tagLength⟩

/-- The script whose compressed form stands at the front of the data; bytes behind it are left
alone. -/
def decompress (data : Bytes) : Except Error Bytes :=
  match Vlq.decode 64 data with
  | .error e => .error e
  | .ok tag =>
    let payload := data.drop tag.bytesRead
    if tag.value < templateTags then
      if payload.length < payloadSize tag.value then
        .error ⟨.scriptPayloadTruncated, data.length⟩
      else ofTemplate tag.value (payload.take (payloadSize tag.value)) tag.bytesRead
    else
      let length := tag.value - templateTags
      if payload.length < length then
        .error ⟨.rawScriptTruncated length payload.length, data.length⟩
      else .ok (payload.take length)

end CoinLedger.Script
