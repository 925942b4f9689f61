import ScriptMachine.Program
import ScriptMachine.Value.Packed

/-!
# Program blobs

The binary form of a program. After four identifying bytes and a version come the constants as packed
words, the code, the imports, the exports and the entry. Every list is preceded by its length, so
that no blob is the beginning of another. A blob is read as a whole: bytes left over are an error, and
so is code that cannot be walked to its end.
-/

namespace ScriptMachine

inductive BlobError where
  | badMagic
  | unsupportedVersion (version : Nat)
  | truncated
  | badConstant (index : Nat) (word : UInt64)
  | badName
  | nameTooLong (bytes : Nat)
  | trailingBytes (count : Nat)
  | code (error : DecodeError)
  deriving DecidableEq, Repr

namespace BlobError

def message : BlobError → String
  | .badMagic => "not a program blob"
  | .unsupportedVersion version => "unsupported blob version " ++ toString version
  | .truncated => "program blob is truncated"
  | .badConstant index word =>
    "constant #" ++ toString index ++ " has invalid encoding 0x" ++ hexText 16 word.toNat
  | .badName => "symbol name is not valid utf-8"
  | .nameTooLong bytes => "symbol name of " ++ toString bytes ++ " bytes does not fit a blob"
  | .trailingBytes count => toString count ++ " unexpected bytes after program"
  | .code error => "malformed code: " ++ error.message

end BlobError

namespace Blob

/-- The bytes that every blob starts with. -/
def magic : List UInt8 :=
  [0x51, 0x55, 0x49, 0x4c]

def version : Nat :=
  1

/-! ### Writing -/

def writeName (name : String) : Except BlobError (List UInt8) :=
  if maxNameLength < name.utf8ByteSize then .error (.nameTooLong name.utf8ByteSize)
  else .ok (Bytes.ofNat 2 name.utf8ByteSize ++ name.toByteArray.data.toList)

def writeImport (m : Import) : Except BlobError (List UInt8) := do
  return (← writeName m.name) ++ [m.arity]

def writeExport (e : Export) : Except BlobError (List UInt8) := do
  return (← writeName e.name) ++ [e.arity] ++ Bytes.ofNat 4 e.address.toNat

/-- A list of items, after their number. -/
def writeList {α : Type} (write : α → Except BlobError (List UInt8)) (items : List α) :
    Except BlobError (List UInt8) := do
  return Bytes.ofNat 4 items.length ++ (← items.mapM write).flatten

def writeEntry : Option UInt32 → List UInt8
  | none => [0]
  | some entry => 1 :: Bytes.ofNat 4 entry.toNat

def write (p : Program) : Except BlobError (List UInt8) := do
  let imports ← writeList writeImport p.imports
  let exports ← writeList writeExport p.exports
  return magic ++ Bytes.ofNat 2 version
    ++ Bytes.ofNat 4 p.constants.size
    ++ p.constants.toList.flatMap (fun v => Bytes.ofNat 8 v.packed.toNat)
    ++ Bytes.ofNat 4 p.code.size ++ p.code.toList
    ++ imports ++ exports ++ writeEntry p.entry

/-! ### Reading -/

/-- A reader takes what it needs from the front of the remaining bytes. -/
abbrev Reader := StateT (List UInt8) (Except BlobError)

def take (count : Nat) : Reader (List UInt8) := fun bytes =>
  let taken := bytes.take count
  if taken.length < count then .error .truncated else .ok (taken, bytes.drop count)

/-- The next `width` bytes as a number. -/
def readWord (width : Nat) : Reader Nat := do
  return Bytes.toNat (← take width)

def nameOfBytes (bytes : List UInt8) : Except BlobError String :=
  match String.fromUTF8? ⟨bytes.toArray⟩ with
  | some name => .ok name
  | none => .error .badName

def readName : Reader String := do
  nameOfBytes (← take (← readWord 2))

def readConstant (index : Nat) : Reader Value := do
  let word := UInt64.ofNat (← readWord 8)
  match Value.ofPacked? word with
  | some value => return value
  | none => throw (.badConstant index word)

def readImport (_ : Nat) : Reader Import := do
  let name ← readName
  return ⟨name, .ofNat (← readWord 1)⟩

def readExport (_ : Nat) : Reader Export := do
  let name ← readName
  let arity ← readWord 1
  return ⟨name, .ofNat arity, .ofNat (← readWord 4)⟩

/-- The next `count` items. A reader of items is told their index. -/
def readItems {α : Type} (read : Nat → Reader α) : (count index : Nat) → Reader (List α)
  | 0, _ => return []
  | count + 1, index => do
    let first ← read index
    return first :: (← readItems read count (index + 1))

/-- A list of items, after their number. -/
def readList {α : Type} (read : Nat → Reader α) : Reader (List α) := do
  readItems read (← readWord 4) 0

/-- The entry, after a byte that says whether there is one. -/
def readEntry : Reader (Option UInt32) := do
  if (← readWord 1) = 0 then return none
  return some (.ofNat (← readWord 4))

def readHeader : Reader Unit := do
  if (← take 4) ≠ magic then throw .badMagic
  let found ← readWord 2
  if found ≠ version then throw (.unsupportedVersion found)

/-- The parts of a program, in the order in which they are written. -/
def readProgram : Reader Program := do
  readHeader
  let constants ← readList readConstant
  let code ← take (← readWord 4)
  let imports ← readList readImport
  let exports ← readList readExport
  let entry ← readEntry
  return ⟨code.toArray, constants.toArray, imports, exports, entry⟩

def read (bytes : List UInt8) : Except BlobError Program := do
  let (program, rest) ← readProgram bytes
  if rest ≠ [] then throw (.trailingBytes rest.length)
  match (Walk.ofCode program.code).error with
  | some error => throw (.code error)
  | none => return program

end Blob

end ScriptMachine
