import Lockstep.Digest
import Lockstep.Encoding
import Lockstep.Key

/-!
# Read/write sets

The evidence of one transaction: which keys it read, with the value and version it saw, and what it
wrote. Nodes that run the same transactions on the same state must produce the same octets, so the
set has a canonical form, a hash of it, and a Merkle root over the sets of a block.
-/

namespace Lockstep

/-- Position of a transaction in its block. -/
abbrev TxIndex := UInt32

/-- Where a read was served from: the durable state, or a transaction earlier in the block. -/
inductive ReadVersion where
  | storage
  | inBlock (writer : TxIndex)
  deriving DecidableEq, Repr

def ReadVersion.describe : ReadVersion → String
  | .storage => "Storage"
  | .inBlock writer => "InBlock(" ++ toString writer.toNat ++ ")"

def describeValue : Option Bytes → String
  | some bs => "0x" ++ Bytes.hex bs
  | none => "<none>"

structure Read where
  key : StateKey
  value : Option Bytes
  version : ReadVersion
  deriving DecidableEq, Repr

def Read.describe (r : Read) : String :=
  "TxRead(" ++ r.key.display ++ " = " ++ describeValue r.value ++ ", " ++ r.version.describe ++ ")"

/-- A write without a value deletes the key. A write to a record key carries a statement. -/
structure Write where
  key : StateKey
  value : Option Bytes
  deriving DecidableEq, Repr

namespace Write

def isDeletion (w : Write) : Bool := w.value.isNone

def isRecord (w : Write) : Bool := w.key.isRecord

def describe (w : Write) : String :=
  "TxWrite(" ++ w.key.display ++ " = " ++ describeValue w.value ++ ")"

end Write

structure RWSet where
  txId : String
  reads : List Read
  writes : List Write
  deriving DecidableEq, Repr

namespace RWSet

def empty (txId : String) : RWSet := ⟨txId, [], []⟩

def isEmpty (s : RWSet) : Bool := s.reads.isEmpty && s.writes.isEmpty

def readKeys (s : RWSet) : List StateKey := s.reads.map (·.key)

/-- The written keys, those of records included. -/
def writeKeys (s : RWSet) : List StateKey := s.writes.map (·.key)

end RWSet

namespace StateKey

def toBytes (k : StateKey) : Bytes := Encoding.text k.contract ++ Encoding.bytes k.key

def reader : Encoding.Reader StateKey := do
  let contract ← Encoding.Reader.text
  let key ← Encoding.Reader.bytes
  return ⟨contract, key⟩

end StateKey

namespace ReadVersion

def toBytes : ReadVersion → Bytes
  | .storage => Encoding.uleb128 0
  | .inBlock writer => Encoding.uleb128 1 ++ Encoding.word32 writer

def reader : Encoding.Reader ReadVersion := do
  match ← Encoding.Reader.uleb128 with
  | 0 => return .storage
  | 1 => do
    let writer ← Encoding.Reader.word32
    return .inBlock writer
  | _ => throw .unknownVariant

end ReadVersion

namespace Read

def toBytes (r : Read) : Bytes :=
  r.key.toBytes ++ Encoding.option Encoding.bytes r.value ++ r.version.toBytes

def reader : Encoding.Reader Read := do
  let key ← StateKey.reader
  let value ← Encoding.Reader.option Encoding.Reader.bytes
  let version ← ReadVersion.reader
  return ⟨key, value, version⟩

end Read

namespace Write

def toBytes (w : Write) : Bytes := w.key.toBytes ++ Encoding.option Encoding.bytes w.value

def reader : Encoding.Reader Write := do
  let key ← StateKey.reader
  let value ← Encoding.Reader.option Encoding.Reader.bytes
  return ⟨key, value⟩

end Write

namespace RWSet

def toBytes (s : RWSet) : Bytes :=
  Encoding.text s.txId ++ Encoding.list Read.toBytes s.reads
    ++ Encoding.list Write.toBytes s.writes

def reader : Encoding.Reader RWSet := do
  let txId ← Encoding.Reader.text
  let reads ← Encoding.Reader.list Read.reader
  let writes ← Encoding.Reader.list Write.reader
  return ⟨txId, reads, writes⟩

def ofBytes (bs : Bytes) : Except Encoding.DecodeError RWSet := Encoding.Reader.whole reader bs

def hash (s : RWSet) : Hash := Hash.ofMessage s.toBytes

/-- The root that stands for the evidence of a whole block, in block order. -/
def root (sets : List RWSet) : Hash := Merkle.root (sets.map hash)

end RWSet

end Lockstep
