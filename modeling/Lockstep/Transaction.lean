import Lockstep.RWSet

/-!
# Contracts, transactions and their results

A transaction names a contract and a method to enter, with parameters in the order of their names.
Running it gives a contract result, which is what the contract itself reported, and a status, which
is what the engine made of it.
-/

namespace Lockstep

inductive Runtime where
  | native
  | wasmer
  | gasm
  | wxvm
  | evm
  deriving DecidableEq, Repr

structure Contract where
  name : String
  version : String
  runtime : Runtime
  deriving DecidableEq, Repr

namespace Contract

def native (name : String) : Contract := ⟨name, "v1", .native⟩

def display (c : Contract) : String := c.name ++ "@" ++ c.version

end Contract

/-- Named call parameters, in the order of their names. -/
abbrev Parameters := SortedMap String Bytes

inductive TxType where
  | invokeContract
  | queryContract
  | chainConfig
  | governance
  deriving DecidableEq, Repr

namespace TxType

/-- Governance changes must never apply in part. -/
def isGovernance : TxType → Bool
  | .chainConfig | .governance => true
  | .invokeContract | .queryContract => false

def text : TxType → String
  | .invokeContract => "InvokeContract"
  | .queryContract => "QueryContract"
  | .chainConfig => "ChainConfig"
  | .governance => "Governance"

end TxType

/-- Empty byte code stands for the code deployed for the contract. -/
structure Transaction where
  txId : String
  txType : TxType := .invokeContract
  sender : String := ""
  contract : Contract
  method : String
  parameters : Parameters := .empty
  byteCode : Bytes := []
  deriving DecidableEq

inductive TxStatus where
  | success
  | contractFail
  | contractTooDeep
  | outOfGas
  | internalError
  deriving DecidableEq, Repr

namespace TxStatus

def isSuccess (s : TxStatus) : Bool := s == .success

def text : TxStatus → String
  | .success => "SUCCESS"
  | .contractFail => "CONTRACT_FAIL"
  | .contractTooDeep => "CONTRACT_TOO_DEEP_FAILED"
  | .outOfGas => "OUT_OF_GAS"
  | .internalError => "INTERNAL_ERROR"

end TxStatus

/-- What a contract reported to its caller; code zero is success. -/
structure ContractResult where
  code : UInt32
  result : Bytes
  message : String
  gasUsed : Nat
  deriving DecidableEq, Repr

namespace ContractResult

def success (result : Bytes) (gasUsed : Nat) : ContractResult := ⟨0, result, "", gasUsed⟩

def failure (message : String) (gasUsed : Nat) : ContractResult := ⟨1, [], message, gasUsed⟩

def isSuccess (r : ContractResult) : Bool := r.code == 0

end ContractResult

/-- Status and gas of a transaction, published with its block. -/
structure TxResult where
  txId : String
  status : TxStatus
  contractResult : ContractResult
  rwsetHash : Hash
  gasUsed : Nat
  leakedIterators : UInt32
  deriving DecidableEq

/-- The block that a snapshot is anchored at. -/
structure BlockInfo where
  height : Nat
  hash : Hash
  deriving DecidableEq

namespace BlockInfo

def genesis : BlockInfo := ⟨0, .zero⟩

def display (b : BlockInfo) : String :=
  "[height: " ++ toString b.height ++ ", hash: " ++ b.hash.hex ++ "]"

end BlockInfo

/-! ## Canonical forms -/

/-- Alternatives are numbered in the order of their declaration. -/
def Runtime.toBytes : Runtime → Bytes
  | .native => Encoding.uleb128 0
  | .wasmer => Encoding.uleb128 1
  | .gasm => Encoding.uleb128 2
  | .wxvm => Encoding.uleb128 3
  | .evm => Encoding.uleb128 4

def Contract.toBytes (c : Contract) : Bytes :=
  Encoding.text c.name ++ Encoding.text c.version ++ c.runtime.toBytes

/-- Entries are ordered by the written form of their names, so shorter names come first. -/
def encodeParameters (ps : Parameters) : Bytes :=
  let written : SortedMap Bytes Bytes :=
    .ofList (ps.entries.map fun p => (Encoding.text p.1, Encoding.bytes p.2))
  Encoding.list (fun p => p.1 ++ p.2) written.entries

def TxType.toBytes : TxType → Bytes
  | .invokeContract => Encoding.uleb128 0
  | .queryContract => Encoding.uleb128 1
  | .chainConfig => Encoding.uleb128 2
  | .governance => Encoding.uleb128 3

def Transaction.toBytes (t : Transaction) : Bytes :=
  Encoding.text t.txId ++ t.txType.toBytes ++ Encoding.text t.sender ++ t.contract.toBytes
    ++ Encoding.text t.method ++ encodeParameters t.parameters ++ Encoding.bytes t.byteCode

def TxStatus.toBytes : TxStatus → Bytes
  | .success => Encoding.uleb128 0
  | .contractFail => Encoding.uleb128 1
  | .contractTooDeep => Encoding.uleb128 2
  | .outOfGas => Encoding.uleb128 3
  | .internalError => Encoding.uleb128 4

def ContractResult.toBytes (r : ContractResult) : Bytes :=
  Encoding.word32 r.code ++ Encoding.bytes r.result ++ Encoding.text r.message
    ++ Encoding.word64 r.gasUsed

def TxResult.toBytes (r : TxResult) : Bytes :=
  Encoding.text r.txId ++ r.status.toBytes ++ r.contractResult.toBytes ++ r.rwsetHash.toBytes
    ++ Encoding.word64 r.gasUsed ++ Encoding.word32 r.leakedIterators

def BlockInfo.toBytes (b : BlockInfo) : Bytes := Encoding.word64 b.height ++ b.hash.toBytes

end Lockstep
