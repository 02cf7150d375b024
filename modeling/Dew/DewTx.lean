/-
# Native transactions

`DewTx` with its wire format: `0xdf` in front of the RLP list of the signed fields. The reader
refuses other versions, addresses that are not 20 bytes long and amounts above 256 bits; every
other field is taken as it comes.
-/
import Dew.Database

open Bytes

namespace Dew

/-- A hexadecimal digit. -/
def hexDigit (n : ℕ) : Char :=
  if n < 10 then Char.ofNat ('0'.toNat + n) else Char.ofNat ('a'.toNat + (n - 10))

/-- The hexadecimal digits of a byte string. -/
def hexDigits (b : Bytes) : List ℕ :=
  b.flatMap fun x => [x.toNat / 16, x.toNat % 16]

/-- `Address.Hex`: letters are capital where the digest of the lower-case digits has a digit
above seven (EIP-55). -/
def Address.hex (a : Address) : String :=
  let digits := hexDigits a.bytes
  let digest := hexDigits (keccak256Hash (digits.map fun d => UInt8.ofNat (hexDigit d).toNat)).bytes
  "0x" ++ String.ofList (List.zipWith (fun d h => if 7 < h then (hexDigit d).toUpper else hexDigit d)
    digits digest)

/-- `BytesToAddress` of a string of exactly twenty bytes. -/
def addressOfBytes (b : Bytes) : Address :=
  BitVec.ofNat 160 (ofBytes b)

@[simp] theorem addressOfBytes_bytes (a : Address) : addressOfBytes a.bytes = a := by
  rw [addressOfBytes, Address.bytes, ofBytes_beBytes_of_lt a.isLt, BitVec.ofNat_toNat,
    BitVec.setWidth_eq]

/-- `DewTx`; a missing amount is a nil pointer. -/
structure DewTx where
  version : BitVec 32
  chainID : ℕ
  nonce : U64
  sender : Address
  receiver : Address
  amount : Option U256
  fee : U64
  payload : Bytes
  accessList : List Address
  v : ℕ
  r : ℕ
  s : ℕ
deriving DecidableEq, Repr

/-- `params.DewTxVersion` -/
def dewTxVersion : BitVec 32 := 1

inductive DewTxError where
  | missingTag
  | rlp
  | unsupportedVersion (version : ℕ)
  | addressLength
  | accessListAddressLength
  | amountOverflow
deriving DecidableEq, Repr

def DewTxError.text : DewTxError → String
  | missingTag => "types: not a DewTx (missing 0xdf prefix)"
  | rlp => "types: dewtx rlp: "
  | unsupportedVersion v => "types: unsupported DewTx version " ++ toString v
  | addressLength => "types: dewtx address length"
  | accessListAddressLength => "types: dewtx access list address length"
  | amountOverflow => "types: dewtx amount overflow"

namespace DewTx

/-- The fields of `unsignedRLP`, each encoded. -/
def unsignedRLP (tx : DewTx) : List Bytes :=
  [Rlp.encodeUint tx.version.toNat, Rlp.encodeUint tx.chainID, Rlp.encodeUint tx.nonce.toNat,
    Rlp.encodeString tx.sender.bytes, Rlp.encodeString tx.receiver.bytes,
    Rlp.encodeUint (tx.amount.getD 0).toNat, Rlp.encodeUint tx.fee.toNat,
    Rlp.encodeString tx.payload,
    Rlp.encodeList (tx.accessList.map fun a => Rlp.encodeString a.bytes)]

def marshalBinary (tx : DewTx) : Bytes :=
  0xdf :: Rlp.encodeList (tx.unsignedRLP ++
    [Rlp.encodeUint tx.v, Rlp.encodeUint tx.r, Rlp.encodeUint tx.s])

/-- `DewTx.Hash` -/
def hash (tx : DewTx) : Hash :=
  keccak256Hash tx.marshalBinary

/-- The fields of a signed transaction as the RLP reader delivers them. -/
structure SignedRLP where
  version : ℕ
  chainID : ℕ
  nonce : ℕ
  sender : Bytes
  receiver : Bytes
  amount : ℕ
  fee : ℕ
  payload : Bytes
  accessList : List Bytes
  yParity : ℕ
  r : ℕ
  s : ℕ

def decodeSignedRLP (b : Bytes) : Option SignedRLP := do
  let b ← Rlp.decodeList b
  let (version, b) ← Rlp.decodeUint 4 b
  let (chainID, b) ← Rlp.decodeNat b
  let (nonce, b) ← Rlp.decodeUint 8 b
  let (sender, b) ← Rlp.decodeString b
  let (receiver, b) ← Rlp.decodeString b
  let (amount, b) ← Rlp.decodeNat b
  let (fee, b) ← Rlp.decodeUint 8 b
  let (payload, b) ← Rlp.decodeString b
  let (accessList, b) ← Rlp.decodeStrings b
  let (yParity, b) ← Rlp.decodeNat b
  let (r, b) ← Rlp.decodeNat b
  let (s, b) ← Rlp.decodeNat b
  if b = [] then
    some ⟨version, chainID, nonce, sender, receiver, amount, fee, payload, accessList, yParity, r, s⟩
  else none

def unmarshalBinary (b : Bytes) : Except DewTxError DewTx :=
  match b with
  | 0xdf :: b =>
    if b = [] then .error .missingTag
    else
      match decodeSignedRLP b with
      | none => .error .rlp
      | some raw =>
        if raw.version ≠ dewTxVersion.toNat then .error (.unsupportedVersion raw.version)
        else if raw.sender.length ≠ 20 ∨ raw.receiver.length ≠ 20 then .error .addressLength
        else if raw.accessList.any (·.length != 20) then .error .accessListAddressLength
        else if 2 ^ 256 ≤ raw.amount then .error .amountOverflow
        else
          .ok {
            version := BitVec.ofNat 32 raw.version
            chainID := raw.chainID
            nonce := BitVec.ofNat 64 raw.nonce
            sender := addressOfBytes raw.sender
            receiver := addressOfBytes raw.receiver
            amount := some (BitVec.ofNat 256 raw.amount)
            fee := BitVec.ofNat 64 raw.fee
            payload := raw.payload
            accessList := raw.accessList.map addressOfBytes
            v := raw.yParity
            r := raw.r
            s := raw.s }
  | _ => .error .missingTag

end DewTx

end Dew
