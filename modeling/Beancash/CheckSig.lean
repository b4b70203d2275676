import Beancash.SignatureHash

namespace Beancash

open ByteStream

/-- What is called of OpenSSL. `verify` is `CPubKey::Verify` of a valid public key. -/
structure Crypto where
  sha1 : List UInt8 → Vector UInt8 20
  sha256 : List UInt8 → Vector UInt8 32
  ripemd160 : List UInt8 → Vector UInt8 20
  verify : (vchPubKey : List UInt8) → Uint256 → (vchSig : List UInt8) → Bool

namespace Crypto

/-- `Hash`, as the bytes of the number. -/
def hash (c : Crypto) (vch : List UInt8) : Vector UInt8 32 := c.sha256 (c.sha256 vch).toList

def hash160 (c : Crypto) (vch : List UInt8) : Vector UInt8 20 := c.ripemd160 (c.sha256 vch).toList

end Crypto

def isCanonicalPubKey : List UInt8 → Bool
  | [] => false
  | header :: vch =>
    let size := vch.length + 1
    if header = 0x04 then size = 65
    else (header = 0x02 || header = 0x03) && size = 33

/-- Half of the order of the curve's generator minus 1. -/
def maxModHalfOrder : ℕ := 0x7FFFFFFFFFFFFFFFFFFFFFFFFFFFFFFF5D576E7357A4501DDFE92F46681B20A0

/-- `CheckSignatureElement` against half of the order; the element is big endian. -/
def checkSignatureElement (vch : List UInt8) : Bool :=
  0 < ofLittleEndian vch.reverse ∧ ofLittleEndian vch.reverse ≤ maxModHalfOrder

/-- `IsCanonicalSignature`:
`<30> <total len> <02> <len R> <R> <02> <len S> <S> <hashtype>`, where R and S are not negative,
not excessively padded, and S is in the lower half. -/
def isCanonicalSignature (vchSig : List UInt8) : Bool :=
  let byte (i : ℕ) : UInt8 := vchSig.getD i 0
  let nHashType := byte (vchSig.length - 1) &&& 0x7f
  let nLenR := (byte 3).toNat
  let nLenS := (byte (5 + nLenR)).toNat
  let s := 6 + nLenR
  9 ≤ vchSig.length && vchSig.length ≤ 73 &&
    (1 ≤ nHashType && nHashType ≤ 3) &&
    byte 0 = 0x30 && (byte 1).toNat = vchSig.length - 3 &&
    5 + nLenR < vchSig.length && nLenR + nLenS + 7 = vchSig.length &&
    byte 2 = 0x02 && nLenR ≠ 0 && byte 4 < 0x80 &&
    !(1 < nLenR && byte 4 = 0 && byte 5 < 0x80) &&
    byte (s - 2) = 0x02 && nLenS ≠ 0 && byte s < 0x80 &&
    !(1 < nLenS && byte s = 0 && byte (s + 1) < 0x80) &&
    checkSignatureElement ((vchSig.drop s).take nLenS)

/-- `CPubKey::GetLen` -/
def pubKeyLen (chHeader : UInt8) : ℕ :=
  if chHeader = 2 ∨ chHeader = 3 then 33
  else if chHeader = 4 ∨ chHeader = 6 ∨ chHeader = 7 then 65
  else 0

/-- Whether `CPubKey` takes the bytes, and does not invalidate itself. -/
def isValidPubKey : List UInt8 → Bool
  | [] => false
  | header :: vch => pubKeyLen header ≠ 0 && pubKeyLen header = vch.length + 1

/-- `CheckSig`. The hash type is one byte tacked on to the end of the signature. The cache of
signatures that were verified before gives the same answer and is left out. -/
def checkSig (c : Crypto) (vchSig vchPubKey : List UInt8) (scriptCode : Script)
    (txTo : Transaction) (nIn : UInt32) (nHashType : Int32) : Bool :=
  isValidPubKey vchPubKey &&
    match vchSig.getLast? with
    | none => false
    | some back =>
      let hashByte := Int32.ofNat back.toNat
      (nHashType = 0 || nHashType = hashByte) &&
        let sighash := signatureHash
          (fun bytes => .ofNat 256 (ofLittleEndian (c.hash bytes).toList))
          scriptCode txTo nIn hashByte
        c.verify vchPubKey sighash vchSig.dropLast

end Beancash
