import HkSystem.Common.Words
import HkSystem.Tpm.Model.Sha256
/-!
# The fTPM — signing and verifying

`compute_hmac_sha256_trunc` and the two calls of `TpmInterface`. The key is
a parameter, and `tpmSecretKey` the one the device holds. The context on the
stack is not initialised by C, so it is a parameter too; the second hash
starts from what the first one left there.
-/

namespace HkSystem

namespace Tpm

/-- `tpm_secret_key`. -/
def tpmSecretKey : Region 32 :=
  ⟨fun i => [0x12, 0x34, 0x56, 0x78, 0x9A, 0xBC, 0xDE, 0xF0, 0x11, 0x22, 0x33, 0x44, 0x55, 0x66,
    0x77, 0x88, 0x99, 0xAA, 0xBB, 0xCC, 0xDD, 0xEE, 0xFF, 0x00, 0xAB, 0xCD, 0xEF, 0x01, 0x23,
    0x45, 0x67, 0x89].getD i.1 0⟩

/-- The `memset` of `k_ipad` or of `k_opad`, and the loop that xors the key
into it. -/
def padKey (key : Region 32) (pad : UInt8) : Option (Region 64) := do
  let k ← (Region.zero : Region 64).fill? 0 64 pad
  (List.range 32).foldlM (fun k i => do
    let b ← k.get? i
    let c ← key.get? i
    k.set? i (b ^^^ c)) k

/-- `memcpy(&signature, hash, 4)`. -/
def truncate : List UInt8 → Option UInt32
  | b₀ :: b₁ :: b₂ :: b₃ :: _ => some (Words.wordLE b₀ b₁ b₂ b₃)
  | _ => none

/-- `compute_hmac_sha256_trunc`, with the uninitialised context on its stack. -/
def computeHmacSha256Trunc (ctx : Sha256Ctx) (key : Region 32) (data : UInt32) : Option UInt32 := do
  let kIpad ← padKey key 0x36
  let kOpad ← padKey key 0x5c
  let (ctx, innerHash) ← sha256Stream ctx [kIpad.first 64, Words.bytesLE data]
  let (_, finalHash) ← sha256Stream ctx [kOpad.first 64, innerHash]
  truncate finalHash

/-- `crypto_api_sign_data`. -/
def cryptoApiSignData (ctx : Sha256Ctx) (key : Region 32) (rawHash : UInt32) : Option UInt32 :=
  computeHmacSha256Trunc ctx key rawHash

/-- `crypto_api_verify_signature`. -/
def cryptoApiVerifySignature (ctx : Sha256Ctx) (key : Region 32) (dataHash signature : UInt32) :
    Option Int32 := do
  let validSig ← computeHmacSha256Trunc ctx key dataHash
  if signature = validSig then some 1 else some 0

end Tpm

end HkSystem
