import HkSystem.System.Model.Dataports
/-!
# The variant repository

`repository.c`: it hashes the variant in `gen_input_buf`, has the fTPM sign
the hash and commits the metadata. The fTPM's answer is a function it is
given.
-/

namespace HkSystem

namespace Repository

/-- `compute_jenkins_hash`. -/
def computeJenkinsHash {n : ℕ} (data : Region n) (len : UInt64) : Option UInt32 :=
  OneAtATime.hashLoop data len.toNat

/-- `repo_write_api_add_variant`. -/
def repoWriteApiAddVariant (signData : UInt32 → Option UInt32) (variantId size : Int32)
    (shared : Shared) : Option Shared := do
  let hash ← computeJenkinsHash shared.genBuf (Words.sizeT size)
  let signature ← signData hash
  some (shared.commit ⟨variantId.toUInt32, size.toUInt32, signature⟩)

end Repository

end HkSystem
