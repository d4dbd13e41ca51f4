import HkSystem.Common.OneAtATime
import HkSystem.Common.Words
/-!
# Dataports

The shared memory of `hk_system.camkes` that the attestation path runs over:
`guest_ram` between the Generator and the Dispatcher, `gen_buf` between the
Generator and the Repository, and the metadata the Repository commits for
the Dispatcher to read. Connected dataports are one region under two names;
distinct ones are disjoint.
-/

namespace HkSystem

/-- The three words of `secure_storage` that describe a variant. -/
@[ext] structure Metadata where
  vid : UInt32
  size : UInt32
  signature : UInt32
  deriving DecidableEq

/-- The bytes the Dispatcher's integrity hash covers: the size is an `int`,
and the hash takes a `size_t`. -/
def Metadata.payloadLen (metadata : Metadata) : ℕ := (Words.sizeT metadata.size.toInt32).toNat

/-- The dataports the Generator and the Repository write. -/
@[ext] structure Shared where
  guestRam : Region 67108864
  genBuf : Region 16777216
  secureStorage : Metadata
  /-- Every registration committed so far, in order. No component keeps this
  list; it names the registration an injection uses. -/
  registrations : List Metadata

/-- The store of a registration into `secure_storage`. -/
def Shared.commit (shared : Shared) (metadata : Metadata) : Shared :=
  { shared with
    secureStorage := metadata
    registrations := shared.registrations ++ [metadata] }

/-- A byte string over the front of both buffers. -/
def Shared.withPayload (shared : Shared) (bytes : List UInt8) : Shared :=
  { shared with
    guestRam := shared.guestRam.overwrite bytes
    genBuf := shared.genBuf.overwrite bytes }

/-- It is then read from either. -/
theorem Shared.first_withPayload (shared : Shared) {bytes : List UInt8}
    (h : bytes.length ≤ 16777216) :
    (shared.withPayload bytes).guestRam.first bytes.length = bytes ∧
      (shared.withPayload bytes).genBuf.first bytes.length = bytes :=
  ⟨Region.first_overwrite (by omega), Region.first_overwrite h⟩

end HkSystem
