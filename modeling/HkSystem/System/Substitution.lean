import HkSystem.System.Runs
/-!
# Substitution

A single byte cannot be changed between `gen_buf` and `guest_ram` without changing
the hash. Two can. While the running hash is still 0 — at the start of a payload, or
behind zeros, which it does not see — `41 xx` and `3F xx+81` bring it to the same
value, so a Generator can have one registered and the other injected, whatever
follows them (`substitute_is_injected`).
-/

namespace HkSystem

variable {k : ℕ} {b : UInt8} {tail : List UInt8} {shared : Shared}

/-- What the Repository gets to see. -/
def registered (k : ℕ) (b : UInt8) (tail : List UInt8) : List UInt8 :=
  List.replicate k 0 ++ 0x41 :: b :: tail

/-- What the Dispatcher gets to see. -/
def substitute (k : ℕ) (b : UInt8) (tail : List UInt8) : List UInt8 :=
  List.replicate k 0 ++ 0x3F :: (b + 0x81) :: tail

@[simp] theorem length_registered : (registered k b tail).length = k + (tail.length + 2) := by
  simp [registered]

theorem registered_ne_substitute : registered k b tail ≠ substitute k b tail := by
  intro h
  have hcons := List.append_cancel_left h
  rw [List.cons.injEq] at hcons
  exact absurd hcons.1 (by decide)

/-- **The two have one hash.** -/
theorem digest_substitute (hb : b ≤ 0x7E) :
    OneAtATime.digest (substitute k b tail) = OneAtATime.digest (registered k b tail) := by
  have hcarry : (b + 0x81).toUInt32 = b.toUInt32 + 0x81 := by
    have hnat : b.toNat ≤ 0x7E := hb
    rw [← UInt32.toNat_inj, UInt8.toNat_toUInt32, UInt8.toNat_add, UInt32.toNat_add,
      UInt8.toNat_toUInt32]
    change (b.toNat + 0x81) % 256 = (b.toNat + 0x81) % 4294967296
    omega
  rw [substitute, registered, OneAtATime.digest_adjacent_iff, OneAtATime.foldl_mix_zeros, hcarry]
  have hmix : OneAtATime.mix 0 0x41 = OneAtATime.mix 0 0x3F + 0x81 := by decide
  rw [hmix, UInt32.add_assoc, UInt32.add_comm b.toUInt32]

/-- **What the Repository signs is not what is injected.** If `gen_buf` starts with the
one and `guest_ram` with the other, the registration of the one succeeds, and the
injection that follows accepts the other and copies it into the arena. This holds
whatever comes behind the two bytes, and however many zeros stand in front. -/
theorem substitute_is_injected (w : World) (s : Dispatcher.State) (variantId : Int32)
    (hb : b ≤ 0x7E) (hfit : k + (tail.length + 2) ≤ 4096)
    (hbuf : shared.genBuf.first (k + (tail.length + 2)) = registered k b tail)
    (hram : shared.guestRam.first (k + (tail.length + 2)) = substitute k b tail) :
    ∃ shared' arena,
      w.addVariant variantId (Int32.ofNat (k + (tail.length + 2))) shared = some shared' ∧
      Dispatcher.executeSecureRuntimeInjection
          (Tpm.cryptoApiVerifySignature w.verifyStack Tpm.tpmSecretKey)
          { s with shared := shared' } variantId =
        (Dispatcher.State.install { s with shared := shared' } arena variantId,
          .injected variantId) ∧
      arena.first (k + (tail.length + 2)) = substitute k b tail ∧
      substitute k b tail ≠ registered k b tail := by
  have hlength : (registered k b tail).length = k + (tail.length + 2) := length_registered
  have hadd := @addVariant_of_first shared (registered k b tail) w variantId (by omega)
    (by rw [hlength]; exact hbuf)
  rw [hlength] at hadd
  have hatt : Dispatcher.Attested (Tpm.cryptoApiVerifySignature w.verifyStack Tpm.tpmSecretKey)
      (shared.commit (metadataOf variantId (registered k b tail))) variantId := by
    rw [attested_commit_iff _ (by omega), hlength, hram, digest_substitute hb]
  obtain ⟨arena, hcopy, hinj⟩ := Dispatcher.injection_of_attested
    (s := { s with shared := shared.commit (metadataOf variantId (registered k b tail)) }) hatt
  refine ⟨_, arena, hadd, hinj, ?_, registered_ne_substitute.symm⟩
  rw [Region.first_of_memcpy hcopy hfit]
  exact hram

/-- `41 00 C3` registered, `3F 81 C3` injected. -/
theorem substitute_is_injected_ret :
    ∃ shared' arena,
      zeroWorld.addVariant 1 (Int32.ofNat 3)
        ⟨.ofList [0x3F, 0x81, 0xC3], .ofList [0x41, 0x00, 0xC3], ⟨0, 0, 0⟩, []⟩ = some shared' ∧
      Dispatcher.executeSecureRuntimeInjection
          (Tpm.cryptoApiVerifySignature zeroWorld.verifyStack Tpm.tpmSecretKey)
          { Dispatcher.boot with shared := shared' } 1 =
        (Dispatcher.State.install { Dispatcher.boot with shared := shared' } arena 1,
          .injected 1) := by
  obtain ⟨shared', arena, hadd, hinj, -, -⟩ := @substitute_is_injected 0 0 [0xC3]
    ⟨.ofList [0x3F, 0x81, 0xC3], .ofList [0x41, 0x00, 0xC3], ⟨0, 0, 0⟩, []⟩ zeroWorld
    Dispatcher.boot 1 (by decide) (by decide) (by decide) (by decide)
  exact ⟨shared', arena, hadd, hinj⟩

end HkSystem
