import HkSystem.Dispatcher.Supplies
import HkSystem.Generator.Csprng
import HkSystem.Generator.Execution
/-!
# End to end

With every component as coded, a transaction cannot fail. The engine puts
the same bytes over the front of both buffers; the Repository signs the hash
of `gen_buf` and the Dispatcher verifies the hash of `guest_ram`, over the
same length; so the fTPM compares a signature with itself. The 4096 bytes
copied start with the variant, and the Worker runs the variant and never
reaches what lies behind it.
-/

namespace HkSystem

open Generator (Csprng Draw)

variable {w : World} {shared : Shared} {bytes : List UInt8} {variantId : Int32}

/-! ## The Repository and the fTPM -/

/-- **Registering a variant signs its bytes.** -/
theorem addVariant_eq (w : World) (variantId : Int32) (shared : Shared)
    (h : bytes.length ≤ 16777216) :
    w.addVariant variantId (Int32.ofNat bytes.length) (shared.withPayload bytes) =
      some ((shared.withPayload bytes).commit (metadataOf variantId bytes)) :=
  addVariant_of_first w variantId h (shared.first_withPayload h).2

/-- **What was registered is attested.** -/
theorem attested_registered (w : World) (variantId : Int32) (shared : Shared)
    (h : bytes.length ≤ 16777216) :
    Dispatcher.Attested (Tpm.cryptoApiVerifySignature w.verifyStack Tpm.tpmSecretKey)
      ((shared.withPayload bytes).commit (metadataOf variantId bytes)) variantId := by
  rw [attested_commit_iff _ h, (shared.first_withPayload h).1]

/-! ## The Worker -/

/-- The arena, mapped, is code at its base. -/
theorem codeAt_mapArena {arena : Region 4096} (base : UInt64) (c : X86.Cpu)
    (hlen : bytes.length ≤ 4096) (hfirst : arena.first bytes.length = bytes) :
    X86.CodeAt { c with rip := base, mem := mapArena base arena c.mem } bytes := by
  intro i hi
  have hoff : (base + UInt64.ofNat i - base).toNat = i := by
    have hcancel : base + UInt64.ofNat i - base = UInt64.ofNat i := by grind
    rw [hcancel, UInt64.toNat_ofNat_of_lt' (lt_trans (show i < 4096 by omega) (by decide))]
  change some ((arena.get? (base + UInt64.ofNat i - base).toNat).getD _) = bytes[i]?
  rw [hoff, ← (Region.first_eq_iff hlen).1 hfirst i hi, Region.get?_of_lt (by omega),
    Option.getD_some]

/-- **A variant at the start of the arena returns `0xDEADBEEF`.** -/
theorem jitTask_variant (w : World) {arena : Region 4096} {d : Draw} (hlen : d.encode.length ≤ 4096)
    (hfirst : arena.first d.encode.length = d.encode) (hfuel : d.junk.length + 4 ≤ w.fuel) :
    w.jitTask arena = some 0xDEADBEEF := by
  obtain ⟨c', hcall, hax, -⟩ :=
    Generator.call_variant d (codeAt_mapArena w.base w.cpu hlen hfirst) hfuel
  rw [World.jitTask, hcall, Option.map_some, hax]

/-! ## The transaction -/

/-- **Synthesis returns**, with the variant drawn at the front of both buffers
and registered. -/
theorem requestGeneration_eq (w : World) {c : Csprng} (hindex : c.chachaIndex ≤ 16)
    (baseAddr : UInt64) (variantId complexity : Int32) (shared : Shared) :
    ∃ d c', Generator.draw (Generator.requestSecureRandom w.rdtsc) c = some (d, c') ∧
      c'.chachaIndex ≤ 16 ∧
      w.requestGeneration c baseAddr variantId complexity shared =
        some (c', (shared.withPayload d.encode).commit (metadataOf variantId d.encode)) := by
  obtain ⟨d, c', hdraw, hindex'⟩ := Generator.draw_isSome
    (fun c hc => Generator.requestSecureRandom_isSome w.rdtsc hc) hindex
  have hlen := Generator.draw_length hdraw
  have hadd := addVariant_eq w variantId shared (show d.encode.length ≤ 16777216 by omega)
  refine ⟨d, c', hdraw, hindex', ?_⟩
  rw [World.requestGeneration, Generator.genApiRequestGeneration_eq, hdraw, Option.bind_some, hadd,
    Option.map_some]

/-- A transaction that swapped in the payload and ran it. -/
structure Swapped (s : Dispatcher.State) (payload : List UInt8)
    (result : Dispatcher.State × Dispatcher.Report) : Prop where
  /-- The id check and the attestation passed. -/
  injected : result.2.outcome = some (.injected (s.totalMutationsCount + 1))
  guestRam : result.1.shared.guestRam.first payload.length = payload
  genBuf : result.1.shared.genBuf.first payload.length = payload
  arena : result.1.workerArena.first payload.length = payload
  metadata : result.1.shared.secureStorage = metadataOf (s.totalMutationsCount + 1) payload
  active : result.1.currentActiveVariant.toInt = s.totalMutationsCount.toInt + 1
  total : result.1.totalMutationsCount.toInt = s.totalMutationsCount.toInt + 1
  /-- The Worker was told to execute, jumped into that arena, and came back. -/
  command : result.2.command = some (1, 0)
  jump : result.2.jump = some result.1.workerArena
  status : result.2.status = some (0xDEADBEEF : UInt32).toInt32
  serving : result.1.halted = false

/-- The transaction, from the variant drawn and the metadata the Repository
commits for it. -/
theorem swapped_of_registered (w : World) (s : Dispatcher.State) {c c' : Csprng} {d : Draw}
    (hdraw : Generator.draw (Generator.requestSecureRandom w.rdtsc) c = some (d, c'))
    (hgen : w.requestGeneration c 0x1000 (s.totalMutationsCount + 1) 5 s.shared =
      some (c', (s.shared.withPayload d.encode).commit
        (metadataOf (s.totalMutationsCount + 1) d.encode)))
    (htotal : s.totalMutationsCount.toInt < 2 ^ 31 - 1) (hfuel : 33 ≤ w.fuel) :
    Swapped s d.encode (Dispatcher.adminApiForceMutation (w.env c) s) ∧
      (Dispatcher.adminApiForceMutation (w.env c) s).1.shared =
        (s.shared.withPayload d.encode).commit
          (metadataOf (s.totalMutationsCount + 1) d.encode) := by
  have hlen := Generator.draw_length hdraw
  have hjunk := Generator.draw_junk_length hdraw
  have henv : (w.env c).requestGeneration 0x1000 (s.totalMutationsCount + 1) 5 s.shared =
      some ((s.shared.withPayload d.encode).commit
        (metadataOf (s.totalMutationsCount + 1) d.encode)) := by
    change (w.requestGeneration c 0x1000 (s.totalMutationsCount + 1) 5 s.shared).map Prod.snd = _
    rw [hgen, Option.map_some]
  -- the Dispatcher finds what the Repository signed
  have hatt := attested_registered w (s.totalMutationsCount + 1) s.shared
    (show d.encode.length ≤ 16777216 by omega)
  obtain ⟨arena, hcopy, hcycle⟩ := Dispatcher.cycle_of_attested (w.env c) henv hatt
  obtain ⟨hram, hbuf⟩ := s.shared.first_withPayload
    (show d.encode.length ≤ 16777216 by omega)
  have harena : arena.first d.encode.length = d.encode :=
    (Region.first_of_memcpy hcopy (by omega)).trans hram
  -- and the Worker finds what the Dispatcher copied
  have hjit : (w.env c).jitTask arena = some 0xDEADBEEF :=
    jitTask_variant w (by omega) harena (by omega)
  have hnext := Words.toInt_add_one htotal
  rw [hcycle, hjit]
  exact ⟨⟨rfl, hram, hbuf, harena, rfl, hnext, hnext, rfl, rfl, rfl, rfl⟩, rfl⟩

/-- **End-to-end success from any state.** Whatever the buffers, the metadata
and the arena hold, wherever the random source stands and whatever it draws,
one transaction injects the next variant and runs it, and leaves the random
source where the next one can draw. -/
theorem forceMutation_succeeds (w : World) (s : Dispatcher.State) (c : Csprng)
    (hindex : c.chachaIndex ≤ 16) (htotal : s.totalMutationsCount.toInt < 2 ^ 31 - 1)
    (hfuel : 33 ≤ w.fuel) :
    ∃ d c', Generator.draw (Generator.requestSecureRandom w.rdtsc) c = some (d, c') ∧
      c'.chachaIndex ≤ 16 ∧
      w.requestGeneration c 0x1000 (s.totalMutationsCount + 1) 5 s.shared =
        some (c', (Dispatcher.adminApiForceMutation (w.env c) s).1.shared) ∧
      Swapped s d.encode (Dispatcher.adminApiForceMutation (w.env c) s) := by
  obtain ⟨d, c', hdraw, hindex', hgen⟩ :=
    requestGeneration_eq w hindex 0x1000 (s.totalMutationsCount + 1) 5 s.shared
  obtain ⟨hswap, hshared⟩ := swapped_of_registered w s hdraw hgen htotal hfuel
  exact ⟨d, c', hdraw, hindex', by rw [hgen, hshared], hswap⟩

/-- From boot, with a processor whose registers and memory are all zero. -/
theorem forceMutation_boot :
    (Dispatcher.adminApiForceMutation
      (World.env ⟨fun _ => (0, 0), ⟨.zero, 0, 0, Fips180.initialHash⟩,
        ⟨.zero, 0, 0, Fips180.initialHash⟩,
        ⟨0, fun _ => 0, ⟨false, false, false, false, false, false⟩, fun _ => 0⟩, 0x1000, 33⟩
        Csprng.boot) Dispatcher.boot).2.status = some (0xDEADBEEF : UInt32).toInt32 := by
  obtain ⟨d, c', -, -, -, hswap⟩ := forceMutation_succeeds
    ⟨fun _ => (0, 0), ⟨.zero, 0, 0, Fips180.initialHash⟩, ⟨.zero, 0, 0, Fips180.initialHash⟩,
      ⟨0, fun _ => 0, ⟨false, false, false, false, false, false⟩, fun _ => 0⟩, 0x1000, 33⟩
    Dispatcher.boot Csprng.boot (by decide) (by decide) (by decide)
  exact hswap.status

end HkSystem
