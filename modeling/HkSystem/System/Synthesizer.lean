import HkSystem.Common.Fallible
import HkSystem.Dispatcher.Freshness
import HkSystem.System.HandOff
/-!
# The system with the LLVM synthesizer

`lib.rs` in the place of `generator.c`: it fills `gen_buf` and registers the object,
but has no `guest_ram`, which the Dispatcher hashes and copies from. So over any run
nothing LLVM emits gets to the Worker (`object_never_runs`); and as the payload it
hashes is zeros, every transaction is refused and the next one asks for the same
variant again (`synthesizer_never_advances`).
-/

namespace HkSystem

namespace Llvm

variable {ι : Type} {llvm : Api ι} {workerBitcode : List UInt8} {genBufIsNull : Bool}

/-! ## The transactions -/

/-- What the components find outside the system in a transaction. -/
structure Surroundings where
  signStack : Tpm.Sha256Ctx
  verifyStack : Tpm.Sha256Ctx
  /-- What the Worker's arena does when it is called. -/
  jitTask : Region 4096 → Option UInt32

/-- The Dispatcher's calls, with `lib.rs` for the Generator. -/
def env (llvm : Api ι) (workerBitcode : List UInt8) (genBufIsNull : Bool) (w : Surroundings) :
    Dispatcher.Env where
  requestGeneration := genApiRequestGeneration llvm workerBitcode
    (Repository.repoWriteApiAddVariant (Tpm.cryptoApiSignData w.signStack Tpm.tpmSecretKey))
    genBufIsNull
  verifySignature := Tpm.cryptoApiVerifySignature w.verifyStack Tpm.tpmSecretKey
  jitTask := w.jitTask

/-- One `admin_api_force_mutation`. -/
def step (llvm : Api ι) (workerBitcode : List UInt8) (genBufIsNull : Bool) (s : Dispatcher.State)
    (w : Surroundings) : Dispatcher.State × Dispatcher.Answer :=
  if s.halted then (s, .unserved)
  else
    let (s, report) :=
      Dispatcher.adminApiForceMutation (env llvm workerBitcode genBufIsNull w) s
    (s, .cycle report)

def system (llvm : Api ι) (workerBitcode : List UInt8) (genBufIsNull : Bool) :
    Machine Dispatcher.State Surroundings Dispatcher.Answer :=
  ⟨step llvm workerBitcode genBufIsNull⟩

/-- A transaction that was served is the Dispatcher's. -/
theorem cycle_of_answer {s : Dispatcher.State} {w : Surroundings} {report : Dispatcher.Report}
    (h : ((system llvm workerBitcode genBufIsNull).step s w).2 = .cycle report) :
    (Dispatcher.adminApiForceMutation (env llvm workerBitcode genBufIsNull w) s).2 = report := by
  change (step llvm workerBitcode genBufIsNull s w).2 = .cycle report at h
  unfold step at h
  split at h
  · cases h
  · exact Dispatcher.Answer.cycle.inj h

theorem answer_of_serving {s : Dispatcher.State} {w : Surroundings} (h : s.halted = false) :
    ((system llvm workerBitcode genBufIsNull).event s w).answer =
      .cycle (Dispatcher.adminApiForceMutation (env llvm workerBitcode genBufIsNull w) s).2 := by
  change (step llvm workerBitcode genBufIsNull s w).2 = _
  rw [step, if_neg (by rw [h]; decide)]

/-- What is registered for an object. -/
def objectMetadata (variantId : Int32) (objBytes : List UInt8) : Metadata :=
  ⟨variantId.toUInt32, (Int32.ofNat (min objBytes.length 16777216)).toUInt32,
    Tpm.signatureOf Tpm.tpmSecretKey (OneAtATime.digest (objBytes.take 16777216))⟩

/-- **What a call of `lib.rs` does**: nothing without `gen_buf`, and otherwise the object
is put there and registered. -/
theorem request_cases {w : Surroundings} {baseAddr : UInt64} {variantId complexity : Int32}
    {shared after : Shared}
    (h : (env llvm workerBitcode genBufIsNull w).requestGeneration baseAddr variantId complexity
      shared = some after) :
    after = shared ∨ ∃ objBytes genBuf, synthesize llvm workerBitcode variantId = some objBytes ∧
      after = Shared.commit { shared with genBuf := genBuf }
        (objectMetadata variantId objBytes) := by
  simp only [env, genApiRequestGeneration] at h
  obtain ⟨objBytes, hobj, h⟩ := Option.bind_eq_some_iff.1 h
  cases genBufIsNull with
  | true => exact .inl (Option.some.inj h).symm
  | false =>
    obtain ⟨genBuf, hcopy, h⟩ := Option.bind_eq_some_iff.1 h
    have hbuf : genBuf.first (min objBytes.length 16777216) = objBytes.take 16777216 := by
      rw [Region.first_of_memcpy hcopy le_rfl, ← Region.take_first (Nat.min_le_left ..) (by omega),
        Region.first_ofList le_rfl, Nat.min_comm, ← List.take_eq_take_min]
    have hsize := Words.toNat_sizeT_ofNat (show min objBytes.length 16777216 < 2 ^ 31 by omega)
    rw [Repository.repoWriteApiAddVariant_ftpm _ _ (by omega), hsize] at h
    refine .inr ⟨objBytes, genBuf, hobj, ?_⟩
    rw [objectMetadata, ← hbuf]
    exact (Option.some.inj h).symm

/-! ## Nothing of the object runs -/

/-- `guest_ram` and the arena are as at boot. -/
structure Blank (s : Dispatcher.State) : Prop where
  guestRam : s.shared.guestRam = .zero
  workerArena : s.workerArena = .zero

theorem memcpy_zero {arena : Region 4096}
    (h : Region.memcpy (.zero : Region 4096) (.zero : Region 67108864) 4096 = some arena) :
    arena = .zero := by
  refine Region.ext_get? fun i hi => ?_
  rw [Region.get?_of_memcpy h, if_pos hi, Region.get?_of_lt (by omega), Region.get?_of_lt hi]
  rfl

/-- **A transaction keeps them blank**, and the Worker jumps into zeros if it does. -/
theorem Blank.cycle {s : Dispatcher.State} (h : Blank s) (w : Surroundings) :
    Blank (Dispatcher.adminApiForceMutation (env llvm workerBitcode genBufIsNull w) s).1 ∧
      ∀ arena, (Dispatcher.adminApiForceMutation (env llvm workerBitcode genBufIsNull w) s).2.jump
        = some arena → arena = .zero := by
  rcases hgen : (env llvm workerBitcode genBufIsNull w).requestGeneration 0x1000
    (s.totalMutationsCount + 1) 5 s.shared with _ | shared
  · rw [Dispatcher.cycle_of_lost _ hgen]
    exact ⟨⟨h.guestRam, h.workerArena⟩, nofun⟩
  have hram : shared.guestRam = .zero := by
    rcases request_cases hgen with rfl | ⟨objBytes, genBuf, -, rfl⟩
    · exact h.guestRam
    · exact h.guestRam
  by_cases hatt : Dispatcher.Attested (env llvm workerBitcode genBufIsNull w).verifySignature shared
      (s.totalMutationsCount + 1)
  · obtain ⟨arena, hcopy, hcycle⟩ := Dispatcher.cycle_of_attested _ hgen hatt
    rw [h.workerArena, hram] at hcopy
    obtain rfl := memcpy_zero hcopy
    rw [hcycle]
    exact ⟨⟨hram, rfl⟩, fun _ harena => (Option.some.inj harena).symm⟩
  · by_cases hstuck : Dispatcher.Stuck (env llvm workerBitcode genBufIsNull w).verifySignature
        shared (s.totalMutationsCount + 1)
    · rw [Dispatcher.cycle_of_stuck _ hgen hstuck]
      exact ⟨⟨hram, h.workerArena⟩, nofun⟩
    · obtain ⟨outcome, -, -, hcycle⟩ := Dispatcher.cycle_of_refused _ hgen hatt hstuck
      rw [hcycle]
      refine ⟨⟨hram, h.workerArena⟩, fun _ harena => ?_⟩
      rw [← Option.some.inj harena, h.workerArena]

theorem Blank.step {s : Dispatcher.State} (h : Blank s) (w : Surroundings) :
    Blank ((system llvm workerBitcode genBufIsNull).step s w).1 := by
  change Blank (Llvm.step llvm workerBitcode genBufIsNull s w).1
  unfold Llvm.step
  split
  · exact h
  · exact (h.cycle w).1

/-- **Nothing LLVM emits ever runs.** In every run of transactions with `lib.rs`, with
whatever LLVM returns and whatever the fTPM answers, the arena and `guest_ram` are
as they were at boot, and every jump of the Worker is into zeros. -/
theorem object_never_runs (llvm : Api ι) (workerBitcode : List UInt8) (genBufIsNull : Bool)
    (ws : List Surroundings) :
    ∀ e ∈ (system llvm workerBitcode genBufIsNull).history Dispatcher.boot ws,
      Blank e.post ∧
        ∀ report, e.answer = .cycle report → ∀ arena, report.jump = some arena → arena = .zero := by
  intro e he
  obtain ⟨hpre, hpost⟩ := @Machine.inv_of_mem _ _ _ _ _ _ _ Blank ⟨rfl, rfl⟩
    (fun s w h => Blank.step h w) he
  refine ⟨hpost, fun report hreport => ?_⟩
  rw [(Machine.step_of_mem he).1] at hreport
  obtain rfl := cycle_of_answer hreport
  exact (hpre.cycle e.call).2

/-! ## Every transaction is refused -/

/-- The fTPM tells the object from zeros: what it signs for the object is not what it
would sign for the hash of zeros, which is 0 for any number of them. -/
def Distinguished (llvm : Api ι) (workerBitcode : List UInt8) : Prop :=
  ∀ objBytes, synthesize llvm workerBitcode 1 = some objBytes →
    Tpm.signatureOf Tpm.tpmSecretKey (OneAtATime.digest (objBytes.take 16777216)) ≠
      Tpm.signatureOf Tpm.tpmSecretKey 0

/-- The first variant has been asked for, however often, and nothing more has happened. -/
structure Waiting (llvm : Api ι) (workerBitcode : List UInt8) (s : Dispatcher.State) : Prop
    extends Blank s where
  total : s.totalMutationsCount = 0
  active : s.currentActiveVariant = 0
  registrations : ∀ metadata ∈ s.shared.registrations,
    ∃ objBytes, synthesize llvm workerBitcode 1 = some objBytes ∧
      metadata = objectMetadata 1 objBytes
  stored : s.shared.secureStorage = ⟨0, 0, 0⟩ ∨
    s.shared.secureStorage ∈ s.shared.registrations

theorem waiting_boot (llvm : Api ι) (workerBitcode : List UInt8) :
    Waiting llvm workerBitcode Dispatcher.boot :=
  ⟨⟨rfl, rfl⟩, rfl, rfl, by simp [Dispatcher.boot], .inl rfl⟩

theorem digest_first_zero {n k : ℕ} (h : k ≤ n) :
    OneAtATime.digest ((.zero : Region n).first k) = 0 := by
  rw [Region.first_of_zero h, OneAtATime.digest, OneAtATime.foldl_mix_zeros]
  decide

/-- What is stored is not attested. -/
theorem Waiting.not_attested {s : Dispatcher.State} (h : Waiting llvm workerBitcode s)
    (hmac : Distinguished llvm workerBitcode) (ctx : Tpm.Sha256Ctx) :
    ¬ Dispatcher.Attested (Tpm.cryptoApiVerifySignature ctx Tpm.tpmSecretKey) s.shared 1 := by
  intro hatt
  obtain ⟨hvid, hfit, hsignature⟩ := (Dispatcher.attested_iff ctx Tpm.tpmSecretKey).1 hatt
  rcases h.stored with hzero | hmem
  -- the metadata of boot is of variant 0
  · rw [hzero] at hvid
    exact absurd hvid (by decide)
  · obtain ⟨objBytes, hobj, hstored⟩ := h.registrations _ hmem
    rw [h.guestRam, digest_first_zero hfit, hstored] at hsignature
    exact hmac objBytes hobj hsignature

/-- A request for the first variant keeps to it. -/
theorem Waiting.request {s : Dispatcher.State} (h : Waiting llvm workerBitcode s) {w : Surroundings}
    {baseAddr : UInt64} {complexity : Int32} {shared : Shared}
    (hgen : (env llvm workerBitcode genBufIsNull w).requestGeneration baseAddr 1 complexity
      s.shared = some shared) :
    Waiting llvm workerBitcode { s with shared := shared } := by
  rcases request_cases hgen with rfl | ⟨objBytes, genBuf, hobj, rfl⟩
  · exact h
  · refine ⟨⟨h.guestRam, h.workerArena⟩, h.total, h.active, fun metadata hmem => ?_, .inr ?_⟩
    · rcases List.mem_append.1 hmem with hmem | hmem
      · exact h.registrations metadata hmem
      · exact ⟨objBytes, hobj, List.mem_singleton.1 hmem⟩
    · exact List.mem_append_right _ (List.mem_singleton.2 rfl)

/-- **A transaction is refused**, and the next one will be for the same variant. -/
theorem Waiting.cycle {s : Dispatcher.State} (h : Waiting llvm workerBitcode s)
    (hmac : Distinguished llvm workerBitcode) (w : Surroundings) :
    Waiting llvm workerBitcode
        (Dispatcher.adminApiForceMutation (env llvm workerBitcode genBufIsNull w) s).1 ∧
      ∀ id, (Dispatcher.adminApiForceMutation (env llvm workerBitcode genBufIsNull w)
        s).2.outcome ≠ some (.injected id) := by
  have hnext : s.totalMutationsCount + 1 = 1 := by
    rw [h.total]
    rfl
  rcases hgen : (env llvm workerBitcode genBufIsNull w).requestGeneration 0x1000
    (s.totalMutationsCount + 1) 5 s.shared with _ | shared
  · rw [Dispatcher.cycle_of_lost _ hgen]
    exact ⟨⟨⟨h.guestRam, h.workerArena⟩, h.total, h.active, h.registrations, h.stored⟩, nofun⟩
  have hshared : Waiting llvm workerBitcode { s with shared := shared } :=
    h.request (hnext ▸ hgen)
  have hatt : ¬ Dispatcher.Attested (env llvm workerBitcode genBufIsNull w).verifySignature shared
      (s.totalMutationsCount + 1) := by
    rw [hnext]
    exact hshared.not_attested hmac w.verifyStack
  have hsame : ∀ halted, Waiting llvm workerBitcode { s with shared := shared, halted := halted } :=
    fun _ => ⟨⟨hshared.guestRam, hshared.workerArena⟩, h.total, h.active, hshared.registrations,
      hshared.stored⟩
  by_cases hstuck : Dispatcher.Stuck (env llvm workerBitcode genBufIsNull w).verifySignature shared
      (s.totalMutationsCount + 1)
  · rw [Dispatcher.cycle_of_stuck _ hgen hstuck]
    exact ⟨hsame true, nofun⟩
  · obtain ⟨outcome, -, hne, hcycle⟩ := Dispatcher.cycle_of_refused _ hgen hatt hstuck
    rw [hcycle]
    exact ⟨hsame _, fun id heq => hne id (Option.some.inj heq)⟩

theorem Waiting.step {s : Dispatcher.State} (h : Waiting llvm workerBitcode s)
    (hmac : Distinguished llvm workerBitcode) (w : Surroundings) :
    Waiting llvm workerBitcode ((system llvm workerBitcode genBufIsNull).step s w).1 := by
  change Waiting llvm workerBitcode (Llvm.step llvm workerBitcode genBufIsNull s w).1
  unfold Llvm.step
  split
  · exact h
  · exact (h.cycle hmac w).1

/-- **The system does not get past its first variant.** With `lib.rs`, if the fTPM tells
the object from zeros, then in every run no transaction injects, the counters stay
zero, and whatever is registered is the one object of variant 1. -/
theorem synthesizer_never_advances (llvm : Api ι) (workerBitcode : List UInt8) (genBufIsNull : Bool)
    (hmac : Distinguished llvm workerBitcode) (ws : List Surroundings) :
    ∀ e ∈ (system llvm workerBitcode genBufIsNull).history Dispatcher.boot ws,
      (∀ report, e.answer = .cycle report → ∀ id, report.outcome ≠ some (.injected id)) ∧
        e.post.totalMutationsCount = 0 ∧ e.post.currentActiveVariant = 0 ∧
        ∀ metadata ∈ e.post.shared.registrations, ∃ objBytes,
          synthesize llvm workerBitcode 1 = some objBytes ∧
            metadata = objectMetadata 1 objBytes := by
  intro e he
  obtain ⟨hpre, hpost⟩ := @Machine.inv_of_mem _ _ _ _ _ _ _ (Waiting llvm workerBitcode)
    (waiting_boot llvm workerBitcode) (fun s w h => Waiting.step h hmac w) he
  refine ⟨fun report hreport => ?_, hpost.total, hpost.active, hpost.registrations⟩
  rw [(Machine.step_of_mem he).1] at hreport
  obtain rfl := cycle_of_answer hreport
  exact (hpre.cycle hmac e.call).2

/-- An LLVM that returns `RET` for every module: the fTPM tells it from zeros. -/
theorem distinguished_ret : Distinguished retObject [] := by
  intro objBytes hobj
  obtain rfl : [0xC3] = objBytes := Option.some.inj hobj
  have hret : Tpm.signatureOf Tpm.tpmSecretKey (OneAtATime.digest ([0xC3].take 16777216)) =
      0x7ccca065 :=
    Tpm.signatureOf_eq ⟨.zero, 0, 0, Fips180.initialHash⟩ (by decide +kernel)
  have hzero : Tpm.signatureOf Tpm.tpmSecretKey 0 = 0xdc6aca1c :=
    Tpm.signatureOf_eq ⟨.zero, 0, 0, Fips180.initialHash⟩ (by decide +kernel)
  rw [hret, hzero]
  decide

/-- A world of zeros, with the Worker on the processor. -/
def zeroSurroundings : Surroundings :=
  ⟨zeroWorld.signStack, zeroWorld.verifyStack, zeroWorld.jitTask⟩

/-- With that LLVM the first transaction makes the Worker jump into the zeroed arena, from
which it does not come back. -/
theorem lost_ret :
    ∃ report, ((system retObject [] false).event Dispatcher.boot zeroSurroundings).answer =
      .cycle report ∧ report.jump = some .zero ∧ report.status = none := by
  have hobj : synthesize retObject [] 1 = some [0xC3] := rfl
  obtain ⟨shared, hcall, -⟩ := llvm_handsOff_iff zeroWorld.signStack Tpm.tpmSecretKey retObject []
    false 0x1000 1 5 Dispatcher.boot.shared hobj
  have hgen : (env retObject [] false zeroSurroundings).requestGeneration 0x1000 1 5
      Dispatcher.boot.shared = some shared := hcall
  have hshared := (waiting_boot retObject []).request hgen
  have hatt := hshared.not_attested distinguished_ret zeroWorld.verifyStack
  have hstuck : ¬ Dispatcher.Stuck (Tpm.cryptoApiVerifySignature zeroWorld.verifyStack
      Tpm.tpmSecretKey) shared 1 := by
    intro hstuck
    obtain ⟨hvid, hlong⟩ := (Dispatcher.stuck_iff _ _).1 hstuck
    rcases hshared.stored with hzero | hmem
    · rw [hzero] at hvid
      exact absurd hvid (by decide)
    · obtain ⟨objBytes, hobj', hstored⟩ := hshared.registrations _ hmem
      obtain rfl := Option.some.inj (hobj.symm.trans hobj')
      change 67108864 < shared.secureStorage.payloadLen at hlong
      rw [show shared.secureStorage = _ from hstored, objectMetadata,
        Repository.payloadLen_committed] at hlong
      exact absurd hlong (by decide)
  obtain ⟨outcome, -, -, hcycle⟩ := Dispatcher.cycle_of_refused
    (env retObject [] false zeroSurroundings) hgen hatt hstuck
  have hjit : zeroWorld.jitTask .zero = none := by decide +kernel
  refine ⟨_, answer_of_serving rfl, ?_⟩
  rw [hcycle]
  exact ⟨rfl, congrArg (Option.map UInt32.toInt32) hjit⟩

theorem object_never_runs_ret :
    (∃ report, ((system retObject [] false).event Dispatcher.boot zeroSurroundings).answer =
      .cycle report ∧ report.jump = some .zero ∧ report.status = none) ∧
    ((system retObject [] false).event Dispatcher.boot zeroSurroundings).post.workerArena =
      .zero :=
  ⟨lost_ret, (object_never_runs retObject [] false [zeroSurroundings] _
    (List.mem_cons_self ..)).1.workerArena⟩

theorem synthesizer_never_advances_ret :
    ((system retObject [] false).event Dispatcher.boot
      zeroSurroundings).post.totalMutationsCount = 0 :=
  (synthesizer_never_advances retObject [] false distinguished_ret [zeroSurroundings] _
    (List.mem_cons_self ..)).2.1

/-! ## What a variant id changes -/

section Diversity

/-- The insertion, where the builder returned these instructions. -/
def insertFront (obfJunk : List ι) : List ι → List ι
  | [] => []
  | first :: rest => obfJunk ++ first :: rest

/-- No block of the module has an instruction. -/
def Module.Empty (module : Module ι) : Prop :=
  ∀ blocks ∈ module.functions, ∀ block ∈ blocks, block = []

variable {variantId variantId' : Int32} {module : Module ι}

/-- A builder that returns what it inserts. -/
theorem mutate_of_some {obfJunk : List ι}
    (h : llvm.buildIntAdd variantId.toUInt32 0 = some obfJunk) :
    mutate llvm variantId module =
      some ⟨module.functions.map fun blocks => blocks.map (insertFront obfJunk)⟩ := by
  have hblock : ∀ block : List ι, mutateBlock llvm variantId block =
      some (insertFront obfJunk block) := by
    rintro (_ | ⟨first, rest⟩)
    · rfl
    · rw [mutateBlock, h]
      rfl
  have hfunction : ∀ blocks : List (List ι),
      (if blocks.length = 0 then some blocks else blocks.mapM (mutateBlock llvm variantId)) =
        some (blocks.map (insertFront obfJunk)) := by
    intro blocks
    split
    next hlen => rw [List.eq_nil_of_length_eq_zero hlen]; rfl
    · exact Fallible.mapM_of_forall fun block _ => hblock block
  rw [mutate, Fallible.mapM_of_forall fun blocks _ => hfunction blocks]
  rfl

theorem mutate_of_empty (h : module.Empty) : mutate llvm variantId module = some module := by
  have hfunction : ∀ blocks ∈ module.functions,
      (if blocks.length = 0 then some blocks else blocks.mapM (mutateBlock llvm variantId)) =
        some blocks := by
    intro blocks hblocks
    split
    · rfl
    · conv_rhs => rw [← List.map_id blocks]
      refine Fallible.mapM_of_forall fun block hblock => ?_
      rw [h blocks hblocks block hblock]
      rfl
  rw [mutate, Fallible.mapM_of_forall hfunction]
  simp

/-- A builder that fails is unwrapped at the first block it is used for. -/
theorem mutate_of_none (h : llvm.buildIntAdd variantId.toUInt32 0 = none) (hne : ¬ module.Empty) :
    mutate llvm variantId module = none := by
  simp only [Module.Empty, not_forall] at hne
  obtain ⟨blocks, hblocks, block, hblock, hinst⟩ := hne
  have hfail : mutateBlock llvm variantId block = none := by
    rcases block with _ | ⟨first, rest⟩
    · exact absurd rfl hinst
    · rw [mutateBlock, h]
      rfl
  have hlen : blocks.length ≠ 0 := fun hlen => by
    rw [List.eq_nil_of_length_eq_zero hlen] at hblock
    cases hblock
  rw [mutate, Fallible.mapM_of_none hblocks]
  · rfl
  · rw [if_neg hlen, Fallible.mapM_of_none hblock hfail]

theorem insertFront_inj {j j' block : List ι} (hne : block ≠ [])
    (h : insertFront j block = insertFront j' block) : j = j' := by
  rcases block with _ | ⟨first, rest⟩
  · exact absurd rfl hne
  · exact List.append_cancel_right h

/-- **What a variant id changes.** Two ids give two modules exactly where there is an
instruction at all and the builder inserts different ones for them. A builder that
folds the sum of two constants inserts none, and then the object is that of the
module as it was parsed, whatever the id. -/
theorem mutate_eq_iff (llvm : Api ι) (workerBitcode : List UInt8) (module : Module ι)
    (variantId variantId' : Int32) :
    (mutate llvm variantId module = mutate llvm variantId' module ↔
        module.Empty ∨
          llvm.buildIntAdd variantId.toUInt32 0 = llvm.buildIntAdd variantId'.toUInt32 0) ∧
      ((∀ a b, llvm.buildIntAdd a b = some []) →
        synthesize llvm workerBitcode variantId =
          (llvm.parseBitcode workerBitcode).bind llvm.writeToMemoryBuffer) := by
  refine ⟨⟨fun h => ?_, ?_⟩, fun hfold => ?_⟩
  · by_cases hempty : module.Empty
    · exact .inl hempty
    refine .inr ?_
    rcases hj : llvm.buildIntAdd variantId.toUInt32 0 with _ | j <;>
      rcases hj' : llvm.buildIntAdd variantId'.toUInt32 0 with _ | j'
    · rfl
    · rw [mutate_of_none hj hempty, mutate_of_some hj'] at h
      cases h
    · rw [mutate_of_some hj, mutate_of_none hj' hempty] at h
      cases h
    · rw [mutate_of_some hj, mutate_of_some hj', Option.some.injEq, Module.mk.injEq] at h
      simp only [Module.Empty, not_forall] at hempty
      obtain ⟨blocks, hblocks, block, hblock, hinst⟩ := hempty
      rw [insertFront_inj hinst (List.map_inj_left.1 (List.map_inj_left.1 h blocks hblocks) block
        hblock)]
  · rintro (hempty | hsame)
    · rw [mutate_of_empty hempty, mutate_of_empty hempty]
    · rcases hj : llvm.buildIntAdd variantId.toUInt32 0 with _ | j
      · by_cases hempty : module.Empty
        · rw [mutate_of_empty hempty, mutate_of_empty hempty]
        · rw [mutate_of_none hj hempty, mutate_of_none (hsame ▸ hj) hempty]
      · rw [mutate_of_some hj, mutate_of_some (hsame ▸ hj)]
  · have hinsert : insertFront ([] : List ι) = id := by
      funext block
      rcases block with _ | ⟨first, rest⟩ <;> rfl
    rw [synthesize]
    refine congrArg _ (funext fun parsed => ?_)
    rw [mutate_of_some (hfold _ _), hinsert]
    simp

/-- Such a builder, and two ids. -/
theorem mutate_eq_iff_ret :
    mutate retObject 1 ⟨[[[()]]]⟩ = mutate retObject 2 ⟨[[[()]]]⟩ ∧
      synthesize retObject [] 1 = some [0xC3] :=
  ⟨(mutate_eq_iff retObject [] ⟨[[[()]]]⟩ 1 2).1.2 (.inr rfl),
    (mutate_eq_iff retObject [] ⟨[[[()]]]⟩ 1 2).2 fun _ _ => rfl⟩

end Diversity

end Llvm

end HkSystem
