import HkSystem.Dispatcher.Injection
import HkSystem.Dispatcher.Model.Interleaving
/-!
# Check and use

The Dispatcher fetches `guest_ram` twice, once to hash it and once to copy
it, and waits for the fTPM in between. `copies_attested` is what every
interleaving guarantees: before any copy there was a hash step, and the fTPM
accepted the hash it computed. Whether the bytes copied are the bytes hashed
is another matter. They are exactly when the payload fits the arena and the
Generator has left it alone since it was hashed.

With no store in between, the four steps are the injection as one call.
-/

namespace HkSystem

namespace Dispatcher

variable {verifySignature : UInt32 → UInt32 → Option Int32} {variantId : Int32} {s : State}
  {acts : List Act} {metadata : Metadata} {e : Event InFlight Act Unit}

/-- **Without stores in between, the four steps are the injection.** -/
theorem dispatch_four (verifySignature : UInt32 → UInt32 → Option Int32) (variantId : Int32)
    (s : State) :
    (interleaved verifySignature variantId).final ⟨s, .start⟩
        [.dispatch, .dispatch, .dispatch, .dispatch] =
      ⟨(executeSecureRuntimeInjection verifySignature s variantId).1,
        .done (executeSecureRuntimeInjection verifySignature s variantId).2⟩ := by
  simp only [Machine.final_cons, Machine.final_nil, interleaved]
  by_cases hvid : s.shared.secureStorage.vid.toInt32 = variantId
  · rcases hhash : computeIntegrityHash s.shared.guestRam
        (Words.sizeT s.shared.secureStorage.size.toInt32) with _ | localHash
    · simp [InFlight.advance, executeSecureRuntimeInjection, hvid, hhash]
    · rcases hverify : verifySignature localHash s.shared.secureStorage.signature with
        _ | isVerified
      · simp [InFlight.advance, executeSecureRuntimeInjection, hvid, hhash, hverify]
      · by_cases hzero : isVerified = 0
        · simp [InFlight.advance, executeSecureRuntimeInjection, hvid, hhash, hverify, hzero]
        · obtain ⟨arena, hcopy⟩ : ∃ arena, Region.memcpy s.workerArena s.shared.guestRam 4096 =
              some arena := Region.memcpy_isSome (by omega) (by omega)
          simp [InFlight.advance, executeSecureRuntimeInjection, hvid, hhash, hverify, hzero, hcopy]
  · simp [InFlight.advance, executeSecureRuntimeInjection, hvid]

/-! ## Hash steps and copy steps -/

theorem step_dispatch (f : InFlight) :
    (interleaved verifySignature variantId).step f .dispatch =
      (f.advance verifySignature variantId, ()) := rfl

theorem step_write (f : InFlight) (ram : Region 67108864) :
    (interleaved verifySignature variantId).step f (.write ram) =
      (⟨f.state.withRam ram, f.phase⟩, ()) := rfl

/-- The step that hashes `guest_ram` for the metadata it read. -/
def Hashes (e : Event InFlight Act Unit) (metadata : Metadata) : Prop :=
  e.call = .dispatch ∧ e.pre.phase = .checked metadata

/-- The step that copies `guest_ram` into the arena. -/
def Copies (e : Event InFlight Act Unit) : Prop :=
  e.call = .dispatch ∧ ∃ metadata localHash, e.pre.phase = .verified metadata localHash

/-- **No gap between check and use**: what a copy installs, up to the size of
the payload, is the byte string that was hashed. -/
def NoGap (history : List (Event InFlight Act Unit)) : Prop :=
  ∀ check ∈ history, ∀ use ∈ history, ∀ metadata, Hashes check metadata → Copies use →
    use.post.state.workerArena.first (min metadata.payloadLen 4096) =
      check.pre.ram.first metadata.payloadLen

/-- A copy installs what `guest_ram` holds at that moment. -/
theorem first_of_copies
    (h : e ∈ (interleaved verifySignature variantId).history ⟨s, .start⟩ acts) (huse : Copies e)
    {k : ℕ} (hk : k ≤ 4096) : e.post.state.workerArena.first k = e.pre.ram.first k := by
  obtain ⟨hcall, metadata, localHash, hphase⟩ := huse
  obtain ⟨-, hpost⟩ := Machine.step_of_mem h
  obtain ⟨arena, hcopy⟩ : ∃ arena, Region.memcpy e.pre.state.workerArena
      e.pre.state.shared.guestRam 4096 = some arena := Region.memcpy_isSome (by omega) (by omega)
  have harena : e.post.state.workerArena = arena := by
    rw [hpost, hcall]
    simp [interleaved, InFlight.advance, hphase, hcopy]
  rw [harena]
  exact Region.first_of_memcpy hcopy hk

/-! ## What every interleaving guarantees -/

/-- **What one step can do**: end the injection, or move it on by one phase. -/
theorem advance_cases (f : InFlight) :
    (∃ outcome, (f.advance verifySignature variantId).phase = .done outcome) ∨
    (∃ metadata, (f.advance verifySignature variantId).phase = .checked metadata) ∨
    (∃ metadata localHash, f.phase = .checked metadata ∧
      OneAtATime.hashLoop f.ram metadata.payloadLen = some localHash ∧
      (f.advance verifySignature variantId).phase = .hashed metadata localHash) ∨
    ∃ metadata localHash isVerified, f.phase = .hashed metadata localHash ∧
      verifySignature localHash metadata.signature = some isVerified ∧ isVerified ≠ 0 ∧
      (f.advance verifySignature variantId).phase = .verified metadata localHash := by
  unfold InFlight.advance
  rcases hphase : f.phase with _ | metadata | ⟨metadata, localHash⟩ | ⟨metadata, localHash⟩ | outcome
  · simp only
    split
    · exact Or.inl ⟨_, rfl⟩
    · exact Or.inr (Or.inl ⟨_, rfl⟩)
  · simp only
    split
    · exact Or.inl ⟨_, rfl⟩
    · next localHash hhash => exact Or.inr (Or.inr (Or.inl ⟨metadata, localHash, rfl, hhash, rfl⟩))
  · simp only
    split
    · exact Or.inl ⟨_, rfl⟩
    · next isVerified hverify =>
      split
      · next hne =>
        exact Or.inr (Or.inr (Or.inr ⟨metadata, localHash, isVerified, rfl, hverify, hne, rfl⟩))
      · exact Or.inl ⟨_, rfl⟩
  · simp only
    split
    · exact Or.inl ⟨_, rfl⟩
    · exact Or.inl ⟨_, rfl⟩
  · exact Or.inl ⟨outcome, hphase⟩

/-- Only hashing leads to a hash. -/
theorem checked_of_advance {f : InFlight} {localHash : UInt32}
    (h : (f.advance verifySignature variantId).phase = .hashed metadata localHash) :
    f.phase = .checked metadata ∧
      OneAtATime.hashLoop f.ram metadata.payloadLen = some localHash := by
  rcases @advance_cases verifySignature variantId f with ⟨_, hnext⟩ | ⟨_, hnext⟩ |
    ⟨_, _, hphase, hhash, hnext⟩ | ⟨_, _, _, -, -, -, hnext⟩
  · cases h.symm.trans hnext
  · cases h.symm.trans hnext
  · cases h.symm.trans hnext
    exact ⟨hphase, hhash⟩
  · cases h.symm.trans hnext

/-- Only an acceptance leads past the fTPM. -/
theorem hashed_of_advance {f : InFlight} {localHash : UInt32}
    (h : (f.advance verifySignature variantId).phase = .verified metadata localHash) :
    f.phase = .hashed metadata localHash ∧
      ∃ isVerified, verifySignature localHash metadata.signature = some isVerified ∧
        isVerified ≠ 0 := by
  rcases @advance_cases verifySignature variantId f with ⟨_, hnext⟩ | ⟨_, hnext⟩ |
    ⟨_, _, -, -, hnext⟩ | ⟨_, _, isVerified, hphase, hverify, hne, hnext⟩
  · cases h.symm.trans hnext
  · cases h.symm.trans hnext
  · cases h.symm.trans hnext
  · cases h.symm.trans hnext
    exact ⟨hphase, isVerified, hverify, hne⟩

/-- The locals of the injection come from a hash step of the history, and
past the fTPM's answer that answer was an acceptance. -/
structure Backed (verifySignature : UInt32 → UInt32 → Option Int32)
    (history : List (Event InFlight Act Unit)) (phase : Phase) : Prop where
  hashed : ∀ metadata localHash, phase = .hashed metadata localHash →
    ∃ check ∈ history, Hashes check metadata ∧
      OneAtATime.hashLoop check.pre.ram metadata.payloadLen = some localHash
  verified : ∀ metadata localHash, phase = .verified metadata localHash →
    ∃ check ∈ history, Hashes check metadata ∧
      OneAtATime.hashLoop check.pre.ram metadata.payloadLen = some localHash ∧
      ∃ isVerified, verifySignature localHash metadata.signature = some isVerified ∧
        isVerified ≠ 0

/-- One step, of either component. -/
theorem backed_step {history : List (Event InFlight Act Unit)} {f : InFlight}
    (h : Backed verifySignature history f.phase) (act : Act) :
    Backed verifySignature
      (history ++ [(interleaved verifySignature variantId).event f act])
      ((interleaved verifySignature variantId).step f act).1.phase := by
  rcases act with _ | ram
  · refine ⟨fun metadata localHash hphase => ?_, fun metadata localHash hphase => ?_⟩
    · obtain ⟨hchecked, hhash⟩ := checked_of_advance hphase
      exact ⟨_, List.mem_append_right _ (List.mem_singleton_self _), ⟨rfl, hchecked⟩, hhash⟩
    · obtain ⟨hhashed, haccept⟩ := hashed_of_advance hphase
      obtain ⟨check, hmem, hcheck, hhash⟩ := h.hashed metadata localHash hhashed
      exact ⟨check, List.mem_append_left _ hmem, hcheck, hhash, haccept⟩
  -- a store moves no local of the Dispatcher
  · refine ⟨fun metadata localHash hphase => ?_, fun metadata localHash hphase => ?_⟩
    · obtain ⟨check, hmem, hrest⟩ := h.hashed metadata localHash hphase
      exact ⟨check, List.mem_append_left _ hmem, hrest⟩
    · obtain ⟨check, hmem, hrest⟩ := h.verified metadata localHash hphase
      exact ⟨check, List.mem_append_left _ hmem, hrest⟩

/-- Any number of them. -/
theorem backed_run (verifySignature : UInt32 → UInt32 → Option Int32) (variantId : Int32)
    (s : State) (acts : List Act) :
    Backed verifySignature ((interleaved verifySignature variantId).history ⟨s, .start⟩ acts)
      ((interleaved verifySignature variantId).final ⟨s, .start⟩ acts).phase := by
  induction acts using List.reverseRecOn with
  | nil => exact ⟨fun _ _ h => (nomatch h), fun _ _ h => (nomatch h)⟩
  | append_singleton acts act ih =>
    rw [Machine.history_append, Machine.final_append]
    exact backed_step ih act

/-- **Before a copy, the fTPM accepted the hash of some hash step.** -/
theorem copies_attested
    (h : e ∈ (interleaved verifySignature variantId).history ⟨s, .start⟩ acts) (huse : Copies e) :
    ∃ check ∈ (interleaved verifySignature variantId).history ⟨s, .start⟩ acts,
      ∃ metadata localHash isVerified, Hashes check metadata ∧
        OneAtATime.hashLoop check.pre.ram metadata.payloadLen = some localHash ∧
        verifySignature localHash metadata.signature = some isVerified ∧ isVerified ≠ 0 := by
  obtain ⟨-, metadata, localHash, hphase⟩ := huse
  -- the copy is made in the state the acts before it lead to
  obtain ⟨xs, ys, hsplit, hpre, -⟩ := Machine.mem_history_iff.1 h
  have hbacked := backed_run verifySignature variantId s xs
  rw [← hpre] at hbacked
  obtain ⟨check, hmem, hcheck, hhash, isVerified, hverify, hne⟩ :=
    hbacked.verified metadata localHash hphase
  refine ⟨check, ?_, metadata, localHash, isVerified, hcheck, hhash, hverify, hne⟩
  exact Machine.mem_history_of_prefix ⟨_, hsplit.symm⟩ hmem

/-! ## The gap -/

/-- Hashed and installed bytes are the same exactly when the payload fits and
is still there. -/
theorem installed_eq_iff {check use : Event InFlight Act Unit}
    (h : use ∈ (interleaved verifySignature variantId).history ⟨s, .start⟩ acts)
    (huse : Copies use) :
    use.post.state.workerArena.first (min metadata.payloadLen 4096) =
        check.pre.ram.first metadata.payloadLen ↔
      metadata.payloadLen ≤ 4096 ∧
        use.pre.ram.first metadata.payloadLen = check.pre.ram.first metadata.payloadLen := by
  rw [first_of_copies h huse (min_le_right _ _)]
  constructor
  -- bytes beyond the arena cannot be installed, so the lengths bound the payload
  · intro hinst
    have hlen := congrArg List.length hinst
    rw [Region.length_first_eq_min, Region.length_first_eq_min] at hlen
    have hfit : metadata.payloadLen ≤ 4096 := by omega
    rw [min_eq_left hfit] at hinst
    exact ⟨hfit, hinst⟩
  · rintro ⟨hfit, hsame⟩
    rw [min_eq_left hfit, hsame]

/-- **A store between the hash and the copy is installed**: the fTPM is asked
about bytes that are no longer there. -/
theorem not_noGap_of_write {ram : Region 67108864}
    (hatt : Attested verifySignature s.shared variantId)
    (hdiff : ram.first s.shared.secureStorage.payloadLen ≠
      s.shared.guestRam.first s.shared.secureStorage.payloadLen) :
    ¬ NoGap ((interleaved verifySignature variantId).history ⟨s, .start⟩
      [.dispatch, .dispatch, .write ram, .dispatch, .dispatch]) := by
  obtain ⟨hvid, localHash, isVerified, hhash, hverify, hne⟩ := hatt
  -- the Dispatcher's first three steps, with the store before the third
  have hstart : InFlight.advance verifySignature variantId ⟨s, .start⟩ =
      ⟨s, .checked s.shared.secureStorage⟩ := by
    simp [InFlight.advance, hvid]
  have hcheck : InFlight.advance verifySignature variantId ⟨s, .checked s.shared.secureStorage⟩ =
      ⟨s, .hashed s.shared.secureStorage localHash⟩ := by
    have hloop : computeIntegrityHash s.shared.guestRam
        (Words.sizeT s.shared.secureStorage.size.toInt32) = some localHash := hhash
    simp [InFlight.advance, hloop]
  have hask : InFlight.advance verifySignature variantId
      ⟨s.withRam ram, .hashed s.shared.secureStorage localHash⟩ =
        ⟨s.withRam ram, .verified s.shared.secureStorage localHash⟩ := by
    simp [InFlight.advance, hverify, hne]
  have hhistory : (interleaved verifySignature variantId).history ⟨s, .start⟩
      [.dispatch, .dispatch, .write ram, .dispatch, .dispatch] =
        [(interleaved verifySignature variantId).event ⟨s, .start⟩ .dispatch,
          (interleaved verifySignature variantId).event ⟨s, .checked s.shared.secureStorage⟩
            .dispatch,
          (interleaved verifySignature variantId).event
            ⟨s, .hashed s.shared.secureStorage localHash⟩ (.write ram),
          (interleaved verifySignature variantId).event
            ⟨s.withRam ram, .hashed s.shared.secureStorage localHash⟩ .dispatch,
          (interleaved verifySignature variantId).event
            ⟨s.withRam ram, .verified s.shared.secureStorage localHash⟩ .dispatch] := by
    simp only [Machine.history_cons, Machine.history_nil, step_dispatch, step_write, hstart, hcheck,
      hask]
  intro hgap
  have hinst := hgap
    ((interleaved verifySignature variantId).event ⟨s, .checked s.shared.secureStorage⟩ .dispatch)
    (by rw [hhistory]; simp)
    ((interleaved verifySignature variantId).event
      ⟨s.withRam ram, .verified s.shared.secureStorage localHash⟩ .dispatch)
    (by rw [hhistory]; simp) _ ⟨rfl, rfl⟩ ⟨rfl, _, _, rfl⟩
  exact hdiff ((installed_eq_iff (by rw [hhistory]; simp) ⟨rfl, _, _, rfl⟩).1 hinst).2

/-- **No gap exactly when** the payload fits the arena and the Generator's
stores between the hash and the copy leave it as it was. The first part holds
in every interleaving: what was hashed had been accepted. -/
theorem noGap_iff (verifySignature : UInt32 → UInt32 → Option Int32) (variantId : Int32)
    (s : State) (acts : List Act) :
    let history := (interleaved verifySignature variantId).history ⟨s, .start⟩ acts
    (∀ use ∈ history, Copies use → ∃ check ∈ history, ∃ metadata localHash isVerified,
      Hashes check metadata ∧
        OneAtATime.hashLoop check.pre.ram metadata.payloadLen = some localHash ∧
        verifySignature localHash metadata.signature = some isVerified ∧ isVerified ≠ 0) ∧
    (NoGap history ↔
      ∀ check ∈ history, ∀ use ∈ history, ∀ metadata, Hashes check metadata → Copies use →
        metadata.payloadLen ≤ 4096 ∧
          use.pre.ram.first metadata.payloadLen = check.pre.ram.first metadata.payloadLen) := by
  intro history
  refine ⟨fun use hmem huse => copies_attested hmem huse, ?_, ?_⟩
  · intro hgap check hcmem use humem metadata hcheck huse
    exact (installed_eq_iff humem huse).1 (hgap check hcmem use humem metadata hcheck huse)
  · intro hcond check hcmem use humem metadata hcheck huse
    exact (installed_eq_iff humem huse).2 (hcond check hcmem use humem metadata hcheck huse)

/-- A signed `RET` is hashed; before the fTPM answers, the Generator stores a
`NOP` over it; the `NOP` is installed. -/
theorem not_noGap_nop :
    ¬ NoGap ((interleaved
        (Tpm.cryptoApiVerifySignature ⟨.zero, 0, 0, Fips180.initialHash⟩ Tpm.tpmSecretKey) 1).history
      ⟨{ boot with
          shared :=
            { boot.shared with
              guestRam := .ofList [0xC3]
              secureStorage :=
                ⟨1, 1, Tpm.signatureOf Tpm.tpmSecretKey (OneAtATime.digest [0xC3])⟩ } }, .start⟩
      [.dispatch, .dispatch, .write (.ofList [0x90]), .dispatch, .dispatch]) := by
  have hlen := payloadLen_one 1 (Tpm.signatureOf Tpm.tpmSecretKey (OneAtATime.digest [0xC3]))
  have hfirst : ∀ b : UInt8, (Region.ofList [b] : Region 67108864).first 1 = [b] := fun b =>
    Region.first_ofList (l := [b]) (by simp)
  refine not_noGap_of_write (attested_of_signed _ _ rfl rfl (by decide) hlen rfl) ?_
  change (Region.ofList [0x90] : Region 67108864).first (Metadata.mk 1 1 _).payloadLen ≠
    (Region.ofList [0xC3] : Region 67108864).first (Metadata.mk 1 1 _).payloadLen
  rw [hlen, hfirst, hfirst]
  decide

end Dispatcher

end HkSystem
