import HkSystem.Dispatcher.Bookkeeping
/-!
# What is in the arena

The Dispatcher attests as many bytes as the metadata says and copies 4096. Two
things are asked of the arena afterwards.

That an auditor who hashes it finds the hash that was attested: the Worker's
`verifier_target_get_hash` covers all 4096 bytes, so it does exactly when the
bytes between the end of the payload and the end of the arena take the
running hash back to where it was (`auditAgrees_iff`).

And that it holds the whole payload: it does exactly when the payload is no
longer than the arena, and nothing in the attestation asks for that
(`installedWhole_iff`).
-/

namespace HkSystem

namespace Dispatcher

variable {s : State} {e : Event State Call Answer} {calls : List Call} {len : ℕ}
  {ram : Region 67108864} {variantId : Int32}

/-! ## The auditor -/

/-- The bytes from the shorter of payload and arena up to the longer one take
the running hash back to where it was. -/
def TailNeutral (ram : Region 67108864) (len : ℕ) : Prop :=
  ((ram.first (max len 4096)).drop (min len 4096)).foldl OneAtATime.mix
      ((ram.first (min len 4096)).foldl OneAtATime.mix 0) =
    (ram.first (min len 4096)).foldl OneAtATime.mix 0

/-- **The two hashes agree exactly when the bytes between are neutral.** -/
theorem digest_eq_iff_tailNeutral (hfit : len ≤ 67108864) :
    OneAtATime.digest (ram.first 4096) = OneAtATime.digest (ram.first len) ↔
      TailNeutral ram len := by
  have hsplit : ram.first (min len 4096) ++ (ram.first (max len 4096)).drop (min len 4096) =
      ram.first (max len 4096) := Region.first_append_drop (by omega) (by omega)
  rw [TailNeutral, ← OneAtATime.digest_append_eq_iff, hsplit]
  rcases Nat.le_total len 4096 with h | h
  · rw [Nat.max_eq_right h, Nat.min_eq_left h]
  · rw [Nat.max_eq_left h, Nat.min_eq_right h]
    exact eq_comm

/-- The hash a call had verified by the fTPM, if it injected. -/
def verifiedHash? (e : Event State Call Answer) : Option UInt32 :=
  match injection? e with
  | some _ => computeIntegrityHash e.post.shared.guestRam
      (Words.sizeT e.post.shared.secureStorage.size.toInt32)
  | none => none

/-- The hash verified for the active variant, which is that of the last
injection. -/
def activeHash? (history : List (Event State Call Answer)) : Option UInt32 :=
  (history.filterMap verifiedHash?).getLast?

/-- **The audit agrees with the attestation** throughout a run. -/
def AuditAgrees (calls : List Call) : Prop :=
  ∀ ds, ds <+: calls → ∀ hash, activeHash? (monitor.history boot ds) = some hash →
    verifierTargetGetHash (monitor.final boot ds).workerArena = some hash

/-- What an injecting call leaves in `guest_ram` behind the payload, or of the
payload behind the arena, is neutral. -/
def Settled (e : Event State Call Answer) : Prop :=
  ∀ supply verifySignature jitTask, e.call = .forceMutation (some supply) verifySignature jitTask →
    e.pre.halted = false →
      Attested verifySignature (supply.apply e.pre.shared) (e.pre.totalMutationsCount + 1) →
        TailNeutral (supply.apply e.pre.shared).guestRam
          (supply.apply e.pre.shared).secureStorage.payloadLen

theorem verifiedHash_of_installs (h : Installs e) :
    e.post.shared.secureStorage.payloadLen ≤ 67108864 ∧
      verifiedHash? e = some (OneAtATime.digest
        (e.post.shared.guestRam.first e.post.shared.secureStorage.payloadLen)) := by
  obtain ⟨supply, verifySignature, jitTask, -, -, hshared, hatt⟩ := h.source
  rw [← hshared] at hatt
  obtain ⟨hash, isVerified, hhash, -⟩ := hatt.verified
  obtain ⟨hfit, -⟩ := OneAtATime.hashLoop_eq_some_iff.1 hhash
  rw [verifiedHash?, h.booked]
  exact ⟨hfit, OneAtATime.hashLoop_eq hfit⟩

/-- The Worker hashes what was copied. -/
theorem getHash_of_installs (h : Installs e) :
    verifierTargetGetHash e.post.workerArena =
      some (OneAtATime.digest (e.post.shared.guestRam.first 4096)) := by
  rw [verifierTargetGetHash, OneAtATime.hashLoop_eq le_rfl, Region.first_of_memcpy h.arena le_rfl]

/-- Right after an injection, the audit agrees exactly when the bytes between
are neutral. -/
theorem getHash_eq_iff (h : Installs e) :
    verifierTargetGetHash e.post.workerArena = verifiedHash? e ↔
      TailNeutral e.post.shared.guestRam e.post.shared.secureStorage.payloadLen := by
  obtain ⟨hfit, hverified⟩ := verifiedHash_of_installs h
  rw [getHash_of_installs h, hverified, Option.some.injEq, digest_eq_iff_tailNeutral hfit]

theorem activeHash_append (history : List (Event State Call Answer))
    (e : Event State Call Answer) :
    activeHash? (history ++ [e]) = (verifiedHash? e).or (activeHash? history) := by
  unfold activeHash?
  rw [List.filterMap_append, List.getLast?_append]
  cases h : verifiedHash? e with
  | none => simp [h]
  | some hash => simp [h]

/-- A call that settles keeps the audit in agreement. -/
theorem agrees_step (h : e ∈ monitor.history s calls) (hsettled : Settled e)
    {history : List (Event State Call Answer)}
    (hagree : ∀ hash, activeHash? history = some hash →
      verifierTargetGetHash e.pre.workerArena = some hash) :
    ∀ hash, activeHash? (history ++ [e]) = some hash →
      verifierTargetGetHash e.post.workerArena = some hash := by
  intro hash hactive
  rw [activeHash_append] at hactive
  obtain ⟨-, ⟨hnone, hsame⟩ | hinst⟩ := event_effect h
  -- no injection: the arena and the active variant are as before
  · rw [verifiedHash?, hnone, Option.none_or] at hactive
    rw [hsame.arena]
    exact hagree hash hactive
  · obtain ⟨supply, verifySignature, jitTask, hcall, hhalt, hshared, hatt⟩ := hinst.source
    have hneutral := hsettled supply verifySignature jitTask hcall hhalt hatt
    rw [← hshared] at hneutral
    obtain ⟨-, hverified⟩ := verifiedHash_of_installs hinst
    rw [hverified, Option.some_or, ← hverified] at hactive
    rw [(getHash_eq_iff hinst).2 hneutral, hactive]

/-- **One injection that does not settle breaks it.** -/
theorem not_auditAgrees_of_attested (h : e ∈ monitor.history boot calls) {supply : Supply}
    {verifySignature : UInt32 → UInt32 → Option Int32} {jitTask : Region 4096 → Option UInt32}
    (hcall : e.call = .forceMutation (some supply) verifySignature jitTask)
    (hhalt : e.pre.halted = false)
    (hatt : Attested verifySignature (supply.apply e.pre.shared) (e.pre.totalMutationsCount + 1))
    (hnot : ¬ TailNeutral (supply.apply e.pre.shared).guestRam
      (supply.apply e.pre.shared).secureStorage.payloadLen) : ¬ AuditAgrees calls := by
  intro hagrees
  have hinst := installs_of_attested h hcall hhalt hatt
  obtain ⟨-, hverified⟩ := verifiedHash_of_installs hinst
  obtain ⟨xs, ys, rfl, hpre, hans, hpost⟩ := Machine.mem_history_iff.1 h
  have hevent := Machine.eq_event_of_mem h
  -- the run up to this call
  have hhistory : monitor.history boot (xs ++ [e.call]) = monitor.history boot xs ++ [e] := by
    rw [Machine.history_append, Machine.history_cons, Machine.history_nil, ← hpre, ← hevent]
  have hfinal : monitor.final boot (xs ++ [e.call]) = e.post := by
    rw [Machine.final_append, Machine.final_cons, Machine.final_nil, ← hpre, hpost]
  have hagree := hagrees (xs ++ [e.call]) ⟨ys, by simp⟩ _ (by
    rw [hhistory, activeHash_append, hverified, Option.some_or])
  rw [hfinal, ← hverified, getHash_eq_iff hinst, hinst.shared_eq hcall] at hagree
  exact hnot hagree

/-- **The audit agrees throughout a run exactly when every injection settles**:
the bytes that only one of the two hashes covers take the running hash back
to where it was. Where the payload is 4096 bytes long there are none. -/
theorem auditAgrees_iff (calls : List Call) :
    AuditAgrees calls ↔ ∀ e ∈ monitor.history boot calls, Settled e := by
  constructor
  · intro hagrees e he supply verifySignature jitTask hcall hhalt hatt
    by_contra hnot
    exact not_auditAgrees_of_attested he hcall hhalt hatt hnot hagrees
  · intro hsettled ds hds
    -- on the last call of the part of the run looked at
    induction ds using List.reverseRecOn with
    | nil =>
      intro hash hactive
      cases hactive
    | append_singleton ds call ih =>
      have hmem : monitor.event (monitor.final boot ds) call ∈
          monitor.history (monitor.final boot ds) [call] := List.mem_cons_self ..
      have hin : monitor.event (monitor.final boot ds) call ∈ monitor.history boot calls :=
        Machine.mem_history_of_prefix hds Machine.event_mem_concat
      have hstep := agrees_step hmem (hsettled _ hin) (ih ((List.prefix_append ds [call]).trans hds))
      rw [Machine.final_append, Machine.history_append]
      exact hstep

/-- `guest_ram` with 4095 zeros and a `RET` behind them. -/
def zerosRet : Region 67108864 := ⟨fun i => if i.1 = 4095 then 0xC3 else 0⟩

theorem first_zerosRet : zerosRet.first 4095 = List.replicate 4095 0 := by
  rw [← Region.first_of_zero (n := 67108864) (by decide)]
  refine Region.first_congr fun i hi => ?_
  rw [Region.get?_of_lt (by omega), Region.get?_of_lt (by omega)]
  exact congrArg some (if_neg (by simpa using hi.ne))

/-- The `RET` is not neutral. -/
theorem not_tailNeutral_zerosRet : ¬ TailNeutral zerosRet 4095 := by
  have hlong : zerosRet.first 4096 = List.replicate 4095 0 ++ [0xC3] := by
    rw [Region.first_succ (by decide), first_zerosRet]
    rfl
  rw [← digest_eq_iff_tailNeutral (by decide), hlong, first_zerosRet,
    OneAtATime.digest_append_eq_iff, OneAtATime.foldl_mix_zeros]
  decide

/-- The registration of 4095 zeros as the first variant. -/
def zerosRegistration : Metadata :=
  ⟨1, 4095, Tpm.signatureOf Tpm.tpmSecretKey (OneAtATime.digest (List.replicate 4095 0))⟩

theorem payloadLen_zerosRegistration : zerosRegistration.payloadLen = 4095 :=
  show (Words.sizeT (4095 : UInt32).toInt32).toNat = 4095 by decide

theorem attested_zeros (ctx : Tpm.Sha256Ctx) :
    Attested (Tpm.cryptoApiVerifySignature ctx Tpm.tpmSecretKey)
      (Supply.apply ⟨zerosRet, .zero, [zerosRegistration]⟩ boot.shared) 1 := by
  have hslot : (Supply.apply ⟨zerosRet, .zero, [zerosRegistration]⟩ boot.shared).secureStorage =
      zerosRegistration := rfl
  have hram : (Supply.apply ⟨zerosRet, .zero, [zerosRegistration]⟩ boot.shared).guestRam =
      zerosRet := rfl
  rw [attested_iff, hslot, hram, payloadLen_zerosRegistration, first_zerosRet, zerosRegistration]
  exact ⟨by decide, by decide, rfl⟩

/-- A variant of 4095 zeros, attested and injected with a `RET` behind it in
`guest_ram`: the Worker's hash is not the one the fTPM verified. -/
theorem not_auditAgrees_zeros :
    ¬ AuditAgrees [.forceMutation (some ⟨zerosRet, .zero, [zerosRegistration]⟩)
      (Tpm.cryptoApiVerifySignature ⟨.zero, 0, 0, Fips180.initialHash⟩ Tpm.tpmSecretKey)
      fun _ => some 0] := by
  have hnot : ¬ TailNeutral zerosRet zerosRegistration.payloadLen := by
    rw [payloadLen_zerosRegistration]
    exact not_tailNeutral_zerosRet
  exact not_auditAgrees_of_attested (e := monitor.event boot _) (List.mem_cons_self ..) rfl rfl
    (attested_zeros _) hnot

/-! ## The whole payload -/

/-- **The attested payload is installed whole.** -/
structure InstalledWhole (verifySignature : UInt32 → UInt32 → Option Int32) (s : State)
    (variantId : Int32) : Prop where
  /-- Every byte of an accepted payload is in the arena. -/
  whole : ∀ ram : Region 67108864,
    (executeSecureRuntimeInjection verifySignature (s.withRam ram) variantId).2 =
        .injected variantId →
      ∀ i, i < s.shared.secureStorage.payloadLen →
        (executeSecureRuntimeInjection verifySignature (s.withRam ram)
          variantId).1.workerArena.get? i = ram.get? i
  /-- A payload that does not fit the arena is not injected, and changes
  nothing. -/
  blocked : ∀ ram : Region 67108864, 4096 < s.shared.secureStorage.payloadLen →
    (∀ id, (executeSecureRuntimeInjection verifySignature (s.withRam ram) variantId).2 ≠
        .injected id) ∧
      (executeSecureRuntimeInjection verifySignature (s.withRam ram) variantId).1 = s.withRam ram

theorem installedWhole_of_short (verifySignature : UInt32 → UInt32 → Option Int32)
    (h : s.shared.secureStorage.payloadLen ≤ 4096) : InstalledWhole verifySignature s variantId := by
  refine ⟨fun ram hinjected i hi => ?_, fun ram hlong => absurd h (Nat.not_le.2 hlong)⟩
  by_cases hatt : Attested verifySignature (s.withRam ram).shared variantId
  · obtain ⟨arena, hcopy, heq⟩ := injection_of_attested hatt
    rw [heq]
    change arena.get? i = ram.get? i
    rw [Region.get?_of_memcpy hcopy, if_pos (by omega)]
    rfl
  · obtain ⟨outcome, heq, hne, -⟩ := injection_of_not_attested hatt
    rw [heq] at hinjected
    exact absurd hinjected (hne variantId)

/-- Where no memory is attested nothing is injected. -/
theorem installedWhole_of_refused {verifySignature : UInt32 → UInt32 → Option Int32}
    (h : ∀ ram, ¬ Attested verifySignature (s.withRam ram).shared variantId) :
    InstalledWhole verifySignature s variantId := by
  refine ⟨fun ram hinjected => ?_, fun ram _ => ?_⟩
  · obtain ⟨outcome, heq, hne, -⟩ := injection_of_not_attested (h ram)
    rw [heq] at hinjected
    exact absurd hinjected (hne variantId)
  · obtain ⟨outcome, heq, hne, -⟩ := injection_of_not_attested (h ram)
    rw [heq]
    exact ⟨hne, rfl⟩

/-- **A long attested payload is cut off**: the arena ends before it does. -/
theorem not_installedWhole_of_long {verifySignature : UInt32 → UInt32 → Option Int32}
    (hlong : 4096 < s.shared.secureStorage.payloadLen)
    (hatt : Attested verifySignature (s.withRam ram).shared variantId) :
    ¬ InstalledWhole verifySignature s variantId := by
  intro hwhole
  obtain ⟨arena, -, heq⟩ := injection_of_attested hatt
  have hblocked := (hwhole.blocked ram hlong).1 variantId
  rw [heq] at hblocked
  exact hblocked rfl

/-- **The payload is installed whole exactly when** the metadata names another
variant, or the payload fits the arena, or it does not even fit `guest_ram`,
or no payload of its length carries its signature. -/
theorem installedWhole_iff (ctx : Tpm.Sha256Ctx) (key : Region 32) (s : State)
    (variantId : Int32) :
    InstalledWhole (Tpm.cryptoApiVerifySignature ctx key) s variantId ↔
      s.shared.secureStorage.vid.toInt32 ≠ variantId ∨
        s.shared.secureStorage.payloadLen ≤ 4096 ∨
        67108864 < s.shared.secureStorage.payloadLen ∨
        ∀ payload : List UInt8, payload.length = s.shared.secureStorage.payloadLen →
          s.shared.secureStorage.signature ≠
            Tpm.signatureOf key (OneAtATime.digest payload) := by
  constructor
  · intro hwhole
    by_contra hcond
    simp only [not_or, not_not, not_forall, Nat.not_le, Nat.not_lt] at hcond
    obtain ⟨hvid, hlong, hfit, payload, hpayload, hsig⟩ := hcond
    have hatt : Attested (Tpm.cryptoApiVerifySignature ctx key)
        (s.withRam (.ofList payload)).shared variantId :=
      attested_of_signed ctx key hvid rfl (by omega) hpayload.symm hsig
    exact not_installedWhole_of_long hlong hatt hwhole
  · rintro (hvid | hshort | hlong | hsig)
    · exact installedWhole_of_refused fun ram hatt => hvid hatt.vid
    · exact installedWhole_of_short _ hshort
    · refine installedWhole_of_refused fun ram hatt => ?_
      obtain ⟨-, hfit, -⟩ := (attested_iff ctx key).1 hatt
      exact absurd hfit (Nat.not_le.2 hlong)
    · refine installedWhole_of_refused fun ram hatt => ?_
      obtain ⟨-, hfit, hvalid⟩ := (attested_iff ctx key).1 hatt
      exact hsig _ (Region.length_first hfit) hvalid

/-- A payload of 4097 zeros is accepted, and its last byte has no place in the
arena. -/
theorem not_installedWhole_zeros :
    ¬ InstalledWhole
      (Tpm.cryptoApiVerifySignature ⟨.zero, 0, 0, Fips180.initialHash⟩ Tpm.tpmSecretKey)
      { boot with
        shared :=
          { boot.shared with
            secureStorage :=
              ⟨1, 4097, Tpm.signatureOf Tpm.tpmSecretKey
                (OneAtATime.digest (List.replicate 4097 0))⟩ } } 1 := by
  have hlen : (Metadata.mk 1 4097 (Tpm.signatureOf Tpm.tpmSecretKey
      (OneAtATime.digest (List.replicate 4097 0)))).payloadLen =
      (List.replicate 4097 (0 : UInt8)).length := by
    rw [List.length_replicate]
    exact show (Words.sizeT (4097 : UInt32).toInt32).toNat = 4097 by decide
  have hlong : 4096 < (Metadata.mk 1 4097 (Tpm.signatureOf Tpm.tpmSecretKey
      (OneAtATime.digest (List.replicate 4097 0)))).payloadLen := by
    rw [hlen, List.length_replicate]
    decide
  exact not_installedWhole_of_long hlong
    (attested_of_signed _ _ rfl rfl (by rw [List.length_replicate]; decide) hlen rfl)

end Dispatcher

end HkSystem
