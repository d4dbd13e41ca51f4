import HkSystem.Vfs.Model.Server
import Mathlib.Algebra.BigOperators.Group.List.Basic
/-!
# VFS — the log's accounting

`disk_offset` is compared with the quota after the signed count has been
converted and added modulo `2 ^ 32`. Read at the integers the test is
exact (`posixApiWrite_log`): a write is accepted when offset plus count
lies in `[0, DISK_SIZE)`. So a negative count no longer than the offset is
accepted too, and takes the offset back (`Retracts`); the accounting of a
run is right exactly when no call of it does that. And a write that would
take the offset to `DISK_SIZE` itself is refused, though it fits
(`decidedByFit_run`).
-/

namespace HkSystem

namespace Vfs

variable {s s' : Server} {fd count : Int32} {c : PosixCall} {cs ds : List PosixCall}
variable {prior : Region arenaSize} {e : Event Server PosixCall Int32}

theorem toNat_diskSize : diskSize.toNat = 1048576 := rfl

/-- The offset stays below the quota. -/
def WithinDisk (s : Server) : Prop := s.diskOffset.toNat < diskSize.toNat

/-- **A write to the log, at the integers.** It is accepted when the exact
sum of offset and count lies on the disk, and rejected otherwise. -/
theorem posixApiWrite_log (hs : WithinDisk s) (count : Int32) :
    (0 ≤ s.diskOffset.toNat + count.toInt ∧
        s.diskOffset.toNat + count.toInt < diskSize.toNat ∧
        (posixApiWrite s logFd count).2 = count ∧
        ((posixApiWrite s logFd count).1.diskOffset.toNat : ℤ) =
          s.diskOffset.toNat + count.toInt) ∨
      ((s.diskOffset.toNat + count.toInt < 0 ∨
          diskSize.toNat ≤ s.diskOffset.toNat + count.toInt) ∧
        posixApiWrite s logFd count = (s, -1)) := by
  -- a negative count wraps around `2 ^ 32`, and past it again if the offset covers it
  have hconv := Words.toNat_toUInt32 count
  have hlo := count.le_toInt
  have hhi := count.toInt_lt
  have hsum := UInt32.toNat_add s.diskOffset count.toUInt32
  unfold WithinDisk at hs
  rw [toNat_diskSize] at hs ⊢
  unfold posixApiWrite
  rw [if_pos rfl]
  by_cases hq : s.diskOffset + count.toUInt32 ≥ diskSize
  · rw [if_pos hq]
    refine Or.inr ⟨?_, rfl⟩
    rw [ge_iff_le, UInt32.le_iff_toNat_le, toNat_diskSize] at hq
    split at hconv <;> omega
  · rw [if_neg hq]
    left
    rw [ge_iff_le, UInt32.le_iff_toNat_le, toNat_diskSize] at hq
    refine ⟨?_, ?_, rfl, ?_⟩
    · split at hconv <;> omega
    · split at hconv <;> omega
    · change ((s.diskOffset + count.toUInt32).toNat : ℤ) = _
      split at hconv <;> omega

/-- Off the log, a write moves nothing. -/
theorem posixApiWrite_other (h : fd ≠ logFd) : (posixApiWrite s fd count).1 = s := by
  unfold posixApiWrite
  rw [if_neg h]
  split_ifs <;> rfl

/-- **A read of the log, at the integers**: as much as there is room for,
and all there is where the room is negative. -/
theorem posixApiRead_log (hs : WithinDisk s) (count : Int32) :
    (posixApiRead s logFd count).toInt =
      if 0 ≤ count.toInt then min count.toInt s.diskOffset.toNat else s.diskOffset.toNat := by
  have hconv := Words.toNat_toUInt32 count
  have hoff := Words.toInt_toInt32 s.diskOffset
  have hlo := count.le_toInt
  unfold WithinDisk at hs
  rw [toNat_diskSize] at hs
  rw [if_pos (by omega)] at hoff
  unfold posixApiRead
  by_cases h : logFd = logFd ∧ s.diskOffset > 0
  · rw [if_pos h]
    by_cases hlt : count.toUInt32 < s.diskOffset
    · rw [if_pos hlt]
      rw [UInt32.lt_iff_toNat_lt] at hlt
      split at hconv <;> split <;> omega
    · rw [if_neg hlt, hoff]
      rw [UInt32.lt_iff_toNat_lt] at hlt
      split at hconv <;> split <;> omega
  · have hzero : s.diskOffset.toNat = 0 := by
      rw [gt_iff_lt, UInt32.lt_iff_toNat_lt] at h
      have : (0 : UInt32).toNat = 0 := rfl
      simp only [true_and] at h
      omega
    rw [if_neg h, Int32.toInt_zero]
    split <;> omega

/-- Off the log, a read returns nothing. -/
theorem posixApiRead_other (h : fd ≠ logFd) : posixApiRead s fd count = 0 :=
  if_neg fun hc => h hc.1

@[simp] theorem posixApiWrite_arena :
    (posixApiWrite s fd count).1.virtualDiskArena = s.virtualDiskArena := by
  unfold posixApiWrite
  split_ifs <;> rfl

/-- No handler writes the disk. -/
theorem arena_step (s : Server) (c : PosixCall) :
    (server.step s c).1.virtualDiskArena = s.virtualDiskArena := by
  cases c with
  | write fd count => exact posixApiWrite_arena
  | «open» | read | close => rfl

theorem withinDisk_boot : WithinDisk (boot prior) :=
  show (0 : UInt32).toNat < diskSize.toNat by decide

theorem withinDisk_posixApiWrite (hs : WithinDisk s) (fd count : Int32) :
    WithinDisk (posixApiWrite s fd count).1 := by
  by_cases hfd : fd = logFd
  · subst hfd
    rcases posixApiWrite_log hs count with ⟨-, hlt, -, hoff⟩ | ⟨-, heq⟩
    · unfold WithinDisk
      omega
    · rw [heq]
      exact hs
  · rw [posixApiWrite_other hfd]
    exact hs

theorem withinDisk_step (hs : WithinDisk s) (c : PosixCall) : WithinDisk (server.step s c).1 := by
  cases c with
  | write fd count => exact withinDisk_posixApiWrite hs fd count
  | «open» | read | close => exact hs

/-- **Every reachable offset is on the disk.** -/
theorem withinDisk_of_reachable (h : server.Reachable (boot prior) s) : WithinDisk s :=
  h.inv withinDisk_boot fun _ c hs => withinDisk_step hs c

/-! ## What a run is charged -/

/-- The bytes a call is charged for: the value a write to the log
returned, if it is not negative. -/
def charged (e : Event Server PosixCall Int32) : ℕ :=
  match e.call with
  | .write fd _ => if fd = logFd ∧ 0 ≤ e.answer then e.answer.toInt.toNat else 0
  | _ => 0

/-- **The accounting of a run.** At every point the offset is the exact
sum of what the writes so far were charged; no call takes it back or past
the disk; and a write that answers a negative value leaves it alone. -/
structure Accounted (b : Server) (cs : List PosixCall) : Prop where
  balance : ∀ ds, ds <+: cs →
    (server.final b ds).diskOffset.toNat = ((server.history b ds).map charged).sum
  monotone : ∀ e ∈ server.history b cs, e.pre.diskOffset ≤ e.post.diskOffset
  within : ∀ e ∈ server.history b cs, e.post.diskOffset ≤ diskSize
  rejected : ∀ e ∈ server.history b cs, (∃ fd count, e.call = .write fd count) →
    e.answer < 0 → e.post.diskOffset = e.pre.diskOffset

/-- A write to the log with a negative count no longer than the offset. -/
def Retracts (s : Server) (c : PosixCall) : Prop :=
  ∃ count : Int32, c = .write logFd count ∧ count < 0 ∧ -count.toInt ≤ s.diskOffset.toNat

/-- A call that does not retract advances the offset by its charge, and by
nothing where it answers a negative value. -/
theorem step_of_not_retracts (hs : WithinDisk s) (h : ¬ Retracts s c) :
    (server.step s c).1.diskOffset.toNat =
        s.diskOffset.toNat + charged (server.event s c) ∧
      ((∃ fd count, c = .write fd count) → (server.step s c).2 < 0 →
        (server.step s c).1.diskOffset = s.diskOffset) := by
  cases c with
  | «open» | read | close => exact ⟨rfl, fun h => by simp at h⟩
  | write fd count =>
    change (posixApiWrite s fd count).1.diskOffset.toNat = s.diskOffset.toNat +
        (if fd = logFd ∧ 0 ≤ (posixApiWrite s fd count).2
          then (posixApiWrite s fd count).2.toInt.toNat else 0) ∧
      (_ → (posixApiWrite s fd count).2 < 0 → (posixApiWrite s fd count).1.diskOffset = _)
    by_cases hfd : fd = logFd
    · subst hfd
      rcases posixApiWrite_log hs count with ⟨hge, -, hans, hoff⟩ | ⟨-, heq⟩
      · -- an accepted count is not negative, since the call does not retract
        have hpos : 0 ≤ count.toInt := by
          by_contra hneg
          refine h ⟨count, rfl, ?_, by omega⟩
          rw [Int32.lt_iff_toInt_lt, Int32.toInt_zero]
          omega
        rw [hans, if_pos ⟨rfl, by rw [Int32.le_iff_toInt_le, Int32.toInt_zero]; exact hpos⟩]
        refine ⟨by omega, fun _ hneg => ?_⟩
        rw [Int32.lt_iff_toInt_lt, Int32.toInt_zero] at hneg
        omega
      · have hans : ¬ (logFd = logFd ∧ (0 : Int32) ≤ -1) := by decide
        rw [heq, if_neg hans]
        exact ⟨rfl, fun _ _ => rfl⟩
    · rw [posixApiWrite_other hfd, if_neg fun hc => hfd hc.1]
      exact ⟨rfl, fun _ _ => rfl⟩

/-- A retracting write answers its negative count and lowers the offset. -/
theorem lt_of_retracts (hs : WithinDisk s) (h : Retracts s c) :
    (server.step s c).1.diskOffset < s.diskOffset := by
  obtain ⟨count, rfl, hneg, hle⟩ := h
  rw [Int32.lt_iff_toInt_lt, Int32.toInt_zero] at hneg
  change (posixApiWrite s logFd count).1.diskOffset < _
  rcases posixApiWrite_log hs count with ⟨-, -, -, hoff⟩ | ⟨hout, -⟩
  · rw [UInt32.lt_iff_toNat_lt]
    omega
  · unfold WithinDisk at hs
    omega

/-- Along a run that never retracts, the offset grows by the charges. -/
theorem balance_of_not_retracts (hs : WithinDisk s)
    (h : ∀ e ∈ server.history s cs, ¬ Retracts e.pre e.call) :
    (server.final s cs).diskOffset.toNat =
      s.diskOffset.toNat + ((server.history s cs).map charged).sum := by
  induction cs generalizing s with
  | nil => rfl
  | cons c cs ih =>
    rw [Machine.history_cons, List.forall_mem_cons] at h
    have hc : ¬ Retracts s c := h.1
    rw [Machine.final_cons, ih (withinDisk_step hs c) h.2, (step_of_not_retracts hs hc).1,
      Machine.history_cons, List.map_cons, List.sum_cons, Nat.add_assoc]

/-- **A run is accounted for exactly when no write of it retracts.** -/
theorem accounted_iff (prior : Region arenaSize) (cs : List PosixCall) :
    Accounted (boot prior) cs ↔
      ∀ e ∈ server.history (boot prior) cs, ¬ Retracts e.pre e.call := by
  have hpre : ∀ e ∈ server.history (boot prior) cs, WithinDisk e.pre ∧ WithinDisk e.post :=
    fun e he => Machine.inv_of_mem withinDisk_boot (fun _ c hs => withinDisk_step hs c) he
  constructor
  -- a write that retracts lowers the offset
  · intro hacc e he hret
    have hlt := lt_of_retracts (hpre e he).1 hret
    rw [← (Machine.step_of_mem he).2] at hlt
    exact absurd (hacc.monotone e he) (UInt32.not_le.2 hlt)
  · intro h
    have hstep : ∀ e ∈ server.history (boot prior) cs,
        e.post.diskOffset.toNat = e.pre.diskOffset.toNat + charged e ∧
          ((∃ fd count, e.call = .write fd count) → e.answer < 0 →
            e.post.diskOffset = e.pre.diskOffset) := by
      intro e he
      have hc := step_of_not_retracts (hpre e he).1 (h e he)
      rw [Machine.eq_event_of_mem he]
      exact hc
    refine ⟨fun ds hds => ?_, fun e he => ?_, fun e he => ?_, fun e he => (hstep e he).2⟩
    · have := balance_of_not_retracts withinDisk_boot
        fun e he => h e (Machine.mem_history_of_prefix hds he)
      rw [this]
      exact Nat.zero_add _
    · rw [UInt32.le_iff_toNat_le, (hstep e he).1]
      omega
    · rw [UInt32.le_iff_toNat_le]
      exact le_of_lt (hpre e he).2

/-- Ten bytes written and five taken back: the second write returns `-5`
and leaves five bytes where ten were returned. -/
theorem not_accounted_retraction :
    ¬ Accounted (boot Region.zero) [.write logFd 10, .write logFd (-5)] := by
  intro h
  have hmono := h.monotone ⟨(posixApiWrite (boot Region.zero) logFd 10).1, .write logFd (-5), -5,
    (posixApiWrite (posixApiWrite (boot Region.zero) logFd 10).1 logFd (-5)).1⟩
    (List.mem_cons_of_mem _ (List.mem_singleton.2 rfl))
  exact absurd hmono (by decide)

/-! ## What fits -/

/-- The write takes the log to the end of the disk at most, at the integers. -/
def Fits (s : Server) (count : Int32) : Prop :=
  s.diskOffset.toNat + count.toInt ≤ diskSize.toNat

/-- The write takes the log exactly to the end of the disk. -/
def Fills (s : Server) (count : Int32) : Prop :=
  s.diskOffset.toNat + count.toInt = diskSize.toNat

/-- The write returns its count and advances the offset by it. -/
def TakesAll (s : Server) (count : Int32) : Prop :=
  (posixApiWrite s logFd count).2 = count ∧
    ((posixApiWrite s logFd count).1.diskOffset.toNat : ℤ) = s.diskOffset.toNat + count.toInt

/-- **A write is decided by whether it fits.** -/
structure DecidedByFit (s : Server) (count : Int32) : Prop where
  takesAll_iff : TakesAll s count ↔ Fits s count
  refused : ¬ Fits s count →
    (posixApiWrite s logFd count).2 = -1 ∧
      (posixApiWrite s logFd count).1.diskOffset = s.diskOffset

/-- The test leaves the last byte out: a write that exactly fills the disk fits
and is refused. -/
theorem decidedByFit_iff (hs : WithinDisk s) {count : Int32} (hcount : 0 ≤ count) :
    DecidedByFit s count ↔ ¬ Fills s count := by
  have hpos : 0 ≤ count.toInt := by rwa [Int32.le_iff_toInt_le, Int32.toInt_zero] at hcount
  unfold Fills
  rcases posixApiWrite_log hs count with ⟨-, hlt, hans, hoff⟩ | ⟨hout, heq⟩
  · refine iff_of_true ⟨?_, fun hfit => absurd hlt.le hfit⟩ hlt.ne
    exact iff_of_true ⟨hans, hoff⟩ hlt.le
  · have hge := hout.resolve_left (by omega)
    -- the answer of a refused write is negative
    have hno : ¬ TakesAll s count := by
      rintro ⟨hans, -⟩
      rw [heq] at hans
      obtain rfl : (-1 : Int32) = count := hans
      exact absurd hcount (by decide)
    constructor
    · intro h hfull
      exact hno (h.takesAll_iff.2 hfull.le)
    · intro hfull
      have hfit : ¬ Fits s count := fun hfit => hfull (le_antisymm hfit hge)
      exact ⟨iff_of_false hno hfit, fun _ => by rw [heq]; exact ⟨rfl, rfl⟩⟩

/-- **The disk takes what fits, except for what fills it.** In every state a run
reaches, a write of a count that is not negative is decided by whether it fits
exactly when it does not fill the disk to its end; all writes of a run are so
decided exactly when none of them fills it; and no run gets to its end. -/
theorem decidedByFit_run (prior : Region arenaSize) (cs : List PosixCall) :
    (∀ count : Int32, 0 ≤ count →
      (DecidedByFit (server.final (boot prior) cs) count ↔
        ¬ Fills (server.final (boot prior) cs) count)) ∧
    ((∀ e ∈ server.history (boot prior) cs, ∀ count : Int32,
        e.call = .write logFd count → 0 ≤ count → DecidedByFit e.pre count) ↔
      ∀ e ∈ server.history (boot prior) cs, ∀ count : Int32,
        e.call = .write logFd count → 0 ≤ count → ¬ Fills e.pre count) ∧
    (server.final (boot prior) cs).diskOffset.toNat < diskSize.toNat := by
  have hfinal : WithinDisk (server.final (boot prior) cs) :=
    withinDisk_of_reachable ⟨cs, rfl⟩
  have hpre : ∀ e ∈ server.history (boot prior) cs, WithinDisk e.pre := fun e he =>
    (Machine.inv_of_mem withinDisk_boot (fun _ c hs => withinDisk_step hs c) he).1
  refine ⟨fun count hcount => decidedByFit_iff hfinal hcount, ?_, hfinal⟩
  constructor
  · intro h e he count hcall hcount
    exact (decidedByFit_iff (hpre e he) hcount).1 (h e he count hcall hcount)
  · intro h e he count hcall hcount
    exact (decidedByFit_iff (hpre e he) hcount).2 (h e he count hcall hcount)

/-- The whole disk in one write, at boot: it fits and is refused. -/
theorem not_decidedByFit_whole :
    (0 : Int32) ≤ 1048576 ∧ Fits (boot Region.zero) 1048576 ∧
      (posixApiWrite (boot Region.zero) logFd 1048576).2 = -1 ∧
      ¬ DecidedByFit (boot Region.zero) 1048576 := by
  have hfill : Fills (boot Region.zero) 1048576 :=
    show ((0 : UInt32).toNat : ℤ) + (1048576 : Int32).toInt = diskSize.toNat by decide
  refine ⟨by decide, le_of_eq hfill, by decide, fun h => ?_⟩
  exact (decidedByFit_iff withinDisk_boot (by decide)).1 h hfill

end Vfs

end HkSystem
