import HkSystem.Vfs.Accounting
/-!
# VFS — the return convention across the RPC

The Worker's `hk_posix_write` takes a `size_t` and answers a `long`; in
between the count is truncated to an `int` and the server works on that.
`WriteConvention` and `ReadConvention` are what POSIX asks of the two
wrappers. Both hold away from negative truncated counts, and the two
theorems before the last say at which of those they fail: on the log, only
where the write retracts; on the console and the sockets, wherever the
answer is below `-1`; on a read, once the log holds anything.
-/

namespace HkSystem

namespace Vfs

variable {s : Server} {fd maxLen : Int32} {buf : List UInt8} {count : UInt64}

/-- What a write may answer: `-1` with the offset where it was, or the
number of bytes the server accepted, which is no more than it was given.
On the log the accepted bytes are the ones the offset advanced by; on any
other descriptor they are the count the server was handed. -/
def WriteConvention (s : Server) (fd : Int32) (buf : List UInt8) (count : UInt64) : Prop :=
  let r := hkPosixWrite s fd buf count
  (r.2 = -1 ∧ r.1.diskOffset = s.diskOffset) ∨
    (0 ≤ r.2.toInt ∧ r.2.toInt ≤ count.toNat ∧
      (fd = logFd → (r.1.diskOffset.toNat : ℤ) = s.diskOffset.toNat + r.2.toInt) ∧
      (fd ≠ logFd → r.1.diskOffset = s.diskOffset ∧
        r.2.toInt = (Words.intOfSize count).toInt))

/-- What a read may answer: `-1`, or at most the room it was given. -/
def ReadConvention (s : Server) (fd maxLen : Int32) : Prop :=
  readFile s fd maxLen = -1 ∨
    (0 ≤ (readFile s fd maxLen).toInt ∧ (readFile s fd maxLen).toInt ≤ max maxLen.toInt 0)

/-- A descriptor the server routes to the console or to a socket. -/
def Routed (fd : Int32) : Prop := fd = 1 ∨ fd = 2 ∨ fd ≥ socketFdBase

/-- The truncated count of a write is not negative, or the write is one
the server turns away: on the log a count longer than the offset, on a
routed descriptor the count `-1`, which is its own error code. -/
def WriteFits (s : Server) (fd : Int32) (count : UInt64) : Prop :=
  ¬ (fd = logFd ∧ (Words.intOfSize count).toInt < 0 ∧
      -(Words.intOfSize count).toInt ≤ s.diskOffset.toNat) ∧
    ¬ (Routed fd ∧ (Words.intOfSize count).toInt < -1)

/-- The room of a read is not negative, or there is nothing to read. -/
def ReadFits (s : Server) (fd maxLen : Int32) : Prop :=
  ¬ (fd = logFd ∧ 0 < s.diskOffset.toNat ∧ maxLen.toInt < 0)

theorem not_routed_logFd : ¬ Routed logFd := by
  unfold Routed
  decide

/-- A truncated count that is not negative is at most the count. -/
theorem toInt_intOfSize_le (h : 0 ≤ (Words.intOfSize count).toInt) :
    (Words.intOfSize count).toInt ≤ count.toNat := by
  have hconv := Words.toInt_intOfSize count
  have hmod := Nat.mod_le count.toNat (2 ^ 32)
  split at hconv <;> omega

theorem toInt64_eq_neg_one_iff {c : Int32} : c.toInt64 = -1 ↔ c.toInt = -1 := by
  rw [← Int64.toInt_inj, Int32.toInt_toInt64]
  exact Iff.rfl

/-- On a routed descriptor the server answers the count it was handed. -/
theorem posixApiWrite_routed {c : Int32} (h : Routed fd) : posixApiWrite s fd c = (s, c) := by
  have hlog : fd ≠ logFd := fun hfd => not_routed_logFd (hfd ▸ h)
  unfold posixApiWrite
  rw [if_neg hlog]
  by_cases hstd : fd = 1 ∨ fd = 2
  · rw [if_pos hstd]
  · rw [if_neg hstd, if_pos]
    rcases h with h | h | h
    · exact absurd (Or.inl h) hstd
    · exact absurd (Or.inr h) hstd
    · exact h

/-- On any other descriptor it answers an error. -/
theorem posixApiWrite_unrouted {c : Int32} (hlog : fd ≠ logFd) (h : ¬ Routed fd) :
    posixApiWrite s fd c = (s, -1) := by
  unfold posixApiWrite
  rw [if_neg hlog, if_neg fun hstd => h (hstd.imp_right Or.inl),
    if_neg fun hsock => h (Or.inr (Or.inr hsock))]

/-- **The write convention on the log** fails exactly where the write
retracts. -/
theorem writeConvention_log (hs : WithinDisk s) :
    WriteConvention s logFd buf count ↔ WriteFits s logFd count := by
  have hfits : WriteFits s logFd count ↔ ¬ ((Words.intOfSize count).toInt < 0 ∧
      -(Words.intOfSize count).toInt ≤ s.diskOffset.toNat) := by
    unfold WriteFits
    simp [not_routed_logFd]
  rw [hfits]
  unfold WriteConvention hkPosixWrite
  simp only [Int32.toInt_toInt64, toInt64_eq_neg_one_iff]
  rcases posixApiWrite_log hs (Words.intOfSize count) with ⟨hge, -, hans, hoff⟩ | ⟨hout, heq⟩
  · rw [hans]
    constructor
    · rintro (⟨hneg, hsame⟩ | ⟨hpos, -⟩) ⟨hlt, -⟩
      · rw [hsame] at hoff
        omega
      · omega
    · intro h
      have hpos : 0 ≤ (Words.intOfSize count).toInt := by omega
      exact Or.inr ⟨hpos, toInt_intOfSize_le hpos, fun _ => hoff, fun h => absurd rfl h⟩
  -- a rejected count runs below zero or over the disk, so it does not retract
  · rw [heq]
    refine ⟨fun _ hret => ?_, fun _ => Or.inl ⟨rfl, rfl⟩⟩
    unfold WithinDisk at hs
    omega

/-- **The write convention off the log** fails exactly where a routed
descriptor is handed a count below `-1`. -/
theorem writeConvention_other (hfd : fd ≠ logFd) :
    WriteConvention s fd buf count ↔ WriteFits s fd count := by
  have hfits : WriteFits s fd count ↔ ¬ (Routed fd ∧ (Words.intOfSize count).toInt < -1) := by
    unfold WriteFits
    simp [hfd]
  rw [hfits]
  unfold WriteConvention hkPosixWrite
  simp only [Int32.toInt_toInt64, toInt64_eq_neg_one_iff]
  by_cases hr : Routed fd
  · rw [posixApiWrite_routed hr]
    constructor
    · rintro (⟨hneg, -⟩ | ⟨hpos, -⟩) ⟨-, hlt⟩
      · change (Words.intOfSize count).toInt = -1 at hneg
        omega
      · change 0 ≤ (Words.intOfSize count).toInt at hpos
        omega
    · intro h
      -- the count `-1` comes back as the error code it happens to be
      by_cases hneg : (Words.intOfSize count).toInt = -1
      · exact Or.inl ⟨hneg, rfl⟩
      · have hge : ¬ (Words.intOfSize count).toInt < -1 := fun hlt => h ⟨hr, hlt⟩
        have hpos : 0 ≤ (Words.intOfSize count).toInt := by omega
        exact Or.inr ⟨hpos, toInt_intOfSize_le hpos, fun h => absurd h hfd, fun _ => ⟨rfl, rfl⟩⟩
  · rw [posixApiWrite_unrouted hfd hr]
    exact ⟨fun _ h => hr h.1, fun _ => Or.inl ⟨rfl, rfl⟩⟩

/-- **The read convention** fails exactly where the log holds something
and the room is negative. -/
theorem readConvention_iff_readFits (hs : WithinDisk s) :
    ReadConvention s fd maxLen ↔ ReadFits s fd maxLen := by
  unfold ReadConvention ReadFits readFile
  rw [← Int32.toInt_inj]
  have hneg : (-1 : Int32).toInt = -1 := rfl
  rw [hneg]
  by_cases hfd : fd = logFd
  · subst hfd
    have hread := posixApiRead_log hs maxLen
    constructor
    · intro h hbad
      split at hread <;> omega
    · intro h
      have hroom : 0 ≤ maxLen.toInt ∨ s.diskOffset.toNat = 0 := by
        by_contra hc
        exact h ⟨rfl, by omega, by omega⟩
      right
      split at hread <;> omega
  · rw [posixApiRead_other hfd]
    exact ⟨fun _ hbad => hfd hbad.1, fun _ => Or.inr ⟨le_rfl, le_max_right _ _⟩⟩

/-- **The POSIX convention, exactly.** In every reachable state, for every
descriptor, every count and every room, the two wrappers keep the
convention if and only if the write and the read fit. -/
theorem posix_convention_iff (prior : Region arenaSize) (cs : List PosixCall) (fd : Int32)
    (buf : List UInt8) (count : UInt64) (maxLen : Int32) :
    (WriteConvention (server.final (boot prior) cs) fd buf count ↔
        WriteFits (server.final (boot prior) cs) fd count) ∧
      (ReadConvention (server.final (boot prior) cs) fd maxLen ↔
        ReadFits (server.final (boot prior) cs) fd maxLen) := by
  have hs : WithinDisk (server.final (boot prior) cs) := withinDisk_of_reachable ⟨cs, rfl⟩
  refine ⟨?_, readConvention_iff_readFits hs⟩
  by_cases hfd : fd = logFd
  · subst hfd
    exact writeConvention_log hs
  · exact writeConvention_other hfd

/-- `2 ^ 31` bytes for the console come back as `-2 ^ 31`, and a read of
`-1` bytes from a log of ten comes back with ten. -/
theorem posix_convention_fails :
    ¬ WriteConvention (server.final (boot Region.zero) []) 1
        (List.replicate 2147483648 65) 2147483648 ∧
      ¬ ReadConvention (server.final (boot Region.zero) [.write logFd 10]) logFd (-1) := by
  refine ⟨fun h => ?_, fun h => ?_⟩
  · unfold WriteConvention at h
    rcases h with ⟨h, -⟩ | ⟨h, -⟩
    · exact absurd h (by decide)
    · exact absurd h (by decide)
  · unfold ReadConvention at h
    exact absurd h (by decide)

end Vfs

end HkSystem
