import HkSystem.Vfs.Accounting
/-!
# VFS — the log as a store

What the log is for is an append-only byte string: `written` is that
string, and `AppendOnly` says the region holds it. Neither side copies the
payload: `hk_posix_write` never reads its buffer, and the server takes the
bytes to be in `virtual_disk_arena` already. So the region keeps the zeros
it was mounted with, and holds the log exactly where the log is all zeros.
-/

namespace HkSystem

namespace Vfs

variable {s : Server} {c : WriteCall} {cs : List WriteCall} {prior : Region arenaSize}

/-- The log a list of writes describes: the buffers of its writes to
`LOG_FD`, one after the other. -/
def written (cs : List WriteCall) : List UInt8 :=
  (cs.filter (·.fd = logFd)).flatMap fun c => c.buf.take c.count.toNat

/-- Every write to the log is given as many bytes as it counts, and
returns that count. -/
def Accepted (b : Server) (cs : List WriteCall) : Prop :=
  ∀ e ∈ posixLayer.history b cs, e.call.fd = logFd →
    e.call.buf.length = e.call.count.toNat ∧ e.answer.toInt = e.call.count.toNat

/-- **The region holds the log**: its first `disk_offset` bytes are the
accepted buffers, in order. -/
def AppendOnly (b : Server) (cs : List WriteCall) : Prop :=
  (posixLayer.final b cs).virtualDiskArena.first (posixLayer.final b cs).diskOffset.toNat =
    written cs

theorem written_cons_log (h : c.fd = logFd) :
    written (c :: cs) = c.buf.take c.count.toNat ++ written cs := by
  simp [written, h]

theorem written_cons_other (h : c.fd ≠ logFd) : written (c :: cs) = written cs := by
  simp [written, h]

/-- No write touches the region. -/
theorem arena_final : (posixLayer.final s cs).virtualDiskArena = s.virtualDiskArena := by
  induction cs generalizing s with
  | nil => rfl
  | cons c cs ih => rw [Machine.final_cons, ih]; exact posixApiWrite_arena

/-- A write to the log that returns its count advances the offset by it. -/
theorem diskOffset_of_accepted (hs : WithinDisk s)
    (h : (hkPosixWrite s logFd c.buf c.count).2.toInt = c.count.toNat) :
    (hkPosixWrite s logFd c.buf c.count).1.diskOffset.toNat =
      s.diskOffset.toNat + c.count.toNat := by
  unfold hkPosixWrite at h ⊢
  simp only [Int32.toInt_toInt64] at h ⊢
  rcases posixApiWrite_log hs (Words.intOfSize c.count) with ⟨-, -, hans, hoff⟩ | ⟨-, heq⟩
  · rw [hans] at h
    omega
  · rw [heq] at h
    change (-1 : ℤ) = _ at h
    omega

/-- **The offset is the length of the log.** -/
theorem diskOffset_final (hs : WithinDisk s) (h : Accepted s cs) :
    (posixLayer.final s cs).diskOffset.toNat = s.diskOffset.toNat + (written cs).length := by
  induction cs generalizing s with
  | nil => rfl
  | cons c cs ih =>
    unfold Accepted at h
    rw [Machine.history_cons, List.forall_mem_cons] at h
    have hs' : WithinDisk (posixLayer.step s c).1 := withinDisk_posixApiWrite hs _ _
    rw [Machine.final_cons, ih hs' h.2]
    by_cases hfd : c.fd = logFd
    · obtain ⟨hlen, hans⟩ : c.buf.length = c.count.toNat ∧
          (hkPosixWrite s c.fd c.buf c.count).2.toInt = c.count.toNat := h.1 hfd
      change (hkPosixWrite s c.fd c.buf c.count).1.diskOffset.toNat + _ = _
      rw [hfd] at hans ⊢
      rw [diskOffset_of_accepted hs hans, written_cons_log hfd, List.length_append,
        List.length_take, hlen, Nat.min_self, Nat.add_assoc]
    -- off the log nothing moves and nothing is logged
    · have hsame : (posixLayer.step s c).1 = s := posixApiWrite_other hfd
      rw [hsame, written_cons_other hfd]

/-- A log is all zeros exactly when every buffer written to it is. -/
theorem written_forall_zero_iff
    (hlen : ∀ c ∈ cs, c.fd = logFd → c.buf.length = c.count.toNat) :
    (∀ b ∈ written cs, b = 0) ↔ ∀ c ∈ cs, c.fd = logFd → ∀ b ∈ c.buf, b = 0 := by
  have htake : ∀ c ∈ cs, c.fd = logFd → c.buf.take c.count.toNat = c.buf := fun c hc hfd =>
    List.take_of_length_le (hlen c hc hfd).le
  constructor
  · intro h c hc hfd b hb
    refine h b (List.mem_flatMap.2 ⟨c, by simp [hc, hfd], ?_⟩)
    rw [htake c hc hfd]
    exact hb
  · intro h b hb
    obtain ⟨c, hc, hbc⟩ := List.mem_flatMap.1 hb
    rw [List.mem_filter] at hc
    have hfd : c.fd = logFd := by simpa using hc.2
    exact h c hc.1 hfd b (List.mem_of_mem_take hbc)

/-- **The region holds the log exactly where the log is all zeros.** -/
theorem appendOnly_iff (prior : Region arenaSize) (cs : List WriteCall)
    (h : Accepted (boot prior) cs) :
    AppendOnly (boot prior) cs ↔ ∀ c ∈ cs, c.fd = logFd → ∀ b ∈ c.buf, b = 0 := by
  have hlen : ∀ c ∈ cs, c.fd = logFd → c.buf.length = c.count.toNat := by
    intro c hc hfd
    obtain ⟨e, he, rfl⟩ := Machine.exists_event_of_mem (M := posixLayer) (s := boot prior) hc
    exact (h e he hfd).1
  have hoff : (posixLayer.final (boot prior) cs).diskOffset.toNat = (written cs).length := by
    rw [diskOffset_final withinDisk_boot h]
    exact Nat.zero_add _
  have hfits : (written cs).length ≤ arenaSize := by
    have hin : WithinDisk (posixLayer.final (boot prior) cs) :=
      Machine.inv_final withinDisk_boot fun _ _ hs => withinDisk_posixApiWrite hs _ _
    unfold WithinDisk at hin
    rw [hoff, toNat_diskSize] at hin
    unfold arenaSize
    omega
  have hfirst : (posixLayer.final (boot prior) cs).virtualDiskArena.first (written cs).length =
      List.replicate (written cs).length 0 := by
    rw [arena_final]
    exact Region.first_of_zero hfits
  rw [AppendOnly, hoff, hfirst, ← written_forall_zero_iff hlen, eq_comm, List.eq_replicate_iff]
  exact ⟨fun hz => hz.2, fun hz => ⟨rfl, hz⟩⟩

/-- Two zero bytes logged, with a console write after them. -/
theorem appendOnly_zeros :
    Accepted (boot Region.zero) [⟨logFd, [0, 0], 2⟩, ⟨1, [65], 1⟩] ∧
      AppendOnly (boot Region.zero) [⟨logFd, [0, 0], 2⟩, ⟨1, [65], 1⟩] := by
  have hacc : Accepted (boot Region.zero) [⟨logFd, [0, 0], 2⟩, ⟨1, [65], 1⟩] := by
    unfold Accepted
    simp only [Machine.history_cons, Machine.history_nil, List.forall_mem_cons]
    refine ⟨fun _ => ⟨rfl, rfl⟩, fun hfd => absurd hfd (by decide), by simp⟩
  refine ⟨hacc, (appendOnly_iff Region.zero _ hacc).2 ?_⟩
  intro c hc hfd b hb
  rcases List.mem_pair.1 hc with rfl | rfl
  · rcases List.mem_pair.1 hb with rfl | rfl <;> rfl
  -- the console write is not on the log
  · exact absurd hfd (by decide)

/-- One byte logged, and accepted, and not in the region. -/
theorem not_appendOnly_byte :
    Accepted (boot Region.zero) [⟨logFd, [65], 1⟩] ∧
      ¬ AppendOnly (boot Region.zero) [⟨logFd, [65], 1⟩] := by
  refine ⟨?_, ?_⟩
  · unfold Accepted
    simp only [Machine.history_cons, Machine.history_nil, List.forall_mem_cons]
    exact ⟨fun _ => ⟨rfl, rfl⟩, by simp⟩
  · unfold AppendOnly
    decide

end Vfs

end HkSystem
