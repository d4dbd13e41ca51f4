import HkSystem.Vfs.Accounting
/-!
# VFS — which descriptors are open

`posix_api_open` checks the path and returns a constant. The server keeps no
table of descriptors: `posix_api_read` and `posix_api_write` compare the
number they are given with `LOG_FD`, and `posix_api_close` answers 0 to any
number. So the check of the path guards the log exactly as far as the caller
keeps the discipline by itself (`disciplined_iff`).
-/

namespace HkSystem

namespace Vfs

variable {s : Server} {fd count : Int32} {c : PosixCall} {cs : List PosixCall}
variable {prior : Region arenaSize} {e : Event Server PosixCall Int32}

/-! ## The discipline -/

/-- The call is an open, and what it returns is a descriptor. -/
def Opens (fd : Int32) (e : Event Server PosixCall Int32) : Prop :=
  (∃ path flags, e.call = .open path flags) ∧ e.answer = fd ∧ 0 ≤ fd.toInt

/-- The call closes the descriptor. -/
def Closes (fd : Int32) (e : Event Server PosixCall Int32) : Prop := e.call = .close fd

/-- An open has returned the descriptor, and it has not been closed since. -/
def IsOpen (fd : Int32) (history : List (Event Server PosixCall Int32)) : Prop :=
  Since (Opens fd) (Closes fd) history

/-- An open of the log has returned `LOG_FD`, and it has not been closed since. -/
def LogIsOpen (history : List (Event Server PosixCall Int32)) : Prop :=
  Since (fun e => (∃ flags, e.call = .open "/var/log/worker.log" flags) ∧ e.answer = logFd)
    (Closes logFd) history

/-- A read or a write of the log that returns something, or moves the offset. -/
def Succeeds (e : Event Server PosixCall Int32) : Prop :=
  ((∃ count, e.call = .write logFd count) ∨ ∃ count, e.call = .read logFd count) ∧
    (0 < e.answer ∨ e.post.diskOffset ≠ e.pre.diskOffset)

/-- **The discipline of descriptors**, throughout a run. -/
structure Disciplined (b : Server) (cs : List PosixCall) : Prop where
  /-- The log is reached only while it is open. -/
  guarded : ∀ before e after, server.history b cs = before ++ e :: after →
    Succeeds e → LogIsOpen before
  /-- A close of what is not open is an error. -/
  closing : ∀ before e after, server.history b cs = before ++ e :: after →
    ∀ fd, e.call = .close fd → ¬ IsOpen fd before → e.answer < 0

/-! ## What the caller does -/

/-- Whether the caller holds the log, after one more call. -/
def hold (held : Bool) : PosixCall → Bool
  | .open path _ => if path = "/var/log/worker.log" then true else held
  | .close fd => if fd = logFd then false else held
  | .read _ _ | .write _ _ => held

/-- Whether it holds the log after some calls: it has opened it, and has not
closed it since. -/
def held (cs : List PosixCall) : Bool := cs.foldl hold false

theorem held_concat (cs : List PosixCall) (c : PosixCall) :
    held (cs ++ [c]) = hold (held cs) c := by
  simp [held, List.foldl_append]

/-- A call that reaches the log: a write that is accepted or a read that finds
something, and that is not of zero bytes. -/
def Reaches (s : Server) : PosixCall → Prop
  | .write fd count => fd = logFd ∧ count ≠ 0 ∧ 0 ≤ s.diskOffset.toNat + count.toInt ∧
      s.diskOffset.toNat + count.toInt < diskSize.toNat
  | .read fd count => fd = logFd ∧ count ≠ 0 ∧ 0 < s.diskOffset.toNat
  | .open _ _ | .close _ => False

theorem toInt_ne_zero (h : count ≠ 0) : count.toInt ≠ 0 := fun hz =>
  h (Int32.toInt_inj.1 (hz.trans Int32.toInt_zero.symm))

/-- A read moves nothing, so it succeeds where it returns something. -/
theorem succeeds_read_iff (hs : WithinDisk s) :
    Succeeds (server.event s (.read fd count)) ↔ Reaches s (.read fd count) := by
  have hsucceeds : Succeeds (server.event s (.read fd count)) ↔
      fd = logFd ∧ 0 < (posixApiRead s fd count).toInt := by
    have hpost : (server.event s (.read fd count)).post = s := rfl
    have hans : (server.event s (.read fd count)).answer = posixApiRead s fd count := rfl
    rw [Succeeds, hpost, hans, Int32.lt_iff_toInt_lt, Int32.toInt_zero]
    simp [Machine.event]
  rw [hsucceeds, Reaches]
  refine and_congr_right fun hfd => ?_
  subst hfd
  have hread := posixApiRead_log hs count
  constructor
  · intro hpos
    refine ⟨?_, ?_⟩
    · rintro rfl
      rw [Int32.toInt_zero] at hread
      split at hread <;> omega
    · split at hread <;> omega
  · rintro ⟨hne, hoff⟩
    have := toInt_ne_zero hne
    split at hread <;> omega

/-- A write succeeds where it is accepted, unless it is of nothing. -/
theorem succeeds_write_iff (hs : WithinDisk s) :
    Succeeds (server.event s (.write fd count)) ↔ Reaches s (.write fd count) := by
  have hsucceeds : Succeeds (server.event s (.write fd count)) ↔
      fd = logFd ∧ (0 < (posixApiWrite s fd count).2.toInt ∨
        (posixApiWrite s fd count).1.diskOffset.toNat ≠ s.diskOffset.toNat) := by
    have hpost : (server.event s (.write fd count)).post = (posixApiWrite s fd count).1 := rfl
    have hans : (server.event s (.write fd count)).answer = (posixApiWrite s fd count).2 := rfl
    have hpre : (server.event s (.write fd count)).pre = s := rfl
    rw [Succeeds, hpost, hpre, hans, Int32.lt_iff_toInt_lt, Int32.toInt_zero, Ne,
      ← UInt32.toNat_inj]
    simp [Machine.event]
  rw [hsucceeds, Reaches]
  refine and_congr_right fun hfd => ?_
  subst hfd
  rcases posixApiWrite_log hs count with ⟨hge, hlt, hans, hoff⟩ | ⟨hout, heq⟩
  · rw [hans]
    constructor
    · intro h
      refine ⟨?_, hge, hlt⟩
      rintro rfl
      rw [Int32.toInt_zero] at h hoff
      omega
    · rintro ⟨hne, -⟩
      have := toInt_ne_zero hne
      omega
  · rw [heq]
    constructor
    · rintro (hpos | hne)
      · exact absurd (show 0 < (-1 : Int32).toInt from hpos) (by decide)
      · exact absurd rfl hne
    · rintro ⟨-, hge, hlt⟩
      omega

/-- **The calls that succeed are those that reach the log.** -/
theorem succeeds_iff (hs : WithinDisk s) (c : PosixCall) :
    Succeeds (server.event s c) ↔ Reaches s c := by
  cases c with
  | «open» path flags => simp [Succeeds, Reaches, Machine.event]
  | close fd => simp [Succeeds, Reaches, Machine.event]
  | read fd count => exact succeeds_read_iff hs
  | write fd count => exact succeeds_write_iff hs

/-! ## What is open -/

/-- Only an open of the log returns a descriptor. -/
theorem opens_iff {b : Server} (h : e ∈ server.history b cs) :
    Opens fd e ↔ fd = logFd ∧
      (∃ flags, e.call = .open "/var/log/worker.log" flags) ∧ e.answer = logFd := by
  obtain ⟨hans, -⟩ := Machine.step_of_mem h
  constructor
  · rintro ⟨⟨path, flags, hcall⟩, hfd, hpos⟩
    rw [hcall] at hans
    change e.answer = posixApiOpen path flags at hans
    unfold posixApiOpen at hans
    split at hans
    · next hpath =>
      rw [hpath] at hcall
      exact ⟨hfd.symm.trans hans, ⟨flags, hcall⟩, hans⟩
    · rw [← hfd, hans] at hpos
      exact absurd hpos (by decide)
  · rintro ⟨rfl, ⟨flags, hcall⟩, hlog⟩
    exact ⟨⟨_, flags, hcall⟩, hlog, by decide⟩

/-- No other descriptor is ever open. -/
theorem isOpen_iff (b : Server) (cs : List PosixCall) :
    IsOpen fd (server.history b cs) ↔ fd = logFd ∧ LogIsOpen (server.history b cs) := by
  by_cases hfd : fd = logFd
  · subst hfd
    rw [IsOpen, since_congr fun e he => (opens_iff he).trans (and_iff_right rfl)]
    exact (and_iff_right rfl).symm
  · refine iff_of_false (fun hopen => ?_) fun h => hfd h.1
    obtain ⟨e, he, hopens⟩ := hopen.exists
    exact hfd ((opens_iff he).1 hopens).1

/-- **The log is open exactly while the caller holds it.** -/
theorem logIsOpen_iff (b : Server) (cs : List PosixCall) :
    LogIsOpen (server.history b cs) ↔ held cs = true := by
  induction cs using List.reverseRecOn with
  | nil => exact iff_of_false not_since_nil (by decide)
  | append_singleton cs c ih =>
    rw [Machine.history_append, Machine.history_cons, Machine.history_nil, LogIsOpen, since_concat,
      ← LogIsOpen, ih, held_concat]
    cases c with
    | «open» path flags =>
      by_cases hpath : path = "/var/log/worker.log"
      · subst hpath
        exact iff_of_true (Or.inl ⟨⟨flags, rfl⟩, rfl⟩) rfl
      · simp [hold, hpath, Closes, Machine.event]
    | close fd => simp [hold, Closes, Machine.event, and_comm]
    | read fd count => simp [hold, Closes, Machine.event]
    | write fd count => simp [hold, Closes, Machine.event]

/-! ## The caller's discipline is all there is -/

/-- A call made when the log is not held, and that reaches it. -/
theorem not_disciplined_of_reaches {xs ys : List PosixCall}
    (h : Reaches (server.final (boot prior) xs) c) (hheld : held xs = false) :
    ¬ Disciplined (boot prior) (xs ++ c :: ys) := by
  intro hdisc
  have hs : WithinDisk (server.final (boot prior) xs) := withinDisk_of_reachable ⟨xs, rfl⟩
  have hopen := hdisc.guarded _ _ _ (by rw [Machine.history_append, Machine.history_cons])
    ((succeeds_iff hs c).2 h)
  rw [logIsOpen_iff, hheld] at hopen
  cases hopen

/-- **The discipline holds exactly where the caller keeps it**: every call that
reaches the log is made while the caller holds it, and nothing is closed but
the log, while it is held. -/
theorem disciplined_iff (prior : Region arenaSize) (cs : List PosixCall) :
    Disciplined (boot prior) cs ↔ ∀ xs c ys, cs = xs ++ c :: ys →
      (Reaches (server.final (boot prior) xs) c → held xs = true) ∧
        ∀ fd, c = .close fd → fd = logFd ∧ held xs = true := by
  constructor
  · rintro hdisc xs c ys rfl
    refine ⟨fun hreach => ?_, fun fd hclose => ?_⟩
    · by_contra hheld
      exact not_disciplined_of_reaches hreach (by simpa using hheld) hdisc
    · -- a close is never answered with an error
      rw [← logIsOpen_iff (boot prior), ← isOpen_iff]
      by_contra hnot
      have herr := hdisc.closing _ _ _ (by rw [Machine.history_append, Machine.history_cons]) fd
        hclose hnot
      subst hclose
      exact absurd (show (0 : Int32) < 0 from herr) (by decide)
  · intro h
    refine ⟨fun before e after hsplit hsucc => ?_, fun before e after hsplit fd hclose hnot => ?_⟩
    · obtain ⟨xs, ys, hcs, rfl, hpre⟩ := Machine.history_split hsplit
      have hs : WithinDisk e.pre := hpre ▸ withinDisk_of_reachable ⟨xs, rfl⟩
      rw [Machine.eq_event_of_mem (Machine.mem_of_split hsplit), succeeds_iff hs, hpre] at hsucc
      exact (logIsOpen_iff _ _).2 ((h xs e.call ys hcs).1 hsucc)
    · obtain ⟨xs, ys, hcs, rfl, -⟩ := Machine.history_split hsplit
      obtain ⟨hfd, hheld⟩ := (h xs e.call ys hcs).2 fd hclose
      exact absurd ((isOpen_iff _ _).2 ⟨hfd, (logIsOpen_iff _ _).2 hheld⟩) hnot

/-- The first call after boot writes one byte to descriptor 5, which nothing has
opened. -/
theorem not_disciplined_guess : ¬ Disciplined (boot Region.zero) [.write logFd 1] := by
  have hreach : Reaches (server.final (boot Region.zero) []) (.write logFd 1) :=
    ⟨rfl, by decide, by decide, by decide⟩
  exact not_disciplined_of_reaches hreach rfl

end Vfs

end HkSystem
