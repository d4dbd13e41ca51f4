import HkSystem.Vfs.Accounting
import HkSystem.Vfs.Model.Layer
/-!
# VFS — the log and everything else

Only reads and writes of `LOG_FD` have to do with the log. Whatever else the Worker
does through its POSIX layer leaves no trace in the server, and is answered without a
look at it: nothing flows from the prints and the sockets to the log, nor back
(`log_isolated`).
-/

namespace HkSystem

namespace Vfs

/-- The call is a read or a write of the log. -/
def LayerCall.onLog : LayerCall → Bool
  | .write fd _ _ | .read fd _ => fd = logFd
  | .print _ | .open _ => false

/-- A write of another descriptor changes nothing, and its answer is that of any server. -/
theorem posixApiWrite_of_ne {fd : Int32} (h : fd ≠ logFd) (s t : Server) (count : Int32) :
    posixApiWrite s fd count = (s, (posixApiWrite t fd count).2) := by
  refine Prod.ext (posixApiWrite_other h) ?_
  unfold posixApiWrite
  rw [if_neg h, if_neg h]
  split_ifs <;> rfl

theorem layer_of_not_onLog {c : LayerCall} (h : c.onLog = false) (s t : Server) :
    layer.step s c = (s, (layer.step t c).2) := by
  cases c with
  | print formatted =>
    have hsame := posixApiWrite_of_ne (show (1 : Int32) ≠ logFd by decide) s t
      (Words.intOfSize (UInt64.ofNat (strlen (vsnprintf 256 formatted))))
    exact congrArg (fun r => (r.1, none)) hsame
  | write fd buf n =>
    have hsame := posixApiWrite_of_ne (of_decide_eq_false h) s t (Words.intOfSize n)
    exact congrArg (fun r => (r.1, some r.2.toInt64)) hsame
  | «open» path => rfl
  | read fd maxLen =>
    have hlog : fd ≠ logFd := of_decide_eq_false h
    simp only [layer, readFile, posixApiRead_other hlog]

/-- **The log is isolated.** Leave out of any run of the layer what is not a read or a
write of the log: the server ends as it did, and the log's calls find it as they did and
are answered as they were. What was left out would have been answered the same by any
server. -/
theorem log_isolated (s : Server) (calls : List LayerCall) :
    layer.final s (calls.filter (·.onLog)) = layer.final s calls ∧
      layer.history s (calls.filter (·.onLog)) =
        (layer.history s calls).filter (·.call.onLog) ∧
      ∀ e ∈ layer.history s calls, e.call.onLog = false → ∀ t, e.answer = (layer.step t e.call).2 := by
  have hpure : ∀ s c, LayerCall.onLog c = false → (layer.step s c).1 = s := fun s c h =>
    congrArg Prod.fst (layer_of_not_onLog h s s)
  refine ⟨Machine.final_filter hpure, Machine.history_filter hpure, fun e he h t => ?_⟩
  rw [(Machine.step_of_mem he).1, layer_of_not_onLog h e.pre t]

/-- Three bytes of log after a message to a socket: only they are counted, and the
message is answered as it would be with seven bytes in the log. -/
theorem log_isolated_socket :
    (layer.final (boot .zero) [.write 101 [0x41] 1, .write logFd [1, 2, 3] 3]).diskOffset = 3 ∧
      (layer.event (boot .zero) (.write 101 [0x41] 1)).answer =
        (layer.step ⟨7, .zero⟩ (.write 101 [0x41] 1)).2 := by
  obtain ⟨hfinal, -, hanswer⟩ :=
    log_isolated (boot .zero) [.write 101 [0x41] 1, .write logFd [1, 2, 3] 3]
  refine ⟨?_, hanswer _ (List.mem_cons_self ..) rfl _⟩
  rw [← hfinal]
  rfl

end Vfs

end HkSystem
