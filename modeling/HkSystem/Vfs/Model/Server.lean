import HkSystem.Common.Machine
import HkSystem.Common.Region
import HkSystem.Common.Words
/-!
# VFS — the server and the Worker's POSIX layer

`vfs_server.c` and `posix_layer.c`. The server keeps one counter,
`disk_offset`, and maps the dataport `virtual_disk_arena`, which
`link_vfs_io` makes the Worker's `fs_buffer`. The four handlers of
`PosixAPI` are the calls of a machine; the console text they print is
left out.
-/

namespace HkSystem

namespace Vfs

/-- `DISK_SIZE`. -/
def diskSize : UInt32 := 1048576

/-- `LOG_FD`. -/
def logFd : Int32 := 5

/-- `SOCKET_FD_BASE`. -/
def socketFdBase : Int32 := 100

/-- The bytes of `dataport Buf(1048576)`, on either side of `link_vfs_io`. -/
def arenaSize : ℕ := 1048576

/-- The server's state: its static counter and its dataport. -/
structure Server where
  diskOffset : UInt32
  virtualDiskArena : Region arenaSize

/-- `posix_api_open`. -/
def posixApiOpen (path : String) (_flags : Int32) : Int32 :=
  if path = "/var/log/worker.log" then logFd else -1

/-- `posix_api_read`. -/
def posixApiRead (s : Server) (fd count : Int32) : Int32 :=
  if fd = logFd ∧ s.diskOffset > 0 then
    if count.toUInt32 < s.diskOffset then count else s.diskOffset.toInt32
  else 0

/-- `posix_api_write`. -/
def posixApiWrite (s : Server) (fd count : Int32) : Server × Int32 :=
  if fd = logFd then
    if s.diskOffset + count.toUInt32 ≥ diskSize then (s, -1)
    -- the payload is taken to be in `virtual_disk_arena` already
    else ({ s with diskOffset := s.diskOffset + count.toUInt32 }, count)
  else if fd = 1 ∨ fd = 2 then (s, count)
  else if fd ≥ socketFdBase then (s, count)
  else (s, -1)

/-- `posix_api_close`. -/
def posixApiClose (_fd : Int32) : Int32 := 0

/-- `run`, which zeroes the RAM disk. The component is declared without `control`, so no
thread calls it. -/
def run (s : Server) : Server := { s with virtualDiskArena := Region.zero }

/-- The server once it has started, whatever was in the frames of its dataport: they are
zeroed when they are allocated, which leaves what `run` would. -/
def boot (prior : Region arenaSize) : Server := run ⟨0, prior⟩

/-- A call over `PosixAPI`. -/
inductive PosixCall where
  | open (path : String) (flags : Int32)
  | read (fd count : Int32)
  | write (fd count : Int32)
  | close (fd : Int32)

/-- The server as a machine: one handler a call. -/
def server : Machine Server PosixCall Int32 where
  step s
    | .open path flags => (s, posixApiOpen path flags)
    | .read fd count => (s, posixApiRead s fd count)
    | .write fd count => posixApiWrite s fd count
    | .close fd => (s, posixApiClose fd)

/-! ## The Worker's side -/

/-- `hk_posix_write`. The buffer is an argument the function never reads:
only the truncated count goes over the RPC. -/
def hkPosixWrite (s : Server) (fd : Int32) (_buf : List UInt8) (count : UInt64) :
    Server × Int64 :=
  let r := posixApiWrite s fd (Words.intOfSize count)
  (r.1, r.2.toInt64)

/-- `open_file`. -/
def openFile (path : String) : Int32 := posixApiOpen path 0

/-- `read_file`. -/
def readFile (s : Server) (fd : Int32) (maxLen : Int32) : Int32 := posixApiRead s fd maxLen

/-- A call of `hk_posix_write`: the descriptor, the bytes at `buf`, and the
count. -/
structure WriteCall where
  fd : Int32
  buf : List UInt8
  count : UInt64

/-- The POSIX layer in front of the server, driven by writes. -/
def posixLayer : Machine Server WriteCall Int64 where
  step s c := hkPosixWrite s c.fd c.buf c.count

end Vfs

end HkSystem
