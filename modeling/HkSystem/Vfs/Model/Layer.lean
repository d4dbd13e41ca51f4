import HkSystem.Vfs.Model.Server
/-!
# The Worker's POSIX layer

`posix_layer.c` as a whole: prints, writes, opens and reads, each of them one call of
the server. The text that a format and its arguments come to is a parameter of
`print_posix`.
-/

namespace HkSystem

namespace Vfs

/-- `vsnprintf` into a buffer of this size: as much of the text as leaves room for the
zero at its end. -/
def vsnprintf (size : ℕ) (formatted : List UInt8) : List UInt8 := formatted.take (size - 1) ++ [0]

/-- The number of bytes before the first zero. -/
def strlen (buffer : List UInt8) : ℕ := (buffer.takeWhile (· ≠ 0)).length

/-- `print_posix`. -/
def printPosix (s : Server) (formatted : List UInt8) : Server :=
  let buffer := vsnprintf 256 formatted
  (hkPosixWrite s 1 buffer (UInt64.ofNat (strlen buffer))).1

/-- A call of the layer. -/
inductive LayerCall where
  | print (formatted : List UInt8)
  | write (fd : Int32) (buf : List UInt8) (count : UInt64)
  | open (path : String)
  | read (fd maxLen : Int32)

/-- The layer in front of the server. `print_posix` answers nothing. -/
def layer : Machine Server LayerCall (Option Int64) where
  step s
    | .print formatted => (printPosix s formatted, none)
    | .write fd buf count => ((hkPosixWrite s fd buf count).1, some (hkPosixWrite s fd buf count).2)
    | .open path => (s, some (openFile path).toInt64)
    | .read fd maxLen => (s, some (readFile s fd maxLen).toInt64)

end Vfs

end HkSystem
