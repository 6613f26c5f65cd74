/-!
# The world of a session

All that a session needs from outside: files to read and to write, the time, and the number of workers.
The faults of files are causes here; their wording names the number that the operating system gives them.
-/

namespace NetworkAnalysis.Command

/-- Why a file could not be used. -/
inductive FileFault where
  /-- There is no such file, or no such folder for it. -/
  | missing
  /-- A part of the path is no folder. -/
  | notFolder
  /-- The path is a folder. -/
  | folder
  /-- Nothing stands behind the device. -/
  | noDevice
  /-- The file may not be used. -/
  | forbidden
  /-- The path, or a name in it, is too long. -/
  | nameTooLong
  /-- There is no room for what is written. -/
  | noRoom
  /-- Any other reason, in its own words. -/
  | other (reason : String)
deriving DecidableEq, Repr

/-- The wording of a fault, with its number in the operating system. -/
def FileFault.message : FileFault → String
  | missing => "No such file or directory (os error 2)"
  | notFolder => "Not a directory (os error 20)"
  | folder => "Is a directory (os error 21)"
  | noDevice => "No such device or address (os error 6)"
  | forbidden => "Permission denied (os error 13)"
  | nameTooLong => "File name too long (os error 36)"
  | noRoom => "No space left on device (os error 28)"
  | other reason => reason

/-- The steps of writing a file. -/
inductive WriteStep where
  /-- The file is made, or emptied. -/
  | create
  /-- A full buffer is handed on. -/
  | write
  /-- What is left in the buffer is handed on. -/
  | flush
deriving DecidableEq, Repr

/-- The verb for a step. -/
def WriteStep.verb : WriteStep → String
  | create => "create"
  | write => "write"
  | flush => "flush"

/-- The bytes that are buffered before they are handed on. -/
def bufferSize : Nat := 8192

/-- Why writing a file failed. -/
structure WriteFault where
  /-- The step that failed. -/
  step : WriteStep
  /-- The reason. -/
  reason : FileFault
deriving DecidableEq, Repr

/-- What a session needs from outside. -/
structure World (m : Type → Type) where
  /-- Reads a file. -/
  read : String → m (Except FileFault ByteArray)
  /-- Writes a file, in place of what it held. -/
  write : String → String → m (Except WriteFault Unit)
  /-- The time, in nanoseconds since some instant. -/
  clock : m Nat
  /-- The number of workers that the machine offers. -/
  processors : m Nat

end NetworkAnalysis.Command
