import NetworkAnalysis.Command.Session
import NetworkAnalysis.Command.Usage

/-!
# The program

The world of files, clock and environment, and the entry point: it reads the arguments, carries out the
invocation and prints what it leaves.
-/

namespace NetworkAnalysis.Program

open Command

/-- The number of a system error, which is positive whether the caller reports it so or negated. -/
def errorNumber (number : UInt32) : Nat :=
  min number.toNat (0 - number).toNat

/-- The fault behind an error of the operating system. -/
def faultOf (e : IO.Error) : FileFault :=
  match e with
  | .noFileOrDirectory .. => .missing
  | .inappropriateType _ number _ => if errorNumber number = 20 then .notFolder else .folder
  | .permissionDenied .. => .forbidden
  | .noSuchThing _ number _ => if errorNumber number = 6 then .noDevice else .other (toString e)
  | .invalidArgument _ number _ => if errorNumber number = 36 then .nameTooLong else .other (toString e)
  | .resourceExhausted _ number _ => if errorNumber number = 28 then .noRoom else .other (toString e)
  | _ => .other (toString e)

/-- Reads a file. -/
def readFile (path : String) : IO (Except FileFault ByteArray) := do
  try
    return .ok (← IO.FS.readBinFile path)
  catch e =>
    return .error (faultOf e)

/-- Carries out a step of writing a file. -/
def writeStep {β : Type} (step : WriteStep) (action : IO β) : ExceptT WriteFault IO β := do
  match ← (action.toBaseIO : IO _) with
  | .ok value => pure value
  | .error e => throw { step, reason := faultOf e }

/-- Writes a file. -/
def writeFile (path text : String) : ExceptT WriteFault IO Unit := do
  let handle ← writeStep .create (IO.FS.Handle.mk path .write)
  writeStep .write (handle.putStr text)
  writeStep .flush handle.flush

/-- The number of workers that the machine offers, one where it does not say. -/
def countProcessors : IO Nat := do
  match ← readFile "/proc/cpuinfo" with
  | .error _ => return 1
  | .ok bytes =>
    let lines := ((String.fromUTF8? bytes).getD "").splitOn "\n"
    return max 1 (lines.countP fun line => line.startsWith "processor")

/-- The world of the operating system. -/
def world : World IO where
  read := readFile
  write path text := (writeFile path text).run
  clock := IO.monoNanosNow
  processors := countProcessors

end NetworkAnalysis.Program

open NetworkAnalysis NetworkAnalysis.Command in
/-- Carries out the invocation that the arguments make. The exit code is zero after success, one after a
failure, and two if there is no invocation. -/
def main (arguments : List String) : IO UInt32 := do
  match Invocation.ofArguments arguments with
  | .error .misuse =>
    IO.eprint Stop.misuse.text
    return 2
  | .error stop =>
    IO.print stop.text
    return 0
  | .ok invocation =>
    if invocation.verbose then IO.eprintln "Verbose mode enabled"
    let environment : Environment :=
      { format := ← IO.getEnv "GALGO_FORMAT", timing := ← IO.getEnv "GALGO_TIMING" }
    let ended ← invocation.run Program.world environment
    IO.print ended.output
    IO.eprint (timingReport ended.stages)
    IO.eprint ended.errors
    return if ended.failed then 1 else 0
