import NetworkAnalysis.Json

/-!
# Timing of stages

A `Stopwatch` collects durations of named stages while it is switched on. Collecting them adds up the
samples of each stage, in the order in which the stages first appeared. Durations are given in
nanoseconds; every unit is cut off, never rounded.
-/

namespace NetworkAnalysis.Timing

/-- The durations of one stage. -/
structure Stage where
  /-- The name of the stage. -/
  name : String
  /-- How often it was run. -/
  count : Nat
  /-- The nanoseconds of all runs together. -/
  total : Nat
  /-- The nanoseconds of the longest run. -/
  longest : Nat
deriving DecidableEq, Repr

/-- The stages in the order in which they first appeared. -/
abbrev Summary := List Stage

/-- A collector of durations. -/
structure Stopwatch where
  /-- Whether durations are collected. -/
  running : Bool := false
  /-- The names and durations of the samples, the last one in front. -/
  samples : List (String × Nat) := []
deriving DecidableEq, Repr

namespace Stopwatch

/-- Switches the collector on, or off, which drops all samples. -/
def setRunning (w : Stopwatch) (running : Bool) : Stopwatch :=
  { running, samples := if running then w.samples else [] }

/-- Drops all samples. -/
def clear (w : Stopwatch) : Stopwatch :=
  { w with samples := [] }

/-- Takes the duration of a stage, if the collector is on. -/
def record (w : Stopwatch) (stage : String) (nanoseconds : Nat) : Stopwatch :=
  if w.running then { w with samples := (stage, nanoseconds) :: w.samples } else w

/-- Adds a sample to its stage, or begins a new stage at the end. -/
def addSample (summary : Summary) (sample : String × Nat) : Summary :=
  match summary with
  | [] => [{ name := sample.1, count := 1, total := sample.2, longest := sample.2 }]
  | stage :: rest =>
    if stage.name = sample.1 then
      { stage with
        count := stage.count + 1
        total := stage.total + sample.2
        longest := max stage.longest sample.2 } :: rest
    else
      stage :: addSample rest sample

/-- The stages of all samples. -/
def summary (w : Stopwatch) : Summary :=
  w.samples.reverse.foldl addSample []

/-- The stages of all samples, and the collector without them. -/
def collect (w : Stopwatch) : Summary × Stopwatch :=
  (w.summary, w.clear)

end Stopwatch

/-- A duration in seconds, milliseconds or microseconds, whichever unit is the largest that fits. -/
def durationText (nanoseconds : Nat) : String :=
  let micros := nanoseconds / 1000
  let thousandths (value : Nat) : String := Text.zeroPadded 3 (toString value)
  if 1000000 ≤ micros then
    toString (micros / 1000000) ++ "." ++ thousandths (micros % 1000000 / 1000) ++ "s"
  else if 1000 ≤ micros then
    toString (micros / 1000) ++ "." ++ thousandths (micros % 1000) ++ "ms"
  else
    toString micros ++ "µs"

namespace Summary

/-- The milliseconds of a stage, zero if it never ran. -/
def millis (s : Summary) (name : String) : Nat :=
  match s.find? fun stage => stage.name == name with
  | none => 0
  | some stage => stage.total / 1000000

/-- A row of the table of stages. -/
def row (stage : Stage) : String :=
  Text.padRight 28 stage.name ++ " " ++ Text.padLeft 6 (toString stage.count) ++ " "
    ++ Text.padLeft 10 (durationText stage.total) ++ " "
    ++ Text.padLeft 10 (durationText stage.longest) ++ "\n"

/-- The table of stages. -/
def table (s : Summary) : String :=
  if s.isEmpty then "No timing samples recorded."
  else
    "stage                        count      total        max\n" ++ Text.repeated 56 '-' ++ "\n"
      ++ String.join (s.map row)

/-- The stages as a JSON document. -/
def toJson (s : Summary) : Json :=
  .object [("stages", .list (s.map fun stage =>
    .object
      [("count", .nat stage.count), ("max_us", .nat (stage.longest / 1000)),
       ("name", .text stage.name), ("total_ms", .nat (stage.total / 1000000))]))]

end Summary

/-- Whether the value of a variable switches something on. -/
def isTruthy (value : String) : Bool :=
  ["1", "true", "yes", "on"].contains (String.ofList (value.toList.map Char.toLower))

end NetworkAnalysis.Timing
