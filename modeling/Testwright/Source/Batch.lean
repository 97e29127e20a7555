import Testwright.Source.ClassReader

namespace Testwright

/-!
Batches of sources.

A source that is refused does not stop a batch: it is reported by its place and
the reason, and the others are read all the same.  A batch is read in turn or in
parallel; `readEach` reads one with any reader.
-/

/-- What became of a batch. -/
structure BatchReport where
  /-- The surfaces that were read, in the order of their sources. -/
  classes : List ClassSurface
  /-- The places of the refused sources, each with the reason. -/
  failures : List (Nat × Text)

namespace BatchReport

def empty : BatchReport where
  classes := []
  failures := []

/-- How many sources the report covers. -/
def total (report : BatchReport) : Nat :=
  report.classes.length + report.failures.length

/-- The report with the outcome for the source at a place put behind the
others. -/
def add (report : BatchReport) (place : Nat) (outcome : Except Refusal ClassSurface) :
    BatchReport :=
  match outcome with
  | .ok surface => { report with classes := report.classes ++ [surface] }
  | .error refusal => { report with failures := report.failures ++ [(place, refusal.message)] }

/-- The report on outcomes that are known, in order. -/
def ofOutcomes (outcomes : List (Except Refusal ClassSurface)) : BatchReport where
  classes := outcomes.filterMap Except.toOption
  failures := outcomes.zipIdx.filterMap fun entry =>
    match entry.1 with
    | .ok _ => none
    | .error refusal => some (entry.2, refusal.message)

/-- The report on sources that are read one after the other. -/
def readEach (read : Text → Except Refusal ClassSurface) (sources : List Text) : BatchReport :=
  sources.zipIdx.foldl (fun report entry => report.add entry.2 (read entry.1)) empty

/-- The report on sources that are read at the same time, each in a task of its
own.  Two things are granted: the workers for the tasks can be set up, so a batch
as a whole is never refused, and the outcomes are collected in the order of the
sources, whichever of them is ready first. -/
def readParallel (library : PatternLibrary) (policy : ExtractionPolicy) (sources : List Text) :
    BatchReport :=
  let tasks := sources.map fun source =>
    Task.spawn fun _ => ClassSurface.read library policy source
  ofOutcomes (tasks.map Task.get)

/-- The report on a batch, read the way the policy asks for. -/
def read (library : PatternLibrary) (policy : ExtractionPolicy) (sources : List Text) :
    BatchReport :=
  if policy.parallel then readParallel library policy sources
  else readEach (ClassSurface.read library policy) sources

end BatchReport
end Testwright
