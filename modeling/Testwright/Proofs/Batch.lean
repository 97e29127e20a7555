import Mathlib.Data.List.Pairwise
import Testwright.Source.Batch

namespace Testwright
namespace BatchReport

/-!
# Reports on batches

A report is a record of outcomes by place.  Reports are put together as the
batches are (`readEach_append`), which is what it means that a source touches
nothing but its own outcome.  A batch that is read in tasks of its own gives
the report of one that is read in turn, because the outcomes are collected by
place and not by the time they are ready.
-/

variable {read : Text → Except Refusal ClassSurface}

/-! ## Outcomes and their places -/

/-- The entry of a report for a source that was refused. -/
def failure? (entry : Except Refusal ClassSurface × Nat) : Option (Nat × Text) :=
  match entry.1 with
  | .ok _ => none
  | .error refusal => some (entry.2, refusal.message)

/-- The report with the outcomes of further sources, the first of which has the
given place. -/
def addAll (report : BatchReport) (place : Nat) (outcomes : List (Except Refusal ClassSurface)) :
    BatchReport where
  classes := report.classes ++ outcomes.filterMap Except.toOption
  failures := report.failures ++ (outcomes.zipIdx place).filterMap failure?

theorem ofOutcomes_eq (outcomes : List (Except Refusal ClassSurface)) :
    ofOutcomes outcomes = empty.addAll 0 outcomes := rfl

theorem addAll_cons (report : BatchReport) (place : Nat) (outcome : Except Refusal ClassSurface)
    (outcomes : List (Except Refusal ClassSurface)) :
    report.addAll place (outcome :: outcomes) =
      (report.add place outcome).addAll (place + 1) outcomes := by
  cases outcome with
  | ok surface => simp [addAll, add, List.filterMap_cons, failure?, Except.toOption]
  | error refusal => simp [addAll, add, List.filterMap_cons, failure?, Except.toOption]

/-- What one source adds, carried along the batch. -/
theorem foldl_add (report : BatchReport) (place : Nat) (sources : List Text) :
    (sources.zipIdx place).foldl (fun report entry => report.add entry.2 (read entry.1)) report =
      report.addAll place (sources.map read) := by
  induction sources generalizing report place with
  | nil => simp [addAll]
  | cons source sources ih =>
      rw [List.zipIdx_cons, List.foldl_cons, ih, List.map_cons, addAll_cons]

theorem readEach_eq (read : Text → Except Refusal ClassSurface) (sources : List Text) :
    readEach read sources = ofOutcomes (sources.map read) := by
  rw [readEach, foldl_add, ofOutcomes_eq]

/-- Waiting for a task that was spawned is running it. -/
theorem readParallel_eq (library : PatternLibrary) (policy : ExtractionPolicy)
    (sources : List Text) :
    readParallel library policy sources =
      ofOutcomes (sources.map (ClassSurface.read library policy)) := by
  rw [readParallel, List.map_map]
  rfl

/-! ## What a report says -/

/-- What a report says of the sources of a batch. -/
structure ReportsOn (read : Text → Except Refusal ClassSurface) (sources : List Text)
    (report : BatchReport) : Prop where
  /-- The surfaces stand in the order of their sources. -/
  classes : report.classes = (sources.map read).filterMap Except.toOption
  /-- A source is reported exactly if it was refused, by its place and the
  reason. -/
  failures : ∀ place reason, (place, reason) ∈ report.failures ↔
    ∃ source refusal, sources[place]? = some source ∧ read source = .error refusal ∧
      reason = refusal.message
  /-- The refused sources are reported in their order, and each of them once. -/
  increasing : report.failures.Pairwise fun first second => first.1 < second.1
  total : report.total = sources.length

theorem mem_failures_iff {outcomes : List (Except Refusal ClassSurface)} {place : Nat}
    {reason : Text} :
    (place, reason) ∈ (ofOutcomes outcomes).failures ↔
      ∃ refusal, outcomes[place]? = some (.error refusal) ∧ reason = refusal.message := by
  have entry : ∀ outcome index, failure? (outcome, index) = some (place, reason) ↔
      ∃ refusal, outcome = .error refusal ∧ index = place ∧ reason = refusal.message := by
    intro outcome index
    cases outcome with
    | ok surface => simp [failure?]
    | error refusal => simp [failure?, eq_comm]
  simp only [ofOutcomes_eq, addAll, empty, List.nil_append, List.mem_filterMap, Prod.exists,
    List.mem_zipIdx_iff_getElem?, entry]
  constructor
  · rintro ⟨_, _, found, refusal, rfl, rfl, same⟩
    exact ⟨refusal, found, same⟩
  · rintro ⟨refusal, found, same⟩
    exact ⟨_, place, found, refusal, rfl, rfl, same⟩

theorem pairwise_failures (outcomes : List (Except Refusal ClassSurface)) :
    (ofOutcomes outcomes).failures.Pairwise fun first second => first.1 < second.1 := by
  have places : outcomes.zipIdx.Pairwise fun first second => first.2 < second.2 := by
    rw [← List.pairwise_map, List.zipIdx_map_snd]
    exact List.pairwise_lt_range'
  refine places.filterMap failure? fun first second before entry found entry' found' => ?_
  have place : ∀ {outcome : Except Refusal ClassSurface × Nat} {entry : Nat × Text},
      failure? outcome = some entry → entry.1 = outcome.2 := by
    rintro ⟨outcome, index⟩ entry found
    cases outcome with
    | ok surface => cases found
    | error refusal =>
        cases found
        rfl
  rw [place found, place found']
  exact before

theorem total_ofOutcomes (outcomes : List (Except Refusal ClassSurface)) :
    (ofOutcomes outcomes).total = outcomes.length := by
  have counted : ∀ place, (outcomes.filterMap Except.toOption).length +
      ((outcomes.zipIdx place).filterMap failure?).length = outcomes.length := by
    induction outcomes with
    | nil => simp
    | cons outcome outcomes ih =>
        intro place
        have rest := ih (place + 1)
        cases outcome with
        | ok surface =>
            simp only [List.zipIdx_cons, List.filterMap_cons, failure?, Except.toOption,
              List.length_cons]
            omega
        | error refusal =>
            simp only [List.zipIdx_cons, List.filterMap_cons, failure?, Except.toOption,
              List.length_cons]
            omega
  exact counted 0

theorem reportsOn_readEach (read : Text → Except Refusal ClassSurface) (sources : List Text) :
    ReportsOn read sources (readEach read sources) where
  classes := by rw [readEach_eq]; rfl
  failures := by
    intro place reason
    simp only [readEach_eq, mem_failures_iff, List.getElem?_map, Option.map_eq_some_iff]
    constructor
    · rintro ⟨refusal, ⟨source, found, refused⟩, same⟩
      exact ⟨source, refusal, found, refused, same⟩
    · rintro ⟨source, refusal, found, refused, same⟩
      exact ⟨refusal, ⟨source, found, refused⟩, same⟩
  increasing := by
    rw [readEach_eq]
    exact pairwise_failures _
  total := by rw [readEach_eq, total_ofOutcomes, List.length_map]

/-! ## Batches put together -/

/-- The report on the sources of one report and behind them those of another. -/
def append (first second : BatchReport) : BatchReport where
  classes := first.classes ++ second.classes
  failures := first.failures ++ second.failures.map fun failure =>
    (failure.1 + first.total, failure.2)

theorem ofOutcomes_append (first second : List (Except Refusal ClassSurface)) :
    ofOutcomes (first ++ second) = (ofOutcomes first).append (ofOutcomes second) := by
  have shifted : (second.zipIdx first.length).filterMap failure? =
      (second.zipIdx.filterMap failure?).map fun failure =>
        (failure.1 + first.length, failure.2) := by
    rw [List.zipIdx_eq_map_add, List.filterMap_map, List.map_filterMap]
    congr 1
    funext entry
    obtain ⟨outcome, place⟩ := entry
    cases outcome with
    | ok surface => rfl
    | error refusal => simp [failure?, Nat.add_comm]
  rw [append, total_ofOutcomes]
  simp only [ofOutcomes_eq, addAll, empty, List.nil_append, List.filterMap_append,
    List.zipIdx_append, Nat.zero_add, shifted]

theorem readEach_append (read : Text → Except Refusal ClassSurface) (first second : List Text) :
    readEach read (first ++ second) = (readEach read first).append (readEach read second) := by
  simp only [readEach_eq, List.map_append, ofOutcomes_append]

/-- A batch is reported in the same way whether it is read in turn or in
parallel.  The report has the surfaces and the reasons of the refused sources by
their places, and another source in one place changes what that place adds and
nothing else. -/
theorem read_isolates (library : PatternLibrary) (policy : ExtractionPolicy)
    (sources : List Text) :
    BatchReport.read library policy sources = readEach (ClassSurface.read library policy) sources ∧
      readParallel library policy sources = readEach (ClassSurface.read library policy) sources ∧
      ∀ read : Text → Except Refusal ClassSurface,
        ReportsOn read sources (readEach read sources) ∧
          ∀ (before : List Text) (source : Text) (after : List Text),
            readEach read (before ++ source :: after) =
              (readEach read before).append
                ((readEach read [source]).append (readEach read after)) := by
  have inParallel : readParallel library policy sources =
      readEach (ClassSurface.read library policy) sources := by
    rw [readParallel_eq, readEach_eq]
  refine ⟨?_, inParallel,
    fun read => ⟨reportsOn_readEach read sources, fun before source after => ?_⟩⟩
  · unfold BatchReport.read
    split
    · exact inParallel
    · rfl
  · rw [readEach_append, ← readEach_append read [source], List.singleton_append]

end BatchReport
end Testwright
