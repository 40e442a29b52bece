import SwiftTemplate.Proofs.Text.Cuts
import SwiftTemplate.Toolchain.Run

/-!
# Agreement of the two ways to run a program

An interpreter that compiles a program and runs it shows the output of the program and nothing
else. Whether a failure is one of compilation can then only be told from what was written to
standard error, and a failing program that writes what a compiler would write is taken for one that
was never compiled. In every other case both ways come to the same result.
-/
namespace SwiftTemplate.Toolchain

/-! ## Lines that report errors -/

/-- What stands between the place of an error and the message. -/
def errorMark : List Char := ": error:".toList

/-- A line is `file:row:column: error:` with a message behind it, where the row and the column are
numbers, and nothing before reads `: error:` as well. -/
def ReportsError (line : List Char) : Prop :=
  ∃ file row column message, isNumber row = true ∧ isNumber column = true ∧
    line = file ++ ':' :: (row ++ ':' :: column) ++ errorMark ++ message ∧
    ∀ front behind, line = front ++ errorMark ++ behind →
      (file ++ ':' :: (row ++ ':' :: column)).length ≤ front.length

/-- Some line of a text reports an error, as those of a compiler do. -/
def ReadsAsReport (text : List Char) : Prop := ∃ line, Text.IsStretch '\n' line text ∧ ReportsError line

theorem colon_not_mem_of_isNumber {s : List Char} (h : isNumber s = true) : ':' ∉ s := by
  intro hmem
  have digits := (Bool.and_eq_true_iff.1 h).2
  exact absurd (List.all_eq_true.1 digits _ hmem) (by decide)

theorem isPlace_iff {s : List Char} : isPlace s = true ↔ ∃ file row column,
    isNumber row = true ∧ isNumber column = true ∧ s = file ++ ':' :: (row ++ ':' :: column) := by
  constructor
  · intro h
    unfold isPlace at h
    split at h
    · cases h
    · next front column hcolumn =>
      split at h
      · cases h
      · next file row hrow =>
        obtain ⟨rfl, -⟩ := Text.cutAtLast?_eq_some_iff.1 hcolumn
        obtain ⟨rfl, -⟩ := Text.cutAtLast?_eq_some_iff.1 hrow
        obtain ⟨numbered, lined⟩ := Bool.and_eq_true_iff.1 h
        exact ⟨file, row, column, lined, numbered, by simp⟩
  · rintro ⟨file, row, column, hrow, hcolumn, rfl⟩
    have last : Text.cutAtLast? ':' (file ++ ':' :: (row ++ ':' :: column)) = some (file ++ ':' :: row, column) :=
      Text.cutAtLast?_eq_some_iff.2 ⟨by simp, colon_not_mem_of_isNumber hcolumn⟩
    have first : Text.cutAtLast? ':' (file ++ ':' :: row) = some (file, row) :=
      Text.cutAtLast?_eq_some_iff.2 ⟨rfl, colon_not_mem_of_isNumber hrow⟩
    rw [isPlace, last]
    dsimp only
    rw [first]
    dsimp only
    rw [hrow, hcolumn]
    rfl

theorem isErrorLine_iff {line : List Char} : isErrorLine line = true ↔ ReportsError line := by
  rw [isErrorLine, Option.any_eq_true]
  constructor
  · rintro ⟨place, hplace, placed⟩
    obtain ⟨⟨message, hline⟩, first⟩ := Text.before?_eq_some_iff.1 hplace
    obtain ⟨file, row, column, hrow, hcolumn, rfl⟩ := isPlace_iff.1 placed
    exact ⟨file, row, column, message, hrow, hcolumn, hline, first⟩
  · rintro ⟨file, row, column, message, hrow, hcolumn, hline, first⟩
    exact ⟨_, Text.before?_eq_some_iff.2 ⟨⟨message, hline⟩, first⟩,
      isPlace_iff.2 ⟨file, row, column, hrow, hcolumn, rfl⟩⟩

/-- What is taken for a report of a compiler is a text with a line that reports an error. -/
theorem reportsCompilerError_iff {stderr : List Char} :
    reportsCompilerError stderr = true ↔ ReadsAsReport stderr := by
  rw [reportsCompilerError, List.any_eq_true]
  constructor
  · rintro ⟨line, hline, reports⟩
    exact ⟨line, Text.mem_splitOn_iff.1 hline, isErrorLine_iff.1 reports⟩
  · rintro ⟨line, hline, reports⟩
    exact ⟨line, Text.mem_splitOn_iff.2 hline, isErrorLine_iff.2 reports⟩

/-! ## Programs that compile -/

/-- The interpreter compiles a program, runs it, and passes on what it leaves. -/
def PassesOn (commands : Commands) (host : Host) (program : List Char) (output : Output) : Prop :=
  host.start ⟨commands.interpreter, [sourcePath host.scratch], program⟩ = .ended output

/-- The compiler accepts a program, and the executable leaves some output. -/
structure Executes (commands : Commands) (host : Host) (program : List Char) (output : Output) : Prop where
  compiled : ∃ report,
    host.start ⟨commands.compiler, compilerArguments commands host.scratch, program⟩ = .ended report ∧
      report.succeeded = true
  ended : host.start ⟨executablePath host.scratch, [], program⟩ = .ended output

/-- What comes of a program that was compiled and left some output. -/
def outcome (template : List Char) (output : Output) : Except Failure (List Char) :=
  if output.succeeded then .ok (foldLineBreaks (Text.Utf8.decodeLossy output.stdout))
  else .error ⟨template, .execution (Text.Utf8.decodeLossy output.stderr)⟩

section
variable {commands : Commands} {host : Host} {program : List Char} {output : Output} (template : List Char)

theorem run_of_executes (compiles : commands.mode = .compile) (ran : Executes commands host program output) :
    run commands host program template = outcome template output := by
  obtain ⟨⟨report, hreport, accepted⟩, ended⟩ := ran
  have compiled : compileAndRun commands host program template
      = if output.succeeded then .ok (Text.Utf8.decodeLossy output.stdout)
        else .error ⟨template, .execution (Text.Utf8.decodeLossy output.stderr)⟩ := by
    simp [compileAndRun, hreport, ended, completed, accepted, bind, Except.bind]
  rw [run, compiles]
  dsimp only
  rw [compiled, outcome]
  cases output.succeeded <;> rfl

theorem run_of_passesOn (interprets : commands.mode = .interpret) (passed : PassesOn commands host program output) :
    run commands host program template =
      if output.succeeded = false ∧ reportsCompilerError (Text.Utf8.decodeLossy output.stderr) = true then
        .error ⟨template, .compilation (Text.Utf8.decodeLossy output.stderr)⟩
      else outcome template output := by
  rw [PassesOn] at passed
  have interpreted : interpret commands host program template
      = if output.succeeded then .ok (Text.Utf8.decodeLossy output.stdout)
        else if reportsCompilerError (Text.Utf8.decodeLossy output.stderr) then
          .error ⟨template, .compilation (Text.Utf8.decodeLossy output.stderr)⟩
        else .error ⟨template, .execution (Text.Utf8.decodeLossy output.stderr)⟩ := by
    simp [interpret, passed, completed, bind, Except.bind]
  rw [run, interprets]
  dsimp only
  rw [interpreted, outcome]
  cases output.succeeded with
  | true => rfl
  | false => cases reportsCompilerError (Text.Utf8.decodeLossy output.stderr) <;> rfl

end

/-- A program that compiles comes to the same result interpreted and compiled, whatever it leaves,
unless it fails and some line that it wrote to standard error reports an error at a place, as those
of a compiler do: that is taken for a failure of compilation when it is interpreted, and for one of
execution when it is compiled. -/
theorem run_eq_run_iff {commands commands' : Commands} {host host' : Host} {program template : List Char}
    {output : Output} (interprets : commands.mode = .interpret) (compiles : commands'.mode = .compile)
    (passed : PassesOn commands host program output) (ran : Executes commands' host' program output) :
    (run commands host program template = run commands' host' program template
        ↔ output.succeeded = true ∨ ¬ ReadsAsReport (Text.Utf8.decodeLossy output.stderr)) ∧
      (output.succeeded = false → ReadsAsReport (Text.Utf8.decodeLossy output.stderr) →
        run commands host program template
            = .error ⟨template, .compilation (Text.Utf8.decodeLossy output.stderr)⟩ ∧
          run commands' host' program template
            = .error ⟨template, .execution (Text.Utf8.decodeLossy output.stderr)⟩) := by
  rw [run_of_passesOn template interprets passed, run_of_executes template compiles ran, ← reportsCompilerError_iff]
  cases succeeded : output.succeeded with
  | true => simp
  | false =>
    have failed : outcome template output = .error ⟨template, .execution (Text.Utf8.decodeLossy output.stderr)⟩ := by
      rw [outcome, succeeded]
      rfl
    rw [failed]
    by_cases mistaken : reportsCompilerError (Text.Utf8.decodeLossy output.stderr) = true
    · simp [mistaken]
    · simp [mistaken]

/-! ## A host that shows the difference -/

/-- A host on which every program compiles and leaves the same output. -/
def Host.leaving (output : Output) : Host where
  scratch := "/tmp/run".toList
  start invocation := .ended (if invocation.command = Commands.standard.compiler then ⟨[], [], 0⟩ else output)

/-- The standard commands where programs are compiled. -/
def Commands.compiling : Commands := { Commands.standard with forceCompile := true }

theorem passesOn_leaving (program : List Char) (output : Output) :
    PassesOn .standard (.leaving output) program output := by
  have other : Commands.standard.interpreter ≠ Commands.standard.compiler := by decide
  exact congrArg Attempt.ended (if_neg other)

theorem executes_leaving (program : List Char) (output : Output) :
    Executes .compiling (.leaving output) program output := by
  have other : executablePath "/tmp/run".toList ≠ Commands.standard.compiler := by decide
  exact ⟨⟨⟨[], [], 0⟩, congrArg Attempt.ended (if_pos rfl), rfl⟩, congrArg Attempt.ended (if_neg other)⟩

/-- A program that fails behind a report with `: error:` in two lines, of which the first names no column and
the second has words before the place, fails in the same way interpreted and compiled. -/
theorem run_eq_run_iff_unplaced :
    let output : Output := ⟨[], "t.gyb:4: error: a\nFatal: error: t.gyb:4:1: error: b\n".toUTF8.toList, 1⟩
    let program := "f()".toList
    PassesOn .standard (.leaving output) program output ∧ Executes .compiling (.leaving output) program output ∧
      run .standard (.leaving output) program "t.gyb".toList
        = run .compiling (.leaving output) program "t.gyb".toList := by
  intro output program
  have unread : ¬ ReadsAsReport (Text.Utf8.decodeLossy output.stderr) := by
    rw [← reportsCompilerError_iff]
    decide +kernel
  have passed := passesOn_leaving program output
  have ran := executes_leaving program output
  exact ⟨passed, ran, (run_eq_run_iff rfl rfl passed ran).1.2 (.inr unread)⟩

/-- A program that compiles, and fails behind a line such as a compiler writes, did not compile if it is
interpreted, and failed if it is compiled. -/
theorem run_ne_run_report :
    let output : Output := ⟨[], "x:1:1: error: no\n".toUTF8.toList, 1⟩
    let program := "f()".toList
    PassesOn .standard (.leaving output) program output ∧ Executes .compiling (.leaving output) program output ∧
      run .standard (.leaving output) program "t".toList
        = .error ⟨"t".toList, .compilation "x:1:1: error: no\n".toList⟩ ∧
      run .compiling (.leaving output) program "t".toList
        = .error ⟨"t".toList, .execution "x:1:1: error: no\n".toList⟩ ∧
      run .standard (.leaving output) program "t".toList ≠ run .compiling (.leaving output) program "t".toList := by
  intro output program
  have passed := passesOn_leaving program output
  have ran := executes_leaving program output
  have text : Text.Utf8.decodeLossy output.stderr = "x:1:1: error: no\n".toList := by decide +kernel
  have mistaken : reportsCompilerError "x:1:1: error: no\n".toList = true := by decide +kernel
  have interpreted : run .standard (.leaving output) program "t".toList
      = .error ⟨"t".toList, .compilation "x:1:1: error: no\n".toList⟩ := by
    rw [run_of_passesOn _ rfl passed, text]
    exact if_pos ⟨rfl, mistaken⟩
  have compiled : run .compiling (.leaving output) program "t".toList
      = .error ⟨"t".toList, .execution "x:1:1: error: no\n".toList⟩ := by
    rw [run_of_executes _ rfl ran, outcome, text]
    exact if_neg (by decide)
  refine ⟨passed, ran, interpreted, compiled, ?_⟩
  rw [interpreted, compiled]
  simp

end SwiftTemplate.Toolchain
