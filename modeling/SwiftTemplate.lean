import SwiftTemplate.Cli.Arguments
import SwiftTemplate.Cli.Dump
import SwiftTemplate.Cli.Session
import SwiftTemplate.Main
import SwiftTemplate.Program.Binding
import SwiftTemplate.Program.Chunk
import SwiftTemplate.Program.Layout
import SwiftTemplate.Program.Print
import SwiftTemplate.Proofs.Program.CleanPrograms
import SwiftTemplate.Proofs.Program.Directives
import SwiftTemplate.Proofs.Program.LineEnds
import SwiftTemplate.Proofs.Program.LineMapping
import SwiftTemplate.Proofs.Program.Printing
import SwiftTemplate.Proofs.Program.Statements
import SwiftTemplate.Proofs.Program.Substitutions
import SwiftTemplate.Proofs.Program.Synchronisation
import SwiftTemplate.Proofs.Repair.Announcements
import SwiftTemplate.Proofs.Repair.Candidates
import SwiftTemplate.Proofs.Repair.CleanCode
import SwiftTemplate.Proofs.Repair.Cuts
import SwiftTemplate.Proofs.Repair.Drafts
import SwiftTemplate.Proofs.Repair.Faults
import SwiftTemplate.Proofs.Repair.FirstPlace
import SwiftTemplate.Proofs.Repair.FixedPoint
import SwiftTemplate.Proofs.Repair.LineCounts
import SwiftTemplate.Proofs.Repair.MovedLines
import SwiftTemplate.Proofs.Repair.Parts
import SwiftTemplate.Proofs.Repair.Preservation
import SwiftTemplate.Proofs.Repair.Removal
import SwiftTemplate.Proofs.Repair.Rounds
import SwiftTemplate.Proofs.Repair.Slots
import SwiftTemplate.Proofs.Repair.Tokens
import SwiftTemplate.Proofs.Swift.Alone
import SwiftTemplate.Proofs.Swift.Coverage
import SwiftTemplate.Proofs.Swift.Cuts
import SwiftTemplate.Proofs.Swift.Delimiters
import SwiftTemplate.Proofs.Swift.Heads
import SwiftTemplate.Proofs.Swift.Interpolations
import SwiftTemplate.Proofs.Swift.Ledger
import SwiftTemplate.Proofs.Swift.Lexemes
import SwiftTemplate.Proofs.Swift.LineEnds
import SwiftTemplate.Proofs.Swift.Outside
import SwiftTemplate.Proofs.Swift.Passage
import SwiftTemplate.Proofs.Swift.Reading
import SwiftTemplate.Proofs.Swift.Scanning
import SwiftTemplate.Proofs.Swift.Slots
import SwiftTemplate.Proofs.Swift.Sources
import SwiftTemplate.Proofs.Swift.Spelling
import SwiftTemplate.Proofs.Swift.Splicing
import SwiftTemplate.Proofs.Swift.Standalone
import SwiftTemplate.Proofs.Swift.Transparency
import SwiftTemplate.Proofs.Swift.Writing
import SwiftTemplate.Proofs.Template.CodeLines
import SwiftTemplate.Proofs.Template.Extents
import SwiftTemplate.Proofs.Template.LineEnds
import SwiftTemplate.Proofs.Template.Lines
import SwiftTemplate.Proofs.Template.Partition
import SwiftTemplate.Proofs.Template.Quoting
import SwiftTemplate.Proofs.Template.Slices
import SwiftTemplate.Proofs.Text.Continuation
import SwiftTemplate.Proofs.Text.Cuts
import SwiftTemplate.Proofs.Text.LineEnds
import SwiftTemplate.Proofs.Text.Lines
import SwiftTemplate.Proofs.Toolchain.Agreement
import SwiftTemplate.Rendering
import SwiftTemplate.Repair.Draft
import SwiftTemplate.Repair.Problem
import SwiftTemplate.Repair.Relocation
import SwiftTemplate.Settings
import SwiftTemplate.Swift.Comment
import SwiftTemplate.Swift.Diagnostic
import SwiftTemplate.Swift.Directive
import SwiftTemplate.Swift.Keyword
import SwiftTemplate.Swift.Kind
import SwiftTemplate.Swift.Lexeme
import SwiftTemplate.Swift.Literal
import SwiftTemplate.Swift.Nesting
import SwiftTemplate.Swift.Number
import SwiftTemplate.Swift.Source
import SwiftTemplate.Swift.Token
import SwiftTemplate.Swift.Trivia
import SwiftTemplate.Swift.Word
import SwiftTemplate.Template.CodeEnd
import SwiftTemplate.Template.Node
import SwiftTemplate.Template.Segment
import SwiftTemplate.Text.Basic
import SwiftTemplate.Text.Blank
import SwiftTemplate.Text.Decimal
import SwiftTemplate.Text.Letter
import SwiftTemplate.Text.LineIndex
import SwiftTemplate.Text.Numeral
import SwiftTemplate.Text.Ranges
import SwiftTemplate.Text.Utf8
import SwiftTemplate.Text.Walk
import SwiftTemplate.Toolchain.Command
import SwiftTemplate.Toolchain.CompilerReport
import SwiftTemplate.Toolchain.Failure
import SwiftTemplate.Toolchain.Run
import SwiftTemplate.Yaml.Cursor
import SwiftTemplate.Yaml.Scalar
import SwiftTemplate.Yaml.Value
