import Assembler.Text.Blank
import Assembler.Text.Radix
import Assembler.Text.Hidden
import Assembler.Text.Quoted
import Assembler.OrderedMap
import Assembler.Operand
import Assembler.Line
import Assembler.Dialect
import Assembler.Fault
import Assembler.Written
import Assembler.Reader
import Assembler.Grammar
import Assembler.Source
import Assembler.Symbols
import Assembler.Scope
import Assembler.Field
import Assembler.Problem
import Assembler.OpTable
import Assembler.Statement
import Assembler.ObjectRecord
import Assembler.Listing
import Assembler.TwoPass.Flat
import Assembler.TwoPass.FlatCode
import Assembler.TwoPass.Sectioned
import Assembler.TwoPass.SectionedCode
import Assembler.OnePass.Trace
import Assembler.OnePass.Absolute
import Assembler.OnePass.Draft
import Assembler.OnePass.Relocatable
import Assembler.OnePass.Sectioned
import Assembler.Assembly
import Assembler.Window.Grid
import Assembler.Window.Tables
import Assembler.Window.State
import Assembler.Window.Event
import Assembler.Workload.Programs
import Assembler.Workload.Calls
import Assembler.Workload.Runs
import Assembler.Proofs.Reports
import Assembler.Proofs.Operands
import Assembler.Proofs.Placement
import Assembler.Proofs.Tiling
import Assembler.Proofs.Runs
import Assembler.Proofs.FlatListing
import Assembler.Proofs.FlatObject
import Assembler.Proofs.Waiting
import Assembler.Proofs.Records
import Assembler.Proofs.AbsolutePass
import Assembler.Proofs.Drafts
import Assembler.Proofs.FlatAgreement
import Assembler.Proofs.Sections
import Assembler.Proofs.RowContexts
import Assembler.Proofs.SectionStage
import Assembler.Proofs.SectionedPass
import Assembler.Proofs.BackPatching
import Assembler.Proofs.ImportedLabels
import Assembler.Proofs.SectionNames
import Assembler.Proofs.SectionedListing
import Assembler.Proofs.SectionSymbols
import Assembler.Proofs.SectionedObject
import Assembler.Proofs.SectionedAgreement
import Assembler.Proofs.SectionBlocks
import Assembler.Proofs.FlatAcceptance
import Assembler.Proofs.ParsedStrings
import Assembler.Proofs.FlatStructure
import Assembler.Proofs.Digits
import Assembler.Proofs.DataSize
import Assembler.Proofs.Displacements
import Assembler.Proofs.MovedListing
import Assembler.Proofs.Relocation
import Assembler.Proofs.SectionedAcceptance
import Assembler.Proofs.AddressRange
import Assembler.Proofs.MovedExport
import Assembler.Proofs.RepeatedLabels
import Assembler.Proofs.BrokenFlat
import Assembler.Proofs.BrokenSections
import Assembler.Proofs.BrokenRelocatable
import Assembler.Proofs.BrokenPrograms
import Assembler.Proofs.FailingRuns
import Assembler.Proofs.FailingListings
import Assembler.Proofs.SteppingWindow
import Assembler.Proofs.TextLengths
import Assembler.Proofs.ChangedTables
import Assembler.Proofs.GuardedWindow
import Assembler.Proofs.BrokenOffPasses
import Assembler.Proofs.ReadTexts
import Assembler.Proofs.OperandLanguage
import Assembler.Proofs.LineLanguage
import Assembler.Proofs.RereadLines
import Assembler.Proofs.GrowingRecords
import Assembler.Proofs.GrowingPasses
import Assembler.Proofs.GrowingNames
import Assembler.Proofs.SteppedRuns
import Assembler.Proofs.RecordCounts
import Assembler.Proofs.LineNumbers
import Assembler.Proofs.CodeWidths
import Assembler.Proofs.ClosedStrings
import Assembler.Proofs.TrailingComments
import Assembler.Proofs.NumberLiterals
import Assembler.Proofs.NumberLanguage
import Assembler.Proofs.ReadableLines
import Assembler.Proofs.AcceptedSheets
import Assembler.Proofs.PatchedFields
