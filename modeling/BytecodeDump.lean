import BytecodeDump.CommandLine.Folder
import BytecodeDump.Cursor
import BytecodeDump.Duration
import BytecodeDump.Main
import BytecodeDump.Proofs.Reader
import BytecodeDump.Proofs.Split
import BytecodeDump.Proofs.Constant
import BytecodeDump.Proofs.Debug
import BytecodeDump.Proofs.Record
import BytecodeDump.Proofs.Pending
import BytecodeDump.Proofs.Tree
import BytecodeDump.Proofs.Subtree
import BytecodeDump.Proofs.Stack
import BytecodeDump.Proofs.Dump
import BytecodeDump.Proofs.RoundTrip
import BytecodeDump.Proofs.Part
import BytecodeDump.Proofs.Survey
import BytecodeDump.Proofs.Yield
import BytecodeDump.Proofs.ConstantYield
import BytecodeDump.Proofs.DebugYield
import BytecodeDump.Proofs.RecordYield
import BytecodeDump.Proofs.Reencoding
import BytecodeDump.Proofs.Steady
import BytecodeDump.Proofs.Truncation
import BytecodeDump.Proofs.Refusal
import BytecodeDump.Proofs.WellFormed
import BytecodeDump.Proofs.NormalForm
import BytecodeDump.Proofs.Walk
import BytecodeDump.Proofs.Parents
import BytecodeDump.Proofs.Bodies
import BytecodeDump.Proofs.ReadBack
import BytecodeDump.Proofs.Numbering
import BytecodeDump.Proofs.Stripping
import BytecodeDump.Proofs.Hidden
import BytecodeDump.Proofs.Weight
import BytecodeDump.Proofs.ByteOrder
import BytecodeDump.Proofs.OpcodeTable
import BytecodeDump.Proofs.Run
import BytecodeDump.Proofs.Verification
import BytecodeDump.Proofs.Folder
import BytecodeDump.Proofs.StripOutput
import BytecodeDump.Proofs.Targets
import BytecodeDump.Proofs.Inputs
import BytecodeDump.Proofs.Patch
import BytecodeDump.Proofs.JsonText
import BytecodeDump.Proofs.FlagText
import BytecodeDump.Proofs.JsonPart
import BytecodeDump.Proofs.JsonScript
import BytecodeDump.Proofs.Cursor
import BytecodeDump.Proofs.Denotation
import BytecodeDump.Proofs.Canonical
import BytecodeDump.Proofs.Transcript
import BytecodeDump.Proofs.CursorFrame
import BytecodeDump.Proofs.Rounding
import BytecodeDump.Proofs.Shortest
import BytecodeDump.Proofs.JsonDouble
import BytecodeDump.Proofs.JsonDump
import BytecodeDump.Proofs.JsonTrust
import BytecodeDump.Proofs.Table
import BytecodeDump.Proofs.Operands
import BytecodeDump.Proofs.Totals
import BytecodeDump.Proofs.Summary
import BytecodeDump.Proofs.Sections
import BytecodeDump.Proofs.Claims
import BytecodeDump.Proofs.Preview
import BytecodeDump.Proofs.Scopes
import BytecodeDump.Proofs.SignExtension
import BytecodeDump.Proofs.FixedWidth
import BytecodeDump.Proofs.OneLine
import BytecodeDump.Proofs.CompactListing
