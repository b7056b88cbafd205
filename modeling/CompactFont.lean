import CompactFont.Bytes.Cursor
import CompactFont.Index
import CompactFont.Dict.Basic
import CompactFont.Text.StandardString
import CompactFont.Charset.Basic
import CompactFont.Encoding
import CompactFont.FdSelect
import CompactFont.Charstring.Instruction
import CompactFont.Charstring.Compaction
import CompactFont.Charstring.Subroutines
import CompactFont.Charstring.Token
import CompactFont.Charstring.Decoding
import CompactFont.Outline.ArgStack
import CompactFont.Outline.Evaluator
import CompactFont.Font.Reading
import CompactFont.Font.Writing
import CompactFont.Proofs.Outline.Compacted
import CompactFont.Proofs.Charstring.Execution
import CompactFont.Proofs.Charstring.Flattening
import CompactFont.Proofs.Index
import CompactFont.Proofs.FdSelect
import CompactFont.Proofs.Font.Glyphs
import CompactFont.Proofs.Charstring.Prefix
import CompactFont.Proofs.Charstring.Width
import CompactFont.Proofs.Charstring.LateWidth
import CompactFont.Proofs.Charstring.WidthOperand
import CompactFont.Proofs.Charstring.MaskLength
import CompactFont.Proofs.Font.Compaction
import CompactFont.Proofs.Outline.Sketch
import CompactFont.Proofs.Outline.Protocol
import CompactFont.Proofs.Outline.Pen
import CompactFont.Proofs.Outline.Reuse
import CompactFont.Proofs.Charset
import CompactFont.Proofs.Index.Written
import CompactFont.Proofs.Font.Trailing
import CompactFont.Proofs.Charstring.MaskLayout
import CompactFont.Proofs.Dict.Written
import CompactFont.Proofs.Text.Utf8
import CompactFont.Proofs.Font.Written
import CompactFont.Proofs.Index.Partition
import CompactFont.Proofs.Charstring.Remasked
import CompactFont.Proofs.Charstring.Similar
import CompactFont.Proofs.Charstring.Consumption
import CompactFont.Proofs.Charstring.WellFormed
import CompactFont.Proofs.Outline.Faults
import CompactFont.Proofs.Outline.Masks
import CompactFont.Proofs.FdSelect.InOrder
import CompactFont.Proofs.Bytes.Moving
import CompactFont.Proofs.Bytes.Discipline
import CompactFont.Proofs.Font.Structure
import CompactFont.Proofs.Charstring.Limits
import CompactFont.Proofs.Outline.Capacity
import CompactFont.Proofs.Charstring.Nesting
import CompactFont.Proofs.Charstring.ImpliedStems
import CompactFont.Proofs.Outline.Tangents
import CompactFont.Proofs.Outline.Composite
import CompactFont.Proofs.Outline.Operands
import CompactFont.Proofs.Dict.Entries
import CompactFont.Proofs.Text.Decimal
import CompactFont.Proofs.Dict.RealText
import CompactFont.Proofs.Charstring.Written
import CompactFont.Proofs.Bytes.Arrays
import CompactFont.Proofs.Font.Tables
import CompactFont.Proofs.Outline.Scale
import CompactFont.Proofs.Charstring.SubroutineNumbers
import CompactFont.Proofs.Charstring.NormalForm
import CompactFont.Proofs.Outline.BoundedList
import CompactFont.Proofs.Charstring.Bookkeeping
import CompactFont.Proofs.Outline.Guarded
