import JvmClass.AnnotationUse
import JvmClass.Attribute
import JvmClass.Attribute.Codec
import JvmClass.Attribute.Elements
import JvmClass.Attribute.Frames
import JvmClass.Attribute.Kind
import JvmClass.Attribute.Tables
import JvmClass.Bytes
import JvmClass.Bytes.Reader
import JvmClass.ClassFile
import JvmClass.ClassFile.Edit
import JvmClass.ClassFile.Reader
import JvmClass.ClassFile.Writer
import JvmClass.ClassName
import JvmClass.Code
import JvmClass.Code.Assembly
import JvmClass.Code.Disassembly
import JvmClass.Code.Layout
import JvmClass.Code.Outline
import JvmClass.Constant
import JvmClass.Error
import JvmClass.Error.Message
import JvmClass.Fault
import JvmClass.Fault.Message
import JvmClass.Frame
import JvmClass.Instruction
import JvmClass.Instruction.Descriptor
import JvmClass.Instruction.Encoder
import JvmClass.Instruction.Opcode
import JvmClass.Instruction.Operation
import JvmClass.Instruction.Reader
import JvmClass.Label
import JvmClass.Pool
import JvmClass.Pool.Intern
import JvmClass.Pool.Raw
import JvmClass.Pool.Writer
import JvmClass.Proofs.Pool.Growth
import JvmClass.Proofs.Instruction.Encoding
import JvmClass.Proofs.Reading
import JvmClass.Proofs.Renaming
import JvmClass.Text
import JvmClass.Text.ModifiedUtf8
import JvmClass.Text.Quoted
import JvmClass.Version
import JvmClass.Proofs.Code.Filling
import JvmClass.Proofs.Code.Layout
import JvmClass.Proofs.Code.Settling
import JvmClass.Proofs.Code.Assembly
import JvmClass.Proofs.Code.Disassembly
import JvmClass.Proofs.Pool.Validity
import JvmClass.Proofs.Pool.Interning
import JvmClass.Proofs.Pool.Storing
import JvmClass.Proofs.Attribute.Rows
import JvmClass.Proofs.Attribute.Elements
import JvmClass.Proofs.Attribute.Codec
import JvmClass.Proofs.ClassFile.RoundTrip
import JvmClass.Proofs.Pool.Room
import JvmClass.Proofs.Pool.Invariant
import JvmClass.Proofs.ClassFile.Stability
import JvmClass.Proofs.ClassFile.Malformed
import JvmClass.Proofs.ClassFile.AppendOnly
import JvmClass.Proofs.Code.Acceptance
import JvmClass.Proofs.Instruction.Constants
import JvmClass.Proofs.Code.Recoding
import JvmClass.Proofs.ClassFile.Locality
import JvmClass.Proofs.ClassFile.Writability
import JvmClass.Proofs.Code.ShortForms
import JvmClass.Proofs.Pool.Restoring
import JvmClass.Proofs.Attribute.Reproduction
import JvmClass.Proofs.Code.Attempts
import JvmClass.Proofs.Pool.Following
import JvmClass.Proofs.Text.CodePoints
import JvmClass.Proofs.Pool.Acceptance
import JvmClass.Proofs.Pool.Missing
import JvmClass.Proofs.Instruction.Descriptor
import JvmClass.Proofs.Code.Agreement
import JvmClass.Proofs.Attribute.Compactness
import JvmClass.Proofs.Code.Holes
