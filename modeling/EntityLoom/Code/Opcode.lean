import EntityLoom.ClassFile.Descriptor

/-!
# Opcodes

The instructions of the virtual machine that synthesized bodies are made of, with their bytes, their
mnemonics and the classes that the frame analysis and the assembler tell apart.
-/

namespace EntityLoom

/-- The subset of the instruction set that bodies are built from. -/
inductive Opcode where
  | aconstNull
  | iconst0
  | iconst1
  | ldc
  | ldcW
  | iload
  | lload
  | fload
  | dload
  | aload
  | istore
  | lstore
  | fstore
  | dstore
  | astore
  | pop
  | dup
  | ifeq
  | ifne
  | ifAcmpeq
  | ifAcmpne
  | goto
  | ireturn
  | lreturn
  | freturn
  | dreturn
  | areturn
  | returnVoid
  | getstatic
  | putstatic
  | getfield
  | putfield
  | invokevirtual
  | invokespecial
  | invokestatic
  | invokeinterface
  | new
  | athrow
  | checkcast
  | instanceof
  | wide
  | ifnull
  | ifnonnull
  deriving DecidableEq, Repr

namespace Opcode

/-- The byte of an opcode. -/
def byte : Opcode → UInt8
  | aconstNull => 0x01
  | iconst0 => 0x03
  | iconst1 => 0x04
  | ldc => 0x12
  | ldcW => 0x13
  | iload => 0x15
  | lload => 0x16
  | fload => 0x17
  | dload => 0x18
  | aload => 0x19
  | istore => 0x36
  | lstore => 0x37
  | fstore => 0x38
  | dstore => 0x39
  | astore => 0x3A
  | pop => 0x57
  | dup => 0x59
  | ifeq => 0x99
  | ifne => 0x9A
  | ifAcmpeq => 0xA5
  | ifAcmpne => 0xA6
  | goto => 0xA7
  | ireturn => 0xAC
  | lreturn => 0xAD
  | freturn => 0xAE
  | dreturn => 0xAF
  | areturn => 0xB0
  | returnVoid => 0xB1
  | getstatic => 0xB2
  | putstatic => 0xB3
  | getfield => 0xB4
  | putfield => 0xB5
  | invokevirtual => 0xB6
  | invokespecial => 0xB7
  | invokestatic => 0xB8
  | invokeinterface => 0xB9
  | new => 0xBB
  | athrow => 0xBF
  | checkcast => 0xC0
  | instanceof => 0xC1
  | wide => 0xC4
  | ifnull => 0xC6
  | ifnonnull => 0xC7

/-- The parts of a mnemonic, which are joined by `_` in its usual spelling. -/
def mnemonicParts : Opcode → List String
  | aconstNull => ["aconst", "null"]
  | iconst0 => ["iconst", "0"]
  | iconst1 => ["iconst", "1"]
  | ldc => ["ldc"]
  | ldcW => ["ldc", "w"]
  | iload => ["iload"]
  | lload => ["lload"]
  | fload => ["fload"]
  | dload => ["dload"]
  | aload => ["aload"]
  | istore => ["istore"]
  | lstore => ["lstore"]
  | fstore => ["fstore"]
  | dstore => ["dstore"]
  | astore => ["astore"]
  | pop => ["pop"]
  | dup => ["dup"]
  | ifeq => ["ifeq"]
  | ifne => ["ifne"]
  | ifAcmpeq => ["if", "acmpeq"]
  | ifAcmpne => ["if", "acmpne"]
  | goto => ["goto"]
  | ireturn => ["ireturn"]
  | lreturn => ["lreturn"]
  | freturn => ["freturn"]
  | dreturn => ["dreturn"]
  | areturn => ["areturn"]
  | returnVoid => ["return"]
  | getstatic => ["getstatic"]
  | putstatic => ["putstatic"]
  | getfield => ["getfield"]
  | putfield => ["putfield"]
  | invokevirtual => ["invokevirtual"]
  | invokespecial => ["invokespecial"]
  | invokestatic => ["invokestatic"]
  | invokeinterface => ["invokeinterface"]
  | new => ["new"]
  | athrow => ["athrow"]
  | checkcast => ["checkcast"]
  | instanceof => ["instanceof"]
  | wide => ["wide"]
  | ifnull => ["ifnull"]
  | ifnonnull => ["ifnonnull"]

/-- The usual spelling of an opcode, such as `if_acmpeq`. -/
def mnemonic (op : Opcode) : String :=
  "_".intercalate op.mnemonicParts

/-- The spelling of an opcode as one word with a capital for each part, such as `IfAcmpeq`.
Messages use it. -/
def title (op : Opcode) : String :=
  String.join (op.mnemonicParts.map String.capitalize)

/-- All opcodes. -/
def all : List Opcode :=
  [ aconstNull, iconst0, iconst1, ldc, ldcW, iload, lload, fload, dload, aload, istore, lstore,
    fstore, dstore, astore, pop, dup, ifeq, ifne, ifAcmpeq, ifAcmpne, goto, ireturn, lreturn,
    freturn, dreturn, areturn, returnVoid, getstatic, putstatic, getfield, putfield, invokevirtual,
    invokespecial, invokestatic, invokeinterface, new, athrow, checkcast, instanceof, wide, ifnull,
    ifnonnull ]

/-- The opcode with the given mnemonic. -/
def ofMnemonic? (name : String) : Option Opcode :=
  all.find? (·.mnemonic == name)

theorem mem_all (op : Opcode) : op ∈ all := by
  cases op <;> decide

/-- Whether the instruction leaves the method with a result or without one. -/
def isReturn : Opcode → Bool
  | ireturn | lreturn | freturn | dreturn | areturn | returnVoid => true
  | _ => false

/-- Whether control never reaches the next instruction. -/
def endsBlock (op : Opcode) : Bool :=
  op.isReturn || op = goto || op = athrow

/-- Whether the instruction pushes a local variable. -/
def isLoad : Opcode → Bool
  | iload | lload | fload | dload | aload => true
  | _ => false

/-- Whether the instruction pops into a local variable. -/
def isStore : Opcode → Bool
  | istore | lstore | fstore | dstore | astore => true
  | _ => false

/-- The one byte form of a load or store for the slots 0 to 3. -/
def shortForm? (op : Opcode) (slot : UInt16) : Option UInt8 :=
  if 3 < slot then none
  else if op.isLoad then some (0x1A + (op.byte - iload.byte) * 4 + slot.toUInt8)
  else if op.isStore then some (0x3B + (op.byte - istore.byte) * 4 + slot.toUInt8)
  else none

end Opcode

/-! ## The instructions of a type -/

namespace Descriptor

/-- The instruction that pushes a local variable of the type. -/
def loadOp : Descriptor → Opcode
  | long => .lload
  | float => .fload
  | double => .dload
  | object _ | array _ => .aload
  | _ => .iload

/-- The instruction that pops into a local variable of the type. -/
def storeOp : Descriptor → Opcode
  | long => .lstore
  | float => .fstore
  | double => .dstore
  | object _ | array _ => .astore
  | _ => .istore

/-- The instruction that returns a result of the type. -/
def returnOp : Descriptor → Opcode
  | void => .returnVoid
  | long => .lreturn
  | float => .freturn
  | double => .dreturn
  | object _ | array _ => .areturn
  | _ => .ireturn

end Descriptor

end EntityLoom
