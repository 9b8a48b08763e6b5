import Isel.Decimal.Shortest
import Isel.Instruction.Basic
import Isel.Operator.Name

/-! The text of instructions: mnemonic, destination, sources. A register is named by the size in
which it is used, and a memory operand says how many bytes it stands for. -/

namespace Isel

/-- The word in front of a memory operand. -/
def Size.pointer : Size → String
  | .s8 => "byte"
  | .s16 => "word"
  | .s32 => "dword"
  | .s64 => "qword"

/-- The last letter of a scalar mnemonic. -/
def FloatWidth.letter : FloatWidth → String
  | .single => "s"
  | .double => "d"

def Mnemonic.name : Mnemonic → String
  | .mov => "mov"
  | .widen .signed32 => "movsxd"
  | .widen kind => if kind.isSigned then "movsx" else "movzx"
  | .lea => "lea"
  | .arith .add => "add"
  | .arith .sub => "sub"
  | .arith .mul => "imul"
  | .arith .and => "and"
  | .arith .or => "or"
  | .arith .xor => "xor"
  | .shift .left => "shl"
  | .shift .rightSigned => "sar"
  | .shift .rightUnsigned => "shr"
  | .cqo => "cqo"
  | .cdq => "cdq"
  | .divide signed => if signed then "idiv" else "div"
  | .count .leading => "lzcnt"
  | .count .trailing => "tzcnt"
  | .count .ones => "popcnt"
  | .cmp => "cmp"
  | .test => "test"
  | .set c => s!"set{c.suffix}"
  | .jumpIf c => s!"j{c.suffix}"
  | .jmp => "jmp"
  | .ret => "ret"
  | .ud2 => "ud2"
  | .movs w => s!"movs{w.letter}"
  | .movq => "movq"
  | .scalar op w => s!"{op.name}s{w.letter}"
  | .sqrt w => s!"sqrts{w.letter}"
  | .round w => s!"rounds{w.letter}"
  | .pcmpeqd => "pcmpeqd"
  | .psllq => "psllq"
  | .psrlq => "psrlq"
  | .andpd => "andpd"
  | .xorpd => "xorpd"

namespace Inst

/-- The size in which the operand at a position is used. -/
def operandSize (i : Inst) (position : Nat) : Size :=
  match i.mnemonic with
  | .widen kind => if position = 1 then kind.source else i.size
  | .set _ => .s8
  | .shift _ => if position = 1 then .s8 else i.size
  | _ => i.size

def renderOperand (i : Inst) (position : Nat) : Operand → String
  | .gpr r => r.name (i.operandSize position)
  | .xmm r => r.name
  | .imm v => Decimal.renderInt v
  | .mem a =>
    if i.mnemonic = .lea then a.render else s!"{(i.operandSize position).pointer} {a.render}"
  | .label l => s!"L{l}"

def render (i : Inst) : String :=
  let operands := i.operands.mapIdx i.renderOperand
  if operands.isEmpty then i.mnemonic.name
  else s!"{i.mnemonic.name} " ++ ", ".intercalate operands

end Inst

end Isel
