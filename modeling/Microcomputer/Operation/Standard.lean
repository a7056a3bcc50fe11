import Microcomputer.Alu
import Microcomputer.Operation.Catalog

/-!
# The instruction set

An instruction byte is a group, a source code and a destination code. In the ALU group the source is
the function; the code of the complement, which needs no destination, also serves `NOT` and the
jumps (`Flow`).

* `InstructionSet.opcode` : an instruction byte;
* `InstructionSet.noop` … `InstructionSet.jumpIf` : the encodings of each operation;
* `InstructionSet.table` : the mnemonics and encodings in matching order;
* `Operation.all` : the operations in matching order;
* `Operation.alu`, `Operation.counter`, `Operation.jumpIf` : the operation with any code. A code that
  has no mnemonic of its own makes an operation named by its number.
-/

namespace Microcomputer

namespace InstructionSet

inductive Group where
  | copy
  | load
  | store
  | alu
deriving DecidableEq, Repr

def Group.code : Group → Nat
  | .copy => 0
  | .load => 1
  | .store => 2
  | .alu => 3

/-- What a destination code means where the source is the ALU's complement. -/
inductive Flow where
  | jump
  | jumpIf (flag : Flag)
  | not
deriving DecidableEq, Repr

def Flow.code : Flow → Nat
  | .jump => 0
  | .jumpIf .zero => 1
  | .jumpIf .carry => 2
  | .jumpIf .negative => 3
  | .jumpIf .overflow => 4
  | .not => 6

def opcode (group : Group) (source dest : Nat) : BitField :=
  Layout.instructionByte group.code source dest

def flowOpcode (flow : Flow) : BitField := opcode .alu AluFunction.not.code flow.code

def plain (signature : Signature) (instruction : BitField) (steps : List (List Control)) :
    Encoding :=
  ⟨signature, instruction, [.always steps]⟩

/-! ## Registers by use -/

def setRegisters : List Register := [.acc, .a, .b, .c, .sp]

/-- The registers that exchange data with memory and the ALU. -/
def dataRegisters : List Register := [.acc, .a, .b, .c]

def loadIndexes : List Register := [.acc, .a, .b, .c, .sp, .pc]

def storeIndexes : List Register := [.acc, .a, .b, .c, .sp]

/-! ## Common steps -/

/-- Reads the program byte after the instruction while the given lines are active, and moves PC
behind it. -/
def fetchConstant (lines : List Control) : List (List Control) :=
  [[.pcOut, .marIn], [.ramSelectProgram, .ramOut, .pcCount] ++ lines]

/-- Computes a function of the bus value and keeps result and flags. -/
def compute (f : AluFunction) (lines : List Control) : List Control :=
  lines ++ [.aluStoreResult, .aluStoreFlags] ++ f.selectLines

/-- Counts SP up or down, leaving the result in the ALU and the flags alone. -/
def countStack (f : AluFunction) : List Control := [.spOut, .aluStoreResult] ++ f.selectLines

def jumpSteps : List (List Control) :=
  [[.pcOut, .marIn], [.ramSelectProgram, .ramOut, .pcIn]]

/-! ## Moving data -/

/-- `NOOP` : nothing. -/
def noop : List Encoding := [plain [] (opcode .copy Register.acc.code Register.acc.code) [[]]]

/-- `HALT` : stops the clock. -/
def halt : List Encoding := [plain [] (opcode .copy Register.a.code Register.a.code) [[.halt]]]

/-- `COPY src dest` : copies a register into another one. -/
def copy : List Encoding :=
  Register.all.flatMap fun source =>
    (Register.all.filter (· != source)).map fun dest =>
      plain [.register source false, .register dest false] (opcode .copy source.code dest.code)
        [[source.output, dest.input]]

/-- `SET dest constant` : sets a register. -/
def set : List Encoding :=
  setRegisters.map fun dest =>
    plain [.register dest false, .constant false]
      (opcode .copy Operand.constant.code dest.code) (fetchConstant [dest.input])

/-- `LOAD [src] dest` : reads data memory. -/
def load : List Encoding :=
  dataRegisters.flatMap fun dest =>
    (loadIndexes.map fun source =>
      plain [.register source true, .register dest false] (opcode .load source.code dest.code)
        [[source.output, .marIn], [.ramOut, dest.input]]) ++
      [plain [.constant true, .register dest false]
        (opcode .load Operand.constant.code dest.code)
        (fetchConstant [.marIn] ++ [[.ramOut, dest.input]])]

/-- `STORE src [dest]` : writes data memory. -/
def store : List Encoding :=
  dataRegisters.flatMap fun source =>
    (storeIndexes.map fun dest =>
      plain [.register source false, .register dest true] (opcode .store source.code dest.code)
        [[dest.output, .marIn], [source.output, .ramIn]]) ++
      [plain [.register source false, .constant true]
        (opcode .store source.code Operand.constant.code)
        (fetchConstant [.marIn] ++ [[source.output, .ramIn]])]

/-- `PUSH src` : counts SP down, then stores a register there. -/
def push : List Encoding :=
  dataRegisters.map fun source =>
    plain [.register source false] (opcode .store source.code Operand.stack.code)
      [countStack .decr, [.aluOut, .spIn, .marIn], [source.output, .ramIn]]

/-- `POP dest` : loads a register from where SP points, then counts SP up. -/
def pop : List Encoding :=
  dataRegisters.map fun dest =>
    plain [.register dest false] (opcode .load Operand.stack.code dest.code)
      [[.spOut, .marIn], [.ramOut, dest.input], countStack .incr, [.aluOut, .spIn]]

/-! ## Arithmetic -/

/-- `ADD`, `SUB`, `AND`, `OR`, `XOR` : combines ACC with a register or a constant into ACC. -/
def alu (f : AluFunction) : List Encoding :=
  (dataRegisters.map fun operand =>
    plain [.register operand false] (opcode .alu f.code operand.code)
      [compute f [operand.output], [.aluOut, .accIn]]) ++
    [plain [.constant false] (opcode .alu f.code Operand.constant.code)
      (fetchConstant (compute f []) ++ [[.aluOut, .accIn]])]

/-- `INCR`, `DECR` : counts a register up or down. -/
def counter (f : AluFunction) : List Encoding :=
  setRegisters.map fun r =>
    plain [.register r false] (opcode .alu f.code r.code) [compute f [r.output], [.aluOut, r.input]]

/-- `NOT` : inverts ACC. -/
def not : List Encoding :=
  [plain [] (flowOpcode .not) [compute .not [.accOut], [.aluOut, .accIn]]]

/-! ## Jumps -/

/-- `JUMP constant` : goes on at an address. -/
def jump : List Encoding := [plain [.constant false] (flowOpcode .jump) jumpSteps]

/-- `JUMP_IF_…_FLAG constant` : goes on at an address if a flag is set, else behind the constant. -/
def jumpIf (flag : Flag) : List Encoding :=
  [⟨[.constant false], flowOpcode (.jumpIf flag),
    [⟨[(flag, true)], jumpSteps⟩, ⟨[(flag, false)], [[.pcCount]]⟩]⟩]

def jumpIfMnemonic (flagName : String) : String := "JUMP_IF_" ++ flagName ++ "_FLAG"

def table : List (String × List Encoding) :=
  [("NOOP", noop), ("HALT", halt), ("COPY", copy), ("SET", set), ("LOAD", load), ("STORE", store),
    ("PUSH", push), ("POP", pop)] ++
    [AluFunction.add, .sub, .and, .or, .xor].map (fun f => (f.mnemonic, alu f)) ++
    [(AluFunction.not.mnemonic, not)] ++
    [AluFunction.incr, .decr].map (fun f => (f.mnemonic, counter f)) ++
    [("JUMP", jump)] ++
    Flag.all.map fun flag => (jumpIfMnemonic flag.name, jumpIf flag)

end InstructionSet

/-! ## The operations -/

namespace Operation

def all : List Operation := InstructionSet.table.map fun entry => ofEncodings entry.1 entry.2

def ofMnemonic? (mnemonic : String) : Option Operation := all.find? (·.mnemonic == mnemonic)

def aluMnemonic (code : Int) : String :=
  if 0 ≤ code ∧ code ≤ AluFunction.xor.code then (AluFunction.ofCode code).mnemonic
  else Text.numbered "ALU" code

/-- The two-operand function that the lowest bits of a code select. -/
def alu (code : Int) : Operation :=
  ofEncodings (aluMnemonic code) (InstructionSet.alu (.ofCode code))

def counterMnemonic (code : Int) : String :=
  if code = AluFunction.incr.code ∨ code = AluFunction.decr.code then
    (AluFunction.ofCode code).mnemonic
  else Text.numbered "COUNTER" code

/-- The counting function that the lowest bits of a code select. -/
def counter (code : Int) : Operation :=
  ofEncodings (counterMnemonic code) (InstructionSet.counter (.ofCode code))

def jumpIf (code : Int) : Operation :=
  let mnemonic := InstructionSet.jumpIfMnemonic (Flag.nameAt code)
  match Flag.ofPosition? code with
  | none => ofFault mnemonic (.noJump code)
  | some flag => ofEncodings mnemonic (InstructionSet.jumpIf flag)

end Operation

end Microcomputer
