import Bisc.InstructionSet

/-!
The instruction set of the machine. The numbering is the machine's own.
-/
namespace Bisc

/-- The opcode that takes the upper half of its operand where the others take the lower half. -/
def lui : UInt8 := 0x11

/-- The real instructions. -/
def opcodeTable : List Opcode := [
  ⟨0x00, "nop", .bare⟩,
  ⟨0x01, "halt", .bare⟩,
  ⟨0x02, "ret", .bare⟩,
  ⟨0x03, "syscall", .bare⟩,
  ⟨0x08, "push", .reg⟩,
  ⟨0x09, "pop", .reg⟩,
  ⟨0x0A, "jmp", .reg⟩,
  ⟨0x0B, "call", .reg⟩,
  ⟨0x10, "lli", .regImm⟩,
  ⟨lui, "lui", .regImm⟩,
  ⟨0x12, "addi", .regImm⟩,
  ⟨0x13, "subi", .regImm⟩,
  ⟨0x14, "andi", .regImm⟩,
  ⟨0x15, "ori", .regImm⟩,
  ⟨0x16, "xori", .regImm⟩,
  ⟨0x17, "shli", .regImm⟩,
  ⟨0x18, "shri", .regImm⟩,
  ⟨0x19, "beqz", .regImm⟩,
  ⟨0x1A, "bnez", .regImm⟩,
  ⟨0x20, "ld", .regMem⟩,
  ⟨0x21, "st", .regMem⟩,
  ⟨0x22, "ldb", .regMem⟩,
  ⟨0x23, "stb", .regMem⟩,
  ⟨0x28, "mov", .regReg⟩,
  ⟨0x29, "not", .regReg⟩,
  ⟨0x2A, "neg", .regReg⟩,
  ⟨0x2B, "cmp", .regReg⟩,
  ⟨0x30, "add", .regRegReg⟩,
  ⟨0x31, "sub", .regRegReg⟩,
  ⟨0x32, "mul", .regRegReg⟩,
  ⟨0x33, "div", .regRegReg⟩,
  ⟨0x34, "rem", .regRegReg⟩,
  ⟨0x35, "and", .regRegReg⟩,
  ⟨0x36, "or", .regRegReg⟩,
  ⟨0x37, "xor", .regRegReg⟩,
  ⟨0x38, "shl", .regRegReg⟩,
  ⟨0x39, "shr", .regRegReg⟩]

/-- The registers a source may name, by number and by use. -/
def registerTable : List (String × UInt8) := [
  ("r0", 0), ("r1", 1), ("r2", 2), ("r3", 3),
  ("r4", 4), ("r5", 5), ("r6", 6), ("r7", 7),
  ("r8", 8), ("r9", 9), ("r10", 10), ("r11", 11),
  ("r12", 12), ("r13", 13), ("r14", 14), ("r15", 15),
  ("zero", 0), ("at", 1), ("a0", 2), ("a1", 3),
  ("a2", 4), ("a3", 5), ("t0", 6), ("t1", 7),
  ("t2", 8), ("t3", 9), ("t4", 10), ("t5", 11),
  ("s0", 12), ("s1", 13), ("sp", 14), ("ra", 15)]

/-- The pseudo-instructions. A form never has the signature of the real instruction of its name. -/
def pseudoTable : List (String × PseudoForm) := [
  ("li", ⟨[.register, .immediate], [s!"lli {slot 0}, .lo {slot 1}", s!"lui {slot 0}, {slot 1}"]⟩),
  ("mov", ⟨[.register, .immediate], [s!"li {slot 0}, {slot 1}"]⟩),
  ("call", ⟨[.immediate], [s!"li at, {slot 0}", "call at"]⟩),
  ("jmp", ⟨[.immediate], [s!"li at, {slot 0}", "jmp at"]⟩),
  ("goto", ⟨[.immediate], [s!"jmp {slot 0}"]⟩),
  ("push", ⟨[.immediate], [s!"li at, {slot 0}", "push at"]⟩),
  ("ld", ⟨[.register, .immediate], [s!"li at, {slot 1}", s!"ld {slot 0}, at[0]"]⟩),
  ("st", ⟨[.register, .immediate], [s!"li at, {slot 1}", s!"st {slot 0}, at[0]"]⟩),
  ("add", ⟨[.register, .register, .immediate],
    [s!"li at, {slot 2}", s!"add {slot 0}, {slot 1}, at"]⟩),
  ("sub", ⟨[.register, .register, .immediate],
    [s!"li at, {slot 2}", s!"sub {slot 0}, {slot 1}, at"]⟩),
  ("inc", ⟨[.register], [s!"addi {slot 0}, 1"]⟩),
  ("dec", ⟨[.register], [s!"subi {slot 0}, 1"]⟩),
  ("clr", ⟨[.register], [s!"xor {slot 0}, {slot 0}, {slot 0}"]⟩),
  ("exit", ⟨[], ["halt"]⟩),
  ("exit", ⟨[.immediate], [s!"li a0, {slot 0}", "halt"]⟩)]

/-- The instruction set of the machine. `pc` and `flags` are registers of the hardware only. -/
def bisc : InstructionSet where
  opcodes := opcodeTable
  registers := registerTable
  reserved := [("pc", 16), ("flags", 17)]
  pseudoOps := pseudoTable

end Bisc
