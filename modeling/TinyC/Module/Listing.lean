import TinyC.Module.Basic
import TinyC.Number.Format
import TinyC.Text.Columns

/-!
# Listings of modules

A module as text for the reader: its globals with their bytes in quotes, and for each function a
table of its instructions. A pushed word that is too great for a usual integer is shown as a
double as well, since it most likely is one.
-/

namespace TinyC

/-- The operand of an instruction as a listing shows it. -/
def Instr.operandText (i : Instr) : String :=
  let n := i.operand.toInt
  if i.op.operandSize = 0 then ""
  else if i.op = .push ∧ (n < -2 ^ 31 ∨ 2 ^ 31 < n) then
    toString n ++ " (" ++ Number.generalText i.operand.toUInt64 ++ ")"
  else toString n

/-- The line of a global. -/
def Global.line (index : Nat) (g : Global) : String :=
  " " ++ Text.padLeft 8 (toString index) ++ " "
    ++ Text.padRight 5 (if g.constant then "const" else "let") ++ " "
    ++ Text.quotedBytes g.data ++ "\n"

/-- The heading and the table of a function. -/
def Routine.listing (f : Routine) : String :=
  "Function " ++ toString f.slot ++ ": returns " ++ toString f.returns ++ " params "
    ++ toString f.params ++ " locals " ++ toString f.locals ++ "\n"
    ++ Text.alignRight (["disasm", "l", "op", "opnd"] ::
      f.code.toList.mapIdx fun n i => ["", toString n, i.op.name, i.operandText])

/-- A module as text. -/
def Module.listing (m : Module) : String :=
  "Module: magic 0x" ++ Text.hex 8 m.magic.toNat ++ " version " ++ toString m.version.toNat ++ "\n"
    ++ "Globals\n"
    ++ String.join (m.globals.toList.mapIdx Global.line)
    ++ String.join (m.functions.toList.map Routine.listing)

end TinyC
