import JetForm.Program.Basic

/-! # Generated text

    The text of an evaluator: one statement for each external function, one for
    each instruction, and a last one that returns the outputs. -/

namespace JetForm

namespace Program

/-- How an argument is written in a statement. -/
def argumentText : Argument → String
  | .register i => s!"r{i}"
  | .state s => s!"x[..., {s}]"
  | .time => "t"
  | .constant h _ => s!"c{h}"

/-- The right-hand side of a statement. -/
def instructionText : Instruction → String
  | .unary op x => op.name ++ "(" ++ argumentText x ++ ")"
  | .binary op x y => argumentText x ++ " " ++ op.codeSymbol ++ " " ++ argumentText y

/-- The outputs, separated by commas. -/
def outputText (p : Program) : String :=
  ", ".intercalate (p.outputs.map argumentText)

/-- The text of an evaluator with the given name and last statement. -/
def source (p : Program) (name last : String) : String :=
  let externals := p.constants.filterMap fun (h, v) =>
    if v.isNumber then none else some s!"    c{h} = _call_external(_f{h}, t)"
  let statements := p.instructions.toList.mapIdx fun i instruction =>
    s!"    r{i} = " ++ instructionText instruction
  let lines := ("def " ++ name ++ "(t, x):") :: externals ++ statements ++ ["    " ++ last]
  "\n".intercalate lines ++ "\n"

/-- The text of a vector field: all outputs are stacked. -/
def fieldSource (p : Program) (name : String) : String :=
  p.source name ("return _stack([" ++ p.outputText ++ "], t, x)")

/-- The text of a function with a single output. -/
def scalarSource (p : Program) (name : String) : String :=
  p.source name ("return _scalar(" ++ p.outputText ++ ", t)")

end Program

end JetForm
