import JetForm.Trace.ArrayFunction

/-! # Formulas

    A formula is an expression as it is written down: names, literals and
    operations.  Evaluating it on placeholders traces it; on plain numbers the
    same operations compute.

    Arguments are evaluated from left to right.  `ownDiff` asks an operand for
    its own derivative, which `diff` takes of any operand.  The formula `elsewhere` is
    evaluated on fresh placeholders, in an arena of its own. -/

namespace JetForm

/-- An expression as it is written down. -/
inductive Formula where
  | symbol (name : String)
  | double (x : Float)
  | wide (x : Float)
  | literal (v : Operand)
  | external (name : String)
  | list (items : List Formula)
  | sign (s : Expression.Sign) (x : Formula)
  | elementary (op : UnaryOp) (x : Formula)
  | arithmetic (op : BinaryOp) (left right : Formula)
  | unruled (op : UnruledOp) (left right : Formula)
  | convert (c : Expression.Conversion) (x : Formula)
  | diff (x order : Formula)
  | ownDiff (x order : Formula)
  | attribute (name : String) (x : Formula)
  | apply (name : String) (x : Formula)
  | combine (op : String) (left right : Formula)
  | arrayFunction (name : String) (style : CallStyle) (args : List Formula)
  | elsewhere (names : List String) (count : Int) (points : List Float) (body : Formula)

instance : Inhabited Formula := ⟨.list []⟩

/-- The meaning of the names in a formula. -/
structure Scope where
  names : List (String × Operand) := []
  externals : List (String × External) := []

namespace Scope

/-- Give a meaning to a name, which hides an earlier one. -/
def bind (s : Scope) (name : String) (v : Operand) : Scope :=
  { s with names := (name, v) :: s.names }

/-- Give placeholders the listed names, the independent variable first. -/
def withPlaceholders (s : Scope) (names : List String) (time : Traced) (unknowns : List Traced) :
    Scope :=
  { s with names := (names.zip ((time :: unknowns).map Operand.traced)).reverse ++ s.names }

end Scope

namespace Formula

open Expression

mutual

/-- Evaluate a formula. -/
def eval (s : Scope) : Formula → Tracing Operand
  | .symbol name =>
    match s.names.lookup name with
    | some v => return v
    | none => throw (.outside .key)
  | .double x => .number <$> Workspace.literal x
  | .wide x => .number <$> Workspace.entryLiteral (.real x)
  | .literal v => return v
  | .external name =>
    match s.externals.lookup name with
    | some f => return .external f
    | none => throw (.outside .key)
  | .list items => .sequence <$> evalAll s items
  | .sign g x => do Expression.sign g (← eval s x)
  | .elementary op x => do Expression.elementary op (← eval s x)
  | .arithmetic op l r => do
    let l ← eval s l
    Expression.arithmetic op l (← eval s r)
  | .unruled op l r => do
    let l ← eval s l
    Expression.unruled op l (← eval s r)
  | .convert c x => do Expression.convert c (← eval s x)
  | .diff x order => do
    let x ← eval s x
    Expression.diff x (← eval s order)
  | .ownDiff x order => do
    let x ← eval s x
    Expression.ask x (.derivative (← eval s order))
  | .attribute name x => do Expression.ask (← eval s x) (.method name)
  | .apply name x => do Expression.ask (← eval s x) (.function name)
  | .combine op l r => do
    let l ← eval s l
    .traced <$> Expression.combine op l (← eval s r)
  | .arrayFunction name style args => do
    ArrayFunction.call name style (← evalAll s args)
  | .elsewhere names count points body => do
    let domain ← Workspace.checkDomain (Domain.create points)
    let p ← Placeholders.create count domain
    eval ({ s with names := [] }.withPlaceholders names p.time p.unknowns) body

/-- Evaluate formulas in order. -/
def evalAll (s : Scope) : List Formula → Tracing (List Operand)
  | [] => return []
  | f :: rest => do
    let v ← eval s f
    return v :: (← evalAll s rest)

end

/-- Evaluate a formula `count` times; `_` stands for the result before. -/
def iterate (s : Scope) (f : Formula) : Nat → Operand → Tracing Operand
  | 0, x => return x
  | count + 1, x => do iterate s f count (← f.eval (s.bind "_" x))

end Formula

end JetForm
