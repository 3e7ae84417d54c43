import JetForm.Domain
import JetForm.Tree.Adopt

/-! # Traced expressions

    A traced expression stands for a node of an arena, on a domain.  Several
    problems may be traced side by side, each with an arena of its own; a
    `Workspace` holds them all.

    Expressions and undefined literals are numbered as they are made.  The
    number of an expression says whether two of them are one and the same
    object, which is more than having the same node. -/

namespace JetForm

/-- The arenas of all problems, and the next serial number. -/
structure Workspace where
  arenas : Array Arena := #[]
  serial : Nat := 0

instance : Inhabited Workspace := ⟨{}⟩

/-- Work that traces expressions.  What was built stays after a failure. -/
abbrev Tracing := EStateM Error Workspace

/-- An expression that is recorded instead of evaluated. -/
structure Traced where
  arena : Nat
  handle : Nat
  domain : Domain Float
  serial : Nat

namespace Workspace

/-- The arena of a problem. -/
def arena (w : Workspace) (i : Nat) : Arena :=
  w.arenas[i]?.getD default

/-- Build in the arena of a problem. -/
def within {α : Type} (i : Nat) (build : Building α) : Tracing α := fun w =>
  let arena := w.arena i
  let w := { w with arenas := w.arenas.setIfInBounds i default }
  match build arena with
  | .ok x a => .ok x { w with arenas := w.arenas.setIfInBounds i a }
  | .error e a => .error e { w with arenas := w.arenas.setIfInBounds i a }

/-- The next serial number. -/
def nextSerial : Tracing Nat := fun w =>
  .ok w.serial { w with serial := w.serial + 1 }

/-- A check that builds nothing. -/
def check {α : Type} (x : Except Error α) : Tracing α :=
  match x with
  | .ok v => pure v
  | .error e => throw e

/-- A check of breakpoints. -/
def checkDomain (x : Except (DomainError Float) (Domain Float)) : Tracing (Domain Float) :=
  check (x.mapError .domain)

/-- A plain double as a literal; an undefined one becomes a value of its own. -/
def literal (x : Float) : Tracing Number := do
  if x.isNaN then return .double x (.literal (← nextSerial)) else return .ofFloat x

/-- A scalar of an array library as a literal. -/
def entryLiteral (x : Entry) : Tracing Number := do
  if x.toFloat.isNaN then return .wide x (.literal (← nextSerial)) else return .ofEntry x

/-- An operation on values that are not recorded.  Its failure has no words. -/
def evaluated {α : Type} (x : Except Fault α) : Tracing α :=
  check (x.mapError fun f => .outside (Error.faultKind f))

end Workspace

namespace Traced

/-- The expression for a node. -/
def make (arena handle : Nat) (domain : Domain Float) : Tracing Traced := do
  return ⟨arena, handle, domain, ← Workspace.nextSerial⟩

/-- Metadata of the node of an expression. -/
def info (e : Traced) : Tracing Info := do
  return ((← get).arena e.arena).info e.handle

/-- The first unknown that an expression depends on. -/
def firstVar (e : Traced) : Tracing (Option Nat) := do
  return (← e.info).firstVar

end Traced

/-! ## Placeholders -/

/-- The expressions that an operator is applied to. -/
structure Placeholders where
  time : Traced
  unknowns : List Traced

/-- Fresh placeholders in an arena of their own: the independent variable and
    one expression for each unknown. -/
def Placeholders.create (count : Int) (domain : Domain Float) : Tracing Placeholders := do
  let serial := (← get).arenas.size
  let arena ← Workspace.check (Arena.create count serial)
  modify fun w => { w with arenas := w.arenas.push arena }
  let time ← Workspace.within serial Arena.independent
  let time ← Traced.make serial time domain
  let unknowns ← (List.range count.toNat).mapM fun (i : Nat) => do
    Traced.make serial (← Workspace.within serial (Arena.leaf i)) domain
  return ⟨time, unknowns⟩

end JetForm
