import QuickFix.Binding.Assign
import QuickFix.Binding.Names

/-!
# Parameter shapes

The **shape** of a method is its list of parameter types and whether the last one takes any
number of arguments (*varargs*, whose entry is then the type of each such argument). A shape
**accepts** a list of argument types when each fixed parameter takes the argument at its place
and each argument after them is taken by the varargs parameter.

A call that no shape accepts may still be near one: it may have **extra arguments** (dropped,
greedily from the left, the rest is accepted), **missing parameters** (which no argument fills,
matching greedily from the left), or two arguments in **swapped** places.
-/

namespace QuickFix

/-- The parameter types of a method, and whether the last takes any number of arguments. -/
structure Shape where
  params : List TypeId
  varargs : Bool
  deriving Repr, Inhabited

/-- The two entries at `i` and `j` exchanged; a list without both stays as it is. -/
def swapAt {α : Type} (l : List α) (i j : Nat) : List α :=
  match l[i]?, l[j]? with
  | some a, some c => (l.set i c).set j a
  | _, _ => l

namespace Shape

/-- The shape of a method; varargs only when it has a parameter. -/
def ofMethod (b : Bindings) (m : MethodId) : Shape :=
  let info := b.method m
  { params := info.params, varargs := info.varargs && !info.params.isEmpty }

variable (s : Shape) (b : Bindings)

/-- The number of parameters before the varargs one. -/
def fixed : Nat := if s.varargs then s.params.length - 1 else s.params.length

/-- The type each varargs argument must have. -/
def component : Option TypeId := if s.varargs then s.params.getLast? else none

/-- The shape takes the arguments as they are. -/
def accepts (args : List TypeId) : Bool :=
  if args.length < s.fixed || (!s.varargs && args.length != s.fixed) then false
  else
    (args.zip (s.params.take s.fixed)).all (fun (a, p) => b.isAssignable a p) &&
    match s.component with
    | some c => (args.drop s.fixed).all (b.isAssignable · c)
    | none => true

/-- The positions of the arguments to drop, matching the rest to the parameters from the left;
none when a fixed parameter stays unmatched. -/
def extraArguments (args : List TypeId) : Option (List Nat) :=
  let (param, extras) := args.zipIdx.foldl (fun (param, extras) (arg, idx) =>
    let (consumed, param) :=
      if param < s.fixed then
        match s.params[param]? with
        | some p => if b.isAssignable arg p then (true, param + 1) else (false, param)
        | none => (false, param)
      else ((s.component.map (b.isAssignable arg)).getD false, param)
    (param, if consumed then extras else extras ++ [idx])) ((0 : Nat), ([] : List Nat))
  if param == s.fixed then some extras else none

/-- The positions of the fixed parameters that no argument fills, matching from the left; none
when an argument stays unmatched. -/
def missingParameters (args : List TypeId) : Option (List Nat) :=
  let (arg, missing) := (List.range s.fixed).foldl (fun (arg, missing) param =>
    match args[arg]?, s.params[param]? with
    | some a, some p => if b.isAssignable a p then (arg + 1, missing) else (arg, missing ++ [param])
    | _, _ => (arg, missing ++ [param])) ((0 : Nat), ([] : List Nat))
  let arg := match s.component with
    | some c => arg + ((args.drop arg).takeWhile (b.isAssignable · c)).length
    | none => arg
  if arg == args.length then some missing else none

/-- The shape with two parameters exchanged. -/
def swapped (i j : Nat) : Shape := { s with params := swapAt s.params i j }

/-- The first two fixed places whose exchange makes the shape accept the arguments. -/
def swap (args : List TypeId) : Option (Nat × Nat) :=
  if args.length != s.params.length then none
  else
    let pairs := (List.range s.fixed).flatMap fun i =>
      ((List.range s.fixed).filter (i < ·)).map (i, ·)
    pairs.find? fun (i, j) => (s.swapped i j).accepts b args

/-- The signature as a user reads it: `foo(int, String...)`. -/
def signature (name : String) : String :=
  let ps := s.params.zipIdx.map fun (ty, idx) =>
    b.display ty ++ (if s.varargs && idx + 1 == s.params.length then "..." else "")
  name ++ "(" ++ ", ".intercalate ps ++ ")"

end Shape

end QuickFix
