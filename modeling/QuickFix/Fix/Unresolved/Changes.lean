import QuickFix.Fix.Unresolved.Shape
import QuickFix.Fix.Unresolved.Naming
import QuickFix.Fix.Operation

/-!
# Changes that make a call match a method

When a call matches no declaration, two kinds of change can make it match one. At the call,
**argument changes** drop the extra arguments, add the missing ones (named after the
parameters), or swap two arguments. At the declaration, **signature changes** add parameters for
the extra arguments, remove the unmatched parameters, swap two parameters, or give the
mismatched parameters the types of their arguments. A varargs parameter stays last, and a
signature change that would still not accept the call is not proposed.
-/

namespace QuickFix

/-- An argument of the call: its node, its type, and the type a parameter for it is given. -/
structure CallArgument where
  node : NodeId
  ty : TypeId
  stubTy : TypeId
  deriving Repr, Inhabited

/-- The shape of a method after a change of its parameters: the type of each slot, and varargs
only while the varargs parameter stays last. -/
def Shape.withSlots (shape : Shape) (params : List ParameterSlot) : Shape :=
  { params := params.map fun
      | .existing i => shape.params.getD i default
      | .retyped _ ty | .new ty _ => ty
    varargs := shape.varargs && match params.getLast? with
      | some (.existing i) => i + 1 == shape.params.length
      | _ => false }

namespace CallArgument

/-- The changes at the call that make its arguments match the method. -/
def argumentChanges (t : SyntaxTree) (b : Bindings) (m : MethodId) (args : List CallArgument) :
    List ArgumentChange :=
  let info := b.method m
  let shape := Shape.ofMethod b m
  let tys := args.map (·.ty)
  let sig := shape.signature b info.name
  let positions := List.range args.length
  let drop := match shape.extraArguments b tys with
    | some extras@(_ :: _) =>
      [{ arguments := (positions.filter (!extras.contains ·)).map .existing,
         label := Messages.removeArguments extras.length sig }]
    | _ => []
  let add := match shape.missingParameters b tys with
    | some missing@(_ :: _) =>
      let (arguments, _) := (List.range shape.params.length).foldl (fun (acc, next) param =>
        if missing.contains param then
          let name := info.paramNames[param]?.getD (Naming.ofType b (shape.params.getD param default))
          (acc ++ [ArgumentSlot.new name], next)
        else if shape.varargs && param + 1 == shape.params.length then
          (acc ++ (positions.filter (next ≤ ·)).map .existing, args.length)
        else (acc ++ [ArgumentSlot.existing next], next + 1)) (([] : List ArgumentSlot), (0 : Nat))
      [{ arguments, label := Messages.addArguments missing.length sig }]
    | _ => []
  let swap := match shape.swap b tys with
    | some (i, j) =>
      [{ arguments := swapAt (positions.map .existing) i j,
         label := Messages.swapArguments (t.source (args.getD i default).node)
           (t.source (args.getD j default).node) }]
    | none => []
  drop ++ add ++ swap

/-- The changes at the declaration of the method that make it accept the arguments. -/
def signatureChanges (t : SyntaxTree) (b : Bindings) (m : MethodId) (args : List CallArgument) :
    List SignatureChange :=
  let info := b.method m
  let shape := Shape.ofMethod b m
  let tys := args.map (·.ty)
  let old := shape.signature b info.name
  let count := shape.params.length
  let propose := fun (params : List ParameterSlot) =>
    let changed := shape.withSlots params
    if changed.accepts b tys then
      [{ params, label := Messages.changeSignature info.isConstructor old (changed.signature b info.name) }]
    else []
  let add := match shape.extraArguments b tys with
    | some extras@(_ :: _) =>
      let names := Naming.forArguments t b
        (extras.map fun i => ((args.getD i default).node, (args.getD i default).stubTy)) info.paramNames
      let (params, _) := (List.range args.length).foldl (fun (acc, param) idx =>
        match extras.idxOf? idx with
        | some pos => (acc ++ [ParameterSlot.new (args.getD idx default).stubTy (names.getD pos "")], param)
        | none => if param < shape.fixed then (acc ++ [ParameterSlot.existing param], param + 1)
          else (acc, param)) (([] : List ParameterSlot), (0 : Nat))
      propose (if shape.varargs then params ++ [.existing (count - 1)] else params)
    | _ => []
  let remove := match shape.missingParameters b tys with
    | some missing@(_ :: _) => propose (((List.range count).filter (!missing.contains ·)).map .existing)
    | _ => []
  let rearrange :=
    if args.length == count && !shape.accepts b tys then
      match shape.swap b tys with
      | some (i, j) => propose (swapAt ((List.range count).map .existing) i j)
      | none => propose ((List.range count).map fun idx =>
          let a := args.getD idx default
          if idx < shape.fixed && !b.isAssignable a.ty (shape.params.getD idx default) then
            .retyped idx a.stubTy
          else .existing idx)
    else []
  add ++ remove ++ rearrange

end CallArgument

end QuickFix
