import QuickFix.Binding.Hierarchy

/-!
# Assignment compatibility

A value of one type may be assigned to a variable of another when the types are equal up to
erasure; when the value is `null` and the variable has a reference type; by **widening** between
primitives (`byte < short < int < long < float < double`, and `char` to `int` and above); by
sub-typing between reference types; by **boxing** a primitive into its box class or `Object`; and
by **unboxing** a `java.lang` box into its primitive or a primitive it widens to. Nothing is
assigned to or from `void`.
-/

namespace QuickFix

namespace Bindings

/-- Each primitive with the class that boxes it. -/
def boxes : List (String × String) :=
  [("boolean", "Boolean"), ("byte", "Byte"), ("short", "Short"), ("char", "Character"),
   ("int", "Integer"), ("long", "Long"), ("float", "Float"), ("double", "Double")]

/-- The numeric primitives that `char` is not among, narrowest first. -/
def widthOrder : List String := ["byte", "short", "int", "long", "float", "double"]

/-- Whether the primitive named `src` converts to the one named `dst` without a cast. -/
def widens (src dst : String) : Bool :=
  if src == dst then true
  else if src == "char" then ["int", "long", "float", "double"].contains dst
  else match widthOrder.idxOf? src, widthOrder.idxOf? dst with
    | some i, some j => i < j
    | _, _ => false

variable (b : Bindings)

/-- Whether a value of type `src` may be assigned to a variable of type `dst`. -/
def isAssignable (src dst : TypeId) : Bool :=
  if src == dst || b.erase src == b.erase dst then true
  else if src == null then b.isReference dst
  else if src == void || dst == void then false
  else match b.isPrimitive src, b.isPrimitive dst with
    | true, true => widens (b.ty src).name (b.ty dst).name
    | false, false => b.isSubtype dst src false
    | true, false =>
      match boxes.lookup (b.ty src).name with
      | some box => (b.ty (b.erase dst)).name == box || dst == object
      | none => false
    | false, true =>
      let name := (b.ty (b.erase src)).name
      b.packageOf src == some "java.lang" &&
        boxes.any fun (prim, box) =>
          name == box && match primitive? prim with
            | some p => p == dst || widens (b.ty p).name (b.ty dst).name
            | none => false

end Bindings

end QuickFix
