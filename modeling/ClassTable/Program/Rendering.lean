import ClassTable.Program.Basic
import ClassTable.Registry.Basic

/-!
# Readable signatures

A registry knows declared types only by their ids, so the text it has for a composite type may
mention a bare id. The program knows better: `readableSignature` takes composite types apart and
writes the declared types in them by their signatures, as in `java/lang/Enum<com/app/Color>` and
`com/app/Foo[]`. The generic type of a specialization is written as the registry has it.

There is no text for a type that the program or the registry does not know.
-/

namespace ClassTable.Program

variable {ρ : Type} [Registry ρ]

/-- What sort of type it is, as the program or the registry knows it. -/
def kindOf (p : Program) (r : ρ) : TypeHandle → Option Kind
  | .declared id => (p.types.get? id).map Declaration.kind
  | .canonical i => Registry.kind? r i

/-- The signature of a type whose composite parts nest less than `depth` deep. -/
def signatureWithin (p : Program) (r : ρ) (depth : Nat) (type : TypeHandle) : Option String :=
  match depth, type with
  | _, .declared id => (p.types.get? id).map Declaration.signature
  | 0, .canonical _ => none
  | depth + 1, .canonical i =>
    match Registry.element? r i with
    | some element => (p.signatureWithin r depth element).map (· ++ "[]")
    | none =>
      match Registry.specialization? r i with
      | some (generic, arguments) => do
        let base ← Registry.signature? r generic
        let texts ← arguments.mapM (p.signatureWithin r depth)
        return base ++ "<" ++ ",".intercalate texts ++ ">"
      | none => Registry.signature? r i

/-- The signature of a type, with every declared type in it written by its own signature. -/
def readableSignature (p : Program) (r : ρ) (type : TypeHandle) : Option String :=
  p.signatureWithin r (Registry.nestingBound r + 1) type

end ClassTable.Program
