/-!
# Signatures

A signature is the program-wide name of a declared type:

* at the top level of package `com.app` it is `com/app/Foo`, in the unnamed package `Foo`;
* in the body of the type `com/app/Foo` it is `com/app/Foo$Bar`;
* in code of the type `com/app/Foo` it is `com/app/Foo$1Bar`, where the ordinal counts the types
  declared in code of that type, and an anonymous type adds nothing after its ordinal.
-/

namespace ClassTable.Signature

/-- The name with a slash for every dot. -/
def slashed (name : String) : String :=
  String.ofList (name.toList.map fun c => if c = '.' then '/' else c)

/-- Signature of a type at the top level of a package. -/
def inPackage (package name : String) : String :=
  if package = "" then name else slashed package ++ "/" ++ name

/-- Signature of a type declared directly in the body of another. -/
def inType (outer name : String) : String := outer ++ "$" ++ name

/-- Signature of a type declared in code that belongs to `owner`. -/
def inCode (owner : String) (ordinal : UInt32) (name : String) : String :=
  owner ++ "$" ++ toString ordinal.toNat ++ name

@[simp] theorem inPackage_unnamed (name : String) : inPackage "" name = name := rfl

@[simp] theorem toList_inType (outer name : String) :
    (inType outer name).toList = outer.toList ++ '$' :: name.toList := by
  simp [inType]

end ClassTable.Signature
