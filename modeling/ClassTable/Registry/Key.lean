import ClassTable.Handle
import Std.Data.TreeMap.Lemmas

/-!
# Keys of registry types

What makes a registry type the type that it is: a named type is its signature, a specialization
is its generic type with the arguments, an array is its element type. Two requests with the same
key get the same type.

Keys are ordered by an injective spelling as lists of numbers, which makes the order linear.
-/

namespace ClassTable

/-- The identity of a registry type. -/
inductive TypeKey where
  /-- A type known by its signature. -/
  | named (signature : String)
  /-- A generic type applied to arguments. -/
  | specialized (generic : TypeIndex) (arguments : List TypeHandle)
  /-- An array of elements of one type. -/
  | array (element : TypeHandle)
  deriving DecidableEq

/-- A handle as two numbers. -/
def TypeHandle.spelling : TypeHandle → List Nat
  | canonical index => [0, index.raw]
  | declared id => [1, id.index]

namespace TypeKey

/-- A key as a list of numbers. -/
def spelling : TypeKey → List Nat
  | named signature => 0 :: signature.toList.map Char.toNat
  | specialized generic arguments => 1 :: generic.raw :: arguments.flatMap TypeHandle.spelling
  | array element => 2 :: element.spelling

theorem spelling_handle_inj {a b : TypeHandle} (h : a.spelling = b.spelling) : a = b := by
  cases a <;> cases b <;> simp_all [TypeHandle.spelling, TypeIndex.ext_iff, EntityId.ext_iff]

theorem flatMap_spelling_inj {as bs : List TypeHandle}
    (h : as.flatMap TypeHandle.spelling = bs.flatMap TypeHandle.spelling) : as = bs := by
  induction as generalizing bs with
  | nil =>
    cases bs with
    | nil => rfl
    | cons b bs => cases b <;> simp [TypeHandle.spelling] at h
  | cons a as ih =>
    cases bs with
    | nil => cases a <;> simp [TypeHandle.spelling] at h
    | cons b bs =>
      have hlen : a.spelling.length = b.spelling.length := by
        cases a <;> cases b <;> rfl
      simp only [List.flatMap_cons] at h
      obtain ⟨hhead, htail⟩ := List.append_inj h hlen
      rw [spelling_handle_inj hhead, ih htail]

/-- A key can be told from its spelling. -/
theorem spelling_inj {a b : TypeKey} (h : a.spelling = b.spelling) : a = b := by
  cases a with
  | named s =>
    cases b with
    | named t =>
      simp only [spelling, List.cons.injEq, true_and] at h
      have := (List.map_inj_right (fun _ _ => Char.toNat_inj.1)).1 h
      rw [String.toList_inj.1 this]
    | specialized => simp [spelling] at h
    | array => simp [spelling] at h
  | specialized g as =>
    cases b with
    | named => simp [spelling] at h
    | specialized k bs =>
      simp only [spelling, List.cons.injEq, true_and] at h
      obtain ⟨hg, has⟩ := h
      rw [flatMap_spelling_inj has]
      cases g
      cases k
      simp_all
    | array => simp [spelling] at h
  | array x =>
    cases b with
    | named => simp [spelling] at h
    | specialized => simp [spelling] at h
    | array y =>
      simp only [spelling, List.cons.injEq, true_and] at h
      rw [spelling_handle_inj h]

instance : Ord TypeKey := ⟨compareOn spelling⟩

instance : Std.TransOrd TypeKey where
  eq_swap {a b} := Std.OrientedOrd.eq_swap (a := a.spelling) (b := b.spelling)
  isLE_trans {a b c} h k :=
    Std.TransOrd.isLE_trans (a := a.spelling) (b := b.spelling) (c := c.spelling) h k

instance : Std.LawfulEqOrd TypeKey where
  compare_self {a} := Std.ReflOrd.compare_self (a := a.spelling)
  eq_of_compare {a b} h :=
    spelling_inj (Std.LawfulEqOrd.eq_of_compare (a := a.spelling) (b := b.spelling) h)

end TypeKey

end ClassTable
