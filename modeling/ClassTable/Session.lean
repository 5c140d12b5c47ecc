import ClassTable.Program.Basic

/-!
# Sessions

An analysis works on one program and one registry. It can set the program aside and go back to it
later: a checkpoint keeps the program with everything resolved so far, and is not touched by what
happens afterwards. The registry is never set back.
-/

namespace ClassTable

/-- A program under analysis, with the programs set aside. -/
structure Session (ρ : Type) where
  /-- The program as it is. -/
  program : Program := ∅
  /-- The types outside the program. -/
  registry : ρ
  /-- The programs set aside, the latest first. -/
  checkpoints : List Program := []

namespace Session

variable {ρ : Type}

/-- Number of programs set aside. -/
def depth (s : Session ρ) : Nat := s.checkpoints.length

/-- Sets the program aside and goes on with it. -/
def save (s : Session ρ) : Session ρ := { s with checkpoints := s.program :: s.checkpoints }

/-- Goes back to the program set aside last. If there is none, nothing changes. -/
def load (s : Session ρ) : Session ρ :=
  match s.checkpoints with
  | [] => s
  | latest :: earlier => { s with program := latest, checkpoints := earlier }

@[simp] theorem load_save (s : Session ρ) : s.save.load = s := rfl

end Session

end ClassTable
