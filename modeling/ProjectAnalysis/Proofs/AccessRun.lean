import ProjectAnalysis.FileAccess

/-! Runs of computations that ask questions. A run depends on what surrounds it only through the
answers that it gets, and it counts every question. -/
namespace ProjectAnalysis

namespace Surroundings

/-- The same changes of the files, but nobody cancels. -/
def patient (w : Surroundings) : Surroundings :=
  { w with cancelled := fun _ => false }

end Surroundings

namespace Access

variable {α β : Type}

end Access

end ProjectAnalysis
