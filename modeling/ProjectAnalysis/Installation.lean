import ProjectAnalysis.FilePath
import ProjectAnalysis.ToolsVersion

/-! Where the build engine is installed. -/
namespace ProjectAnalysis

structure Installation where
  toolsVersion : ToolsVersion
  binPath : FilePath
  toolsPath : FilePath
  /-- The directories to search for extensions, in order. -/
  extensionPaths : List FilePath
  /-- The directory of the SDKs, if there is one. -/
  sdksPath : Option FilePath
deriving DecidableEq, Repr

namespace Installation

def standard : Installation where
  toolsVersion := .v15
  binPath := ⟨"/usr/lib/mono/msbuild/15.0/bin"⟩
  toolsPath := ⟨"/usr/lib/mono/msbuild/15.0/bin"⟩
  extensionPaths := [⟨"/usr/lib/mono/xbuild"⟩]
  sdksPath := none

/-- The properties that stand for the directories of extensions. -/
def extensionProperties : List String :=
  ["MSBuildExtensionsPath", "MSBuildExtensionsPath32", "MSBuildExtensionsPath64"]

/-- The directories that a property stands for, if it is one of those. -/
def searchPaths? (i : Installation) (property : String) : Option (List FilePath) :=
  if extensionProperties.any fun p => sameIgnoringCase p.toList property.toList then
    some i.extensionPaths
  else none

/-- The directory of an SDK, by its name without a version after `/`. -/
def sdkDirectory? (i : Installation) (name : String) : Option FilePath :=
  let bare := trim (name.toList.takeWhile (· != '/'))
  if bare.isEmpty then none
  else i.sdksPath.map fun sdks => (sdks.join ⟨String.ofList bare⟩).join ⟨"Sdk"⟩

end Installation

end ProjectAnalysis
