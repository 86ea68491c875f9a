import ProjectAnalysis.SymbolInfo
import ProjectAnalysis.ToolsVersion

/-! The properties and the metadata that every project has, by tools version. -/
namespace ProjectAnalysis

/-- A well-known property and the version that it came with. -/
structure BuiltinProperty where
  name : String
  description : String
  reserved : Bool
  since : ToolsVersion

/-- Well-known metadata and the version that it came with. -/
structure BuiltinMetadata where
  name : String
  description : String
  since : ToolsVersion

def builtinProperties : List BuiltinProperty := [
  ⟨"MSBuildBinPath", "Absolute path of the MSBuild bin directory", true, .v2⟩,
  ⟨"MSBuildExtensionsPath", "Absolute path of the MSBuild extensions directory", false, .v2⟩,
  ⟨"MSBuildExtensionsPath32", "Path of the 32-bit MSBuild extensions directory", false, .v3⟩,
  ⟨"MSBuildExtensionsPath64", "Path of the 64-bit MSBuild extensions directory", false, .v4⟩,
  ⟨"MSBuildLastTaskResult", "Whether the previous task completed without errors", true, .v4⟩,
  ⟨"MSBuildNodeCount", "Maximum number of concurrent build nodes", true, .v3⟩,
  ⟨"MSBuildProgramFiles32", "Location of the 32-bit program files folder", true, .v4⟩,
  ⟨"MSBuildProjectDefaultTargets", "The project's DefaultTargets attribute", true, .v2⟩,
  ⟨"MSBuildProjectDirectory", "Directory of the project file", true, .v2⟩,
  ⟨"MSBuildProjectDirectoryNoRoot", "Project directory without the root", true, .v2⟩,
  ⟨"MSBuildProjectExtension", "Extension of the project file", true, .v2⟩,
  ⟨"MSBuildProjectFile", "File name of the project file", true, .v2⟩,
  ⟨"MSBuildProjectFullPath", "Absolute path of the project file", true, .v2⟩,
  ⟨"MSBuildProjectName", "File name of the project without extension", true, .v2⟩,
  ⟨"MSBuildRuntimeType", "Runtime hosting MSBuild (Full, Core or Mono)", true, .v15⟩,
  ⟨"MSBuildStartupDirectory", "Directory MSBuild was invoked from", true, .v3⟩,
  ⟨"MSBuildThisFile", "File name of the file containing the reference", true, .v4⟩,
  ⟨"MSBuildThisFileDirectory", "Directory of the file containing the reference", true, .v4⟩,
  ⟨"MSBuildThisFileDirectoryNoRoot", "Directory of this file without the root", true, .v4⟩,
  ⟨"MSBuildThisFileExtension", "Extension of the file containing the reference", true, .v4⟩,
  ⟨"MSBuildThisFileFullPath", "Absolute path of the current file", true, .v4⟩,
  ⟨"MSBuildThisFileName", "Name of the current file without extension", true, .v4⟩,
  ⟨"MSBuildToolsPath", "Directory of the MSBuild tools for the tools version", true, .v3⟩,
  ⟨"MSBuildToolsVersion", "Tools version used to build the project", true, .v3⟩]

def builtinMetadata : List BuiltinMetadata := [
  ⟨"AccessedTime", "Time the item was last accessed", .v2⟩,
  ⟨"CreatedTime", "Time the item was created", .v2⟩,
  ⟨"DefiningProjectDirectory", "Directory of the project that defined the item", .v4⟩,
  ⟨"DefiningProjectExtension", "Extension of the project that defined the item", .v4⟩,
  ⟨"DefiningProjectFullPath", "Absolute path of the project that defined the item", .v4⟩,
  ⟨"DefiningProjectName", "Name of the project that defined the item", .v4⟩,
  ⟨"Directory", "Directory of the item, without the root", .v2⟩,
  ⟨"Extension", "File name extension of the item", .v2⟩,
  ⟨"Filename", "File name of the item without extension", .v2⟩,
  ⟨"FullPath", "Absolute path of the item", .v2⟩,
  ⟨"Identity", "The item specification as written", .v2⟩,
  ⟨"ModifiedTime", "Time the item was last modified", .v2⟩,
  ⟨"RecursiveDir", "Directory matched by a recursive wildcard", .v2⟩,
  ⟨"RelativeDir", "Directory of the item as written", .v2⟩,
  ⟨"RootDir", "Root directory of the item", .v2⟩]

/-- The well-known symbols of one tools version. -/
structure Builtins where
  properties : SymbolTable PropertyInfo
  metadata : SymbolTable MetadataInfo

namespace Builtins

def of (v : ToolsVersion) : Builtins where
  properties := (builtinProperties.filter (v.supports ·.since)).foldl
    (fun t p => SymbolTable.insert t p.name ⟨p.name, some p.description, true, p.reserved⟩) .empty
  metadata := (builtinMetadata.filter (v.supports ·.since)).foldl
    (fun t m => SymbolTable.insert t m.name ⟨m.name, some m.description, true⟩) .empty

def isProperty (b : Builtins) (name : String) : Bool :=
  b.properties.contains name

def isMetadata (b : Builtins) (name : String) : Bool :=
  b.metadata.contains name

end Builtins

end ProjectAnalysis
