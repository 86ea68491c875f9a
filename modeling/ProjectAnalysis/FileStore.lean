import ProjectAnalysis.FilePath
import ProjectAnalysis.OrderedTable

/-! Files held in memory. Every write takes the next time of a clock, so a file that was written
again is newer than all that was read before. Reads are counted, failed ones too. -/
namespace ProjectAnalysis

structure StoredFile where
  text : String
  /-- The time of the last change, in seconds. -/
  modified : Nat
  /-- There, but not to be read. -/
  unreadable : Bool
deriving DecidableEq, Repr

/-- Why a file could not be used, with its path as it was asked for. -/
inductive FileFault
  | notFound (path : FilePath)
  | permissionDenied (path : FilePath)
deriving DecidableEq, Repr

structure FileStore where
  /-- The time of the latest write. -/
  clock : Nat
  /-- The files by the parts of their paths. -/
  files : OrderedTable (List PathPart) StoredFile
  /-- What was asked to be read, the latest first. -/
  reads : List (List PathPart)

namespace FileStore

def empty : FileStore :=
  ⟨0, .empty, []⟩

def file? (s : FileStore) (p : FilePath) : Option StoredFile :=
  s.files.get? p.parts

def contains (s : FileStore) (p : FilePath) : Bool :=
  s.files.contains p.parts

/-- Creates a file, or replaces the one that is there. -/
def write (s : FileStore) (p : FilePath) (text : String) : FileStore :=
  let time := s.clock + 1
  { s with clock := time, files := s.files.insert p.parts ⟨text, time, false⟩ }

/-- Replaces the text of a file and keeps its time. -/
def replaceText (s : FileStore) (p : FilePath) (text : String) : FileStore :=
  { s with files := s.files.modify p.parts fun f => { f with text := text } }

def setModified (s : FileStore) (p : FilePath) (time : Nat) : FileStore :=
  { s with files := s.files.modify p.parts fun f => { f with modified := time } }

def setUnreadable (s : FileStore) (p : FilePath) (unreadable : Bool) : FileStore :=
  { s with files := s.files.modify p.parts fun f => { f with unreadable := unreadable } }

def remove (s : FileStore) (p : FilePath) : FileStore :=
  { s with files := s.files.erase p.parts }

/-- The time of the last change of a file. -/
def modified (s : FileStore) (p : FilePath) : Except FileFault Nat :=
  match s.file? p with
  | some f => .ok f.modified
  | none => .error (.notFound p)

/-- The text of a file. -/
def text (s : FileStore) (p : FilePath) : Except FileFault String :=
  match s.file? p with
  | some f => if f.unreadable then .error (.permissionDenied p) else .ok f.text
  | none => .error (.notFound p)

/-- Counts a read. -/
def noteRead (s : FileStore) (p : FilePath) : FileStore :=
  { s with reads := p.parts :: s.reads }

def readCount (s : FileStore) (p : FilePath) : Nat :=
  s.reads.count p.parts

end FileStore

end ProjectAnalysis
