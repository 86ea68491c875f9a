import ProjectAnalysis.Proofs.ImportWalkPlain

/-! The order of the imports of a document. The imports are the closure of its sites in depth
first preorder, each file once, and the walk ends however the files import each other. -/
namespace ProjectAnalysis

namespace ImportWalk

variable {w : ImportWalk} {s : FileStore}

end ImportWalk

namespace Resolver

variable (r : Resolver) (file : FilePath) (d : Xml.Document) (s : FileStore)

/-- The imports of a file with the given text. -/
def sitesOf (p : FilePath) (text : String) : List ImportSite :=
  (FileSymbols.ofDocument (.of (toolsVersion d)) (.ofFile r.installation (r.project file) p)
    (.ofText text)).sites

/-- The files that are visited after some sites in depth first preorder, when some files were
visited before them. -/
inductive Preorder : List ImportSite → List FilePath → List FilePath → Prop
  | done (visited : List FilePath) : Preorder [] visited visited
  /-- There is no such file, or it is the document, was visited or cannot be read. -/
  | skip {site : ImportSite} {sites : List ImportSite} {visited paths : List FilePath}
      (h : ∀ p, site.fileIn s = some p → p.same file = true ∨ (∃ q ∈ visited, q.same p = true) ∨
        ∃ fault, s.text p = .error fault)
      (rest : Preorder sites visited paths) :
      Preorder (site :: sites) visited paths
  | visit {site : ImportSite} {sites : List ImportSite} {visited below paths : List FilePath}
      {p : FilePath} {text : String} (hfile : site.fileIn s = some p)
      (hroot : p.same file = false) (hnew : ∀ q ∈ visited, q.same p = false)
      (htext : s.text p = .ok text)
      (own : Preorder (r.sitesOf file d p text) (visited ++ [p]) below)
      (rest : Preorder sites below paths) :
      Preorder (site :: sites) visited paths

variable {r file d s}

theorem not_skipped {site : ImportSite} {visited : List FilePath} {p : FilePath} {text : String}
    (hfile : site.fileIn s = some p) (hroot : p.same file = false)
    (hnew : ∀ q ∈ visited, q.same p = false) (htext : s.text p = .ok text) :
    ¬∀ p, site.fileIn s = some p → p.same file = true ∨ (∃ q ∈ visited, q.same p = true) ∨
      ∃ fault, s.text p = .error fault := by
  intro h
  rcases h p hfile with h | ⟨q, hq, h⟩ | ⟨fault, h⟩
  · simp [hroot] at h
  · simp [hnew q hq] at h
  · simp [htext] at h

theorem Preorder.unique {sites : List ImportSite} {visited paths₁ paths₂ : List FilePath}
    (h₁ : r.Preorder file d s sites visited paths₁)
    (h₂ : r.Preorder file d s sites visited paths₂) : paths₁ = paths₂ := by
  induction h₁ generalizing paths₂ with
  | done visited =>
    cases h₂
    rfl
  | skip h _ ih =>
    cases h₂ with
    | skip _ rest => exact ih rest
    | visit hfile hroot hnew htext _ _ => exact absurd h (not_skipped hfile hroot hnew htext)
  | visit hfile hroot hnew htext _ _ ihown ihrest =>
    cases h₂ with
    | skip h _ => exact absurd h (not_skipped hfile hroot hnew htext)
    | visit hfile' _ _ htext' own rest =>
      cases hfile.symm.trans hfile'
      cases htext.symm.trans htext'
      obtain rfl := ihown own
      exact ihrest rest

variable (r : Resolver) (file : FilePath) (d : Xml.Document) (s : FileStore)

end Resolver

end ProjectAnalysis
