import Mathlib.Tactic.Lemma
import TrustRegions.FileTree

/-! Where the contents of a tree come from: folders add none, and what is read at a path is nothing or
what was once written to some file. -/

namespace TrustRegions

namespace FileTree

def Within (contents : List Bytes) (t : FileTree) : Prop := ∀ f ∈ t.files, f.2 ∈ contents

lemma files_makeWay (t : FileTree) (l : Location) (components : List Bytes) :
    (t.makeWay l components).files = t.files := by
  induction components generalizing t l with
  | nil => rfl
  | cons c rest ih =>
    rw [makeWay]
    split
    · exact ih t _
    · rfl
    · split
      · exact ih _ _
      · rfl

lemma files_makeFolder (t : FileTree) (path : Bytes) : (t.makeFolder path).files = t.files := by
  simp only [makeFolder]
  split
  · rfl
  · exact files_makeWay t _ _

variable {contents : List Bytes} {t u : FileTree} {path content : Bytes} {l : Location}

lemma Within.putFile (h : t.Within contents) (hc : content ∈ contents) (name : Bytes) :
    (t.putFile l name content).Within contents := by
  simp only [FileTree.putFile]
  split
  · exact h
  · intro f hf
    rcases List.mem_cons.mp hf with rfl | hf
    · exact hc
    · exact h f (List.mem_filter.mp hf).1

lemma Within.write (h : t.Within contents) (hc : content ∈ contents) :
    (t.write path content).Within contents := by
  have hfolder : (t.makeFolder (Path.folder path)).Within contents := by
    intro f hf
    rw [files_makeFolder] at hf
    exact h f hf
  simp only [FileTree.write]
  split
  · exact hfolder
  · split
    · exact hfolder.putFile hc _
    · exact hfolder

lemma Within.remove? (h : t.Within contents) (hu : t.remove? path = some u) : u.Within contents := by
  obtain ⟨l, -, hu⟩ := Option.bind_eq_some_iff.mp hu
  split at hu
  · obtain rfl := Option.some.inj hu
    exact fun f hf => h f (List.mem_filter.mp hf).1
  · split at hu
    · obtain rfl := Option.some.inj hu
      exact h
    · cases hu

def found (t : FileTree) (l : Location) : Bytes := (t.content? l).getD []

lemma found_mem (h : t.Within contents) (hnil : [] ∈ contents) (l : Location) :
    t.found l ∈ contents := by
  rw [found]
  cases hl : t.content? l with
  | none => exact hnil
  | some c =>
    obtain ⟨f, hf, rfl⟩ := Option.map_eq_some_iff.mp hl
    exact h f (List.mem_of_find?_eq_some hf)

lemma key_of_locate? (h : t.locate? path = some l) : t.key path = .located l false := by
  rw [locate?] at h
  cases hp : t.locate path with
  | error e => simp [hp, Except.toOption] at h
  | ok m =>
    obtain rfl : m = l := by simpa [hp, Except.toOption] using h
    simp [key, hp]

end FileTree

end TrustRegions
