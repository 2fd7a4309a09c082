/-
# What is at a location, and what a put does to it

A file system is looked at one location at a time.  The node at a location says what is there and
nothing of what is below it, so two file systems with the same nodes have the same files and
directories, whatever the order of their entries.

* `FileSystem.node?_of_append`: only directories have something below them;
* `FileSystem.node?_put`: a file or an empty directory that is put into a directory, in place of
  nothing or of a file, is the only node that changes.
-/
import BytecodeTrace.Files.System
import Mathlib.Data.List.Basic
import Mathlib.Data.List.Infix

namespace BytecodeTrace

/-- What is at a location, without what is below it. -/
inductive Node where
  | file (content : ByteArray)
  | directory
  | link (target : Location)

namespace Tree

/-- The node at the top of a tree. -/
def node : Tree → Node
  | file content => .file content
  | directory _ => .directory
  | link target => .link target

/-- Nothing is below the top of the tree. -/
def IsLeaf (t : Tree) : Prop := ∀ name, t.entry? name = none

theorem isLeaf_file (content : ByteArray) : IsLeaf (.file content) := fun _ => rfl

theorem isLeaf_empty : IsLeaf .empty := fun _ => rfl

theorem isDirectory_iff {t : Tree} : t.isDirectory ↔ t.node = .directory := by
  cases t <;> simp [isDirectory, node]

theorem exists_entries {t : Tree} (h : t.node = .directory) :
    ∃ entries, t = .directory entries := by
  cases t with
  | directory entries => exact ⟨entries, rfl⟩
  | file content => cases h
  | link target => cases h

/-- What is at a location below another one is below what is there. -/
theorem at?_append (t : Tree) (above below : Location) :
    t.at? (above ++ below) = (t.at? above).bind fun u => u.at? below := by
  induction above generalizing t with
  | nil => rfl
  | cons name above ih =>
    simp only [List.cons_append, at?]
    cases t.entry? name with
    | none => rfl
    | some u => exact ih u

/-- Locations that are not on one way part somewhere. -/
theorem prefix_or_diverge (p q : Location) : p <+: q ∨ q <+: p ∨ Diverge p q := by
  induction p generalizing q with
  | nil => exact .inl List.nil_prefix
  | cons a p ih =>
    cases q with
    | nil => exact .inr (.inl List.nil_prefix)
    | cons b q =>
      by_cases hab : a = b
      · subst hab
        rcases ih q with h | h | h
        · exact .inl (List.cons_prefix_cons.mpr ⟨rfl, h⟩)
        · exact .inr (.inl (List.cons_prefix_cons.mpr ⟨rfl, h⟩))
        · exact .inr (.inr (.after a h))
      · exact .inr (.inr (.here p q hab))

end Tree

namespace FileSystem

/-! ## 1. Nodes -/

/-- The node at a location. -/
def node? (fs : FileSystem) (location : Location) : Option Node :=
  (fs.at? location).map Tree.node

@[simp] theorem node?_nil (fs : FileSystem) : fs.node? [] = some .directory := rfl

theorem node?_eq_directory_iff {fs : FileSystem} {location : Location} :
    fs.node? location = some .directory ↔
      ∃ entries, fs.at? location = some (.directory entries) := by
  rw [node?, Option.map_eq_some_iff]
  constructor
  · rintro ⟨t, ht, hnode⟩
    obtain ⟨entries, rfl⟩ := Tree.exists_entries hnode
    exact ⟨entries, ht⟩
  · rintro ⟨entries, ht⟩
    exact ⟨_, ht, rfl⟩

theorem node?_eq_file_iff {fs : FileSystem} {location : Location} {content : ByteArray} :
    fs.node? location = some (.file content) ↔ fs.at? location = some (.file content) := by
  rw [node?, Option.map_eq_some_iff]
  constructor
  · rintro ⟨t, ht, hnode⟩
    cases t with
    | file old => rw [ht, Node.file.inj hnode]
    | directory entries => cases hnode
    | link target => cases hnode
  · intro ht
    exact ⟨_, ht, rfl⟩

/-- Where nothing or a file is, there is no directory. -/
theorem node?_ne_directory {fs : FileSystem} {location : Location}
    (h : fs.node? location = none ∨ ∃ old, fs.node? location = some (.file old)) :
    fs.node? location ≠ some .directory := by
  rcases h with hnone | ⟨old, hold⟩
  · rw [hnone]
    exact nofun
  · rw [hold]
    exact nofun

/-- **Only directories have something below them.** -/
theorem node?_of_append {fs : FileSystem} {above : Location} {name : String} {below : Location}
    (h : fs.node? (above ++ name :: below) ≠ none) : fs.node? above = some .directory := by
  rw [node?_eq_directory_iff]
  have hsome : fs.at? (above ++ name :: below) ≠ none := by
    intro hnone
    exact h (by rw [node?, hnone, Option.map_none])
  rw [at?, Tree.at?_append] at hsome
  change (fs.at? above).bind (fun u => u.at? (name :: below)) ≠ none at hsome
  cases ht : fs.at? above with
  | none => exact absurd (by rw [ht, Option.bind_none]) hsome
  | some t =>
    cases t with
    | directory entries => exact ⟨entries, rfl⟩
    | file content => exact absurd (by rw [ht]; rfl) hsome
    | link target => exact absurd (by rw [ht]; rfl) hsome

/-- What is above something is a directory. -/
theorem node?_above {fs : FileSystem} {above location : Location}
    (habove : above <+: location) (hne : above ≠ location) (h : fs.node? location ≠ none) :
    fs.node? above = some .directory := by
  obtain ⟨below, rfl⟩ := habove
  cases below with
  | nil => exact absurd (List.append_nil above).symm hne
  | cons name below => exact node?_of_append h

/-- What is above a directory is a directory. -/
theorem node?_concat_of_cons {fs : FileSystem} {above : Location} {name : String}
    {below : Location} (h : fs.node? (above ++ name :: below) = some .directory) :
    fs.node? (above ++ [name]) = some .directory := by
  cases below with
  | nil => exact h
  | cons next below =>
    rw [← List.singleton_append, ← List.append_assoc] at h
    exact node?_of_append (by rw [h]; exact Option.some_ne_none _)

/-- The nodes in a directory are those of its entries. -/
theorem node?_append_singleton {fs : FileSystem} {above : Location} {entries : Entries}
    (h : fs.at? above = some (.directory entries)) (name : String) :
    fs.node? (above ++ [name]) = (entries.lookup name).map Tree.node := by
  rw [node?, at?, Tree.at?_append]
  change Option.map _ ((fs.at? above).bind fun u => u.at? [name]) = _
  rw [h, Option.bind_some, Tree.at?, Tree.entry?]
  cases entries.lookup name <;> rfl

/-- A file system has the nodes of another one, and perhaps further directories. -/
structure GrowsTo (fs fs' : FileSystem) : Prop where
  workingDirectory_eq : fs'.workingDirectory = fs.workingDirectory
  restrictions_eq : fs'.restrictions = fs.restrictions
  node?_eq_or : ∀ location, fs'.node? location = fs.node? location ∨
    fs.node? location = none ∧ fs'.node? location = some .directory

namespace GrowsTo

variable {fs fs' fs'' : FileSystem} {location : Location}

protected theorem refl (fs : FileSystem) : fs.GrowsTo fs := ⟨rfl, rfl, fun _ => .inl rfl⟩

protected theorem trans (h : fs.GrowsTo fs') (h' : fs'.GrowsTo fs'') : fs.GrowsTo fs'' where
  workingDirectory_eq := h'.workingDirectory_eq.trans h.workingDirectory_eq
  restrictions_eq := h'.restrictions_eq.trans h.restrictions_eq
  node?_eq_or location := by
    rcases h.node?_eq_or location with hsame | ⟨hnone, hnew⟩
    · rw [← hsame]
      exact h'.node?_eq_or location
    · rcases h'.node?_eq_or location with hsame' | ⟨hnone', -⟩
      · exact .inr ⟨hnone, hsame'.trans hnew⟩
      · rw [hnew] at hnone'
        cases hnone'

/-- What is there stays. -/
theorem node?_eq_some (h : fs.GrowsTo fs') {node : Node} (hnode : fs.node? location = some node) :
    fs'.node? location = some node := by
  rcases h.node?_eq_or location with hsame | ⟨hnone, -⟩
  · rw [hsame, hnode]
  · rw [hnode] at hnone
    cases hnone

/-- What is no directory was there before. -/
theorem node?_eq_of_ne (h : fs.GrowsTo fs') (hne : fs'.node? location ≠ some .directory) :
    fs.node? location = fs'.node? location := by
  rcases h.node?_eq_or location with hsame | ⟨-, hnew⟩
  · exact hsame.symm
  · exact absurd hnew hne

end GrowsTo

/-! ## 2. Puts -/

/-- A put does not move the working directory. -/
@[simp] theorem workingDirectory_put (fs : FileSystem) (location : Location) (t : Tree) :
    (fs.put location t).workingDirectory = fs.workingDirectory := by
  cases location <;> rfl

/-- A put leaves the restrictions. -/
@[simp] theorem restrictions_put (fs : FileSystem) (location : Location) (t : Tree) :
    (fs.put location t).restrictions = fs.restrictions := by
  cases location <;> rfl

/-- Below the root, a put into a file system is a put into the tree of the root. -/
theorem at?_put_append_singleton (fs : FileSystem) (above : Location) (name : String) (t : Tree)
    (location : Location) :
    (fs.put (above ++ [name]) t).at? location =
      (t.put (above ++ [name]) (.directory fs.root)).at? location := by
  cases above with
  | nil => exact at?_put fs name [] t location
  | cons first above => exact at?_put fs first (above ++ [name]) t location

/-- **A leaf that is put into a directory is the only node that changes,** unless a directory was
in its place. -/
theorem node?_put {fs : FileSystem} {above : Location} {name : String} {t : Tree}
    (habove : fs.node? above = some .directory)
    (hplace : fs.node? (above ++ [name]) ≠ some .directory) (hleaf : t.IsLeaf)
    (location : Location) :
    (fs.put (above ++ [name]) t).node? location =
      if location = above ++ [name] then some t.node else fs.node? location := by
  have hself : (fs.put (above ++ [name]) t).at? (above ++ [name]) = some t := by
    rw [at?_put_append_singleton]
    refine Tree.at?_put_self t _ _ fun p u hp hu => ?_
    rcases List.prefix_concat_iff.mp hp with rfl | hp
    · exact .inl rfl
    · right
      rw [Tree.isDirectory_iff, ← Option.some_inj]
      have hnode : fs.node? p = some u.node := by rw [node?, at?, hu, Option.map_some]
      rw [← hnode]
      by_cases heq : p = above
      · rw [heq, habove]
      · exact node?_above hp heq (by rw [habove]; exact Option.some_ne_none _)
  have hnew : (fs.put (above ++ [name]) t).node? (above ++ [name]) = some t.node := by
    rw [node?, hself, Option.map_some]
  split
  · rename_i heq
    rw [heq, hnew]
  · rename_i hne
    rcases Tree.prefix_or_diverge (above ++ [name]) location with hbelow | habove' | hapart
    · -- below the leaf there is nothing, and there was nothing
      obtain ⟨below, rfl⟩ := hbelow
      cases below with
      | nil => exact absurd (List.append_nil _) hne
      | cons first below =>
        have hold : fs.node? (above ++ [name] ++ first :: below) = none := by
          by_contra hsome
          exact hplace (node?_of_append hsome)
        rw [hold, node?, at?, Tree.at?_append]
        change Option.map _ (((fs.put (above ++ [name]) t).at? (above ++ [name])).bind _) = _
        rw [hself, Option.bind_some, Tree.at?, hleaf first]
        rfl
    · -- above it there are directories, and there were directories
      have hafter := node?_above habove' hne (by rw [hnew]; exact Option.some_ne_none _)
      rw [hafter]
      rcases List.prefix_concat_iff.mp habove' with heq | hp
      · exact absurd heq hne
      · by_cases heq : location = above
        · rw [heq, habove]
        · exact (node?_above hp heq (by rw [habove]; exact Option.some_ne_none _)).symm
    · rw [node?, at?_put_append_singleton, Tree.at?_put_of_diverge hapart]
      rfl

end FileSystem
end BytecodeTrace
