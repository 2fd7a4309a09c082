/-
# File trees

A tree is a regular file, a directory of named trees, or a link, which stands for what is at
another location.  Nothing is below a file or a link, and what is below a missing directory is
missing too, because the tree has no place for it.

The view of a tree is `at?`, which tells what is at a location.  `at?_put_self` and
`at?_put_of_diverge` say what `put` does to it: the new tree is at its location, and nothing
changes at a location that parts from it.
-/
namespace BytecodeTrace

/-- A place in a tree: the names on the way from its root. -/
abbrev Location := List String

/-- A regular file, a directory, or a link to a location. -/
inductive Tree where
  | file (content : ByteArray)
  | directory (entries : List (String × Tree))
  | link (target : Location)

/-- The entries of a directory, by name. -/
abbrev Entries := List (String × Tree)

/-- The entries with a tree under a name, in place of the one that has the name. -/
def Entries.set (name : String) (t : Tree) : Entries → Entries
  | [] => [(name, t)]
  | (other, old) :: entries =>
    if other = name then (name, t) :: entries else (other, old) :: Entries.set name t entries

/-- The name leads to the new tree, and every other name to where it led before. -/
theorem Entries.lookup_set (name other : String) (t : Tree) (entries : Entries) :
    List.lookup other (Entries.set name t entries) =
      if other = name then some t else List.lookup other entries := by
  induction entries with
  | nil =>
    by_cases h : other = name
    · simp [Entries.set, h]
    · simp [Entries.set, List.lookup_cons, h, beq_false_of_ne h]
  | cons entry entries ih =>
    obtain ⟨first, old⟩ := entry
    by_cases hf : first = name
    · by_cases h : other = name
      · simp [Entries.set, hf, h]
      · simp [Entries.set, hf, List.lookup_cons, h, beq_false_of_ne h]
    · by_cases h : other = first
      · have hn : other ≠ name := fun e => hf (h.symm.trans e)
        simp [Entries.set, hf, h]
      · simp [Entries.set, hf, List.lookup_cons, beq_false_of_ne h, ih]

namespace Tree

/-- A directory without entries. -/
def empty : Tree := .directory []

/-- The tree is a directory itself, and no link to one. -/
def isDirectory : Tree → Bool
  | directory _ => true
  | file _ | link _ => false

/-- The tree under a name. -/
def entry? (name : String) : Tree → Option Tree
  | directory entries => entries.lookup name
  | file _ | link _ => none

/-- The tree at a location. -/
def at? (t : Tree) : Location → Option Tree
  | [] => some t
  | name :: rest => (t.entry? name).bind fun t => t.at? rest

/-- Puts a tree at a location, with the directories on the way.  There is no way through a file
or a link. -/
def put (new : Tree) : Location → Tree → Tree
  | [], _ => new
  | _ :: _, file content => file content
  | _ :: _, link target => link target
  | name :: rest, directory entries =>
    directory (Entries.set name (put new rest ((entries.lookup name).getD empty)) entries)

mutual

/-- The regular files of a tree, by their locations. -/
def files : Tree → List (Location × ByteArray)
  | file content => [([], content)]
  | directory entries => filesOfEntries entries
  | link _ => []

/-- The regular files of the trees in a directory. -/
def filesOfEntries : List (String × Tree) → List (Location × ByteArray)
  | [] => []
  | (name, t) :: entries =>
    (t.files.map fun (location, content) => (name :: location, content)) ++ filesOfEntries entries

end

/-! ## What a put changes -/

/-- A tree is at the location where it was put, unless a file or a link is in the way. -/
theorem at?_put_self (new t : Tree) (location : Location)
    (h : ∀ above u,
      above <+: location → t.at? above = some u → above = location ∨ u.isDirectory) :
    (put new location t).at? location = some new := by
  induction location generalizing t with
  | nil => simp [put, at?]
  | cons name rest ih =>
    cases t with
    | file content => simpa [isDirectory] using h [] (file content) List.nil_prefix rfl
    | link target => simpa [isDirectory] using h [] (link target) List.nil_prefix rfl
    | directory entries =>
      simp only [put, at?, entry?, Entries.lookup_set, if_true, Option.bind_some]
      refine ih _ fun above u hp hu => ?_
      cases he : entries.lookup name with
      | none =>
        rw [he] at hu
        cases above with
        | nil => exact .inr (by simp [at?, empty] at hu; simp [← hu, isDirectory])
        | cons a above => simp [at?, entry?, empty] at hu
      | some t =>
        have hp : name :: above <+: name :: rest := List.cons_prefix_cons.mpr ⟨rfl, hp⟩
        have := h (name :: above) u hp (by simpa [at?, entry?, he] using hu)
        simpa using this

/-- Two locations that have different names at their first difference. -/
inductive Diverge : Location → Location → Prop
  | here {a b : String} (left right : Location) (h : a ≠ b) : Diverge (a :: left) (b :: right)
  | after {left right : Location} (name : String) (h : Diverge left right) :
    Diverge (name :: left) (name :: right)

/-- Nothing changes at a location that parts from the one that is put to. -/
theorem at?_put_of_diverge {new : Tree} {location other : Location} (h : Diverge location other)
    (t : Tree) : (put new location t).at? other = t.at? other := by
  induction h generalizing t with
  | here left right hne =>
    cases t with
    | file content => rfl
    | link target => rfl
    | directory entries => simp [put, at?, entry?, Entries.lookup_set, hne.symm]
  | after name _ ih =>
    cases t with
    | file content => rfl
    | link target => rfl
    | directory entries =>
      simp only [put, at?, entry?, Entries.lookup_set, if_true, Option.bind_some]
      rw [ih]
      cases hl : entries.lookup name with
      | some t => simp
      | none =>
        rename_i rest _
        cases rest with
        | nil => contradiction
        | cons a rest => simp [at?, entry?, empty]

end Tree
end BytecodeTrace
