/-
# Walking a path

A path is resolved by a walk from the root, one step per component, from a spot to the next one:
from a directory to what has the name there.  Nothing is reached from a file or from a free name.

* `FileSystem.follow_eq`: resolving a path is this walk;
* `FileSystem.standsIn_walk`: a walk ends where the file system says that it ends;
* `Agrees`, `FileSystem.agrees_walk`: with more directories, a walk ends where it ended before, or
  at a directory that has come into its free name, or it gets further than before;
* `FileSystem.walk_put_file`: with a file put at a location, a walk ends where it ended before, and
  where that is the location, it ends at the file.
-/
import BytecodeTrace.Proofs.Files.Node

namespace BytecodeTrace

/-! ## 1. Spots -/

/-- What a walk can come to: a directory, a file, or a free name in a directory. -/
inductive Spot where
  | directory (location : Location)
  | file (location : Location) (content : ByteArray)
  | vacant (location : Location)

namespace Spot

/-- What a path that leads to a spot is resolved to. -/
def resolved : Spot → Resolved
  | directory _ => .directory
  | file location content => .file location content
  | vacant location => .vacant location

/-- The spot is what the file system has at its location. -/
def StandsIn (fs : FileSystem) : Spot → Prop
  | directory location => fs.node? location = some .directory
  | file location content => fs.node? location = some (.file content)
  | vacant location =>
    fs.node? location = none ∧
      ∃ above name, location = above ++ [name] ∧ fs.node? above = some .directory

end Spot

namespace FileSystem

/-- One component further.  A link stands for the directory or the file at its target. -/
def step (fs : FileSystem) : Spot → String → Except SystemError Spot
  | .file .., _ => .error .notDirectory
  | .vacant _, _ => .error .noSuchFile
  | .directory here, name =>
    if name = "." then .ok (.directory here)
    else if name = ".." then .ok (.directory here.dropLast)
    else if longestName < name.utf8ByteSize then .error .nameTooLong
    else
      match fs.node? (here ++ [name]) with
      | none => .ok (.vacant (here ++ [name]))
      | some .directory => .ok (.directory (here ++ [name]))
      | some (.file content) => .ok (.file (here ++ [name]) content)
      | some (.link target) =>
        match fs.node? target with
        | some .directory => .ok (.directory target)
        | some (.file content) => .ok (.file target content)
        | _ => .error .noSuchFile

/-- All components from the root on. -/
def walk (fs : FileSystem) (names : List String) : Except SystemError Spot :=
  names.foldlM fs.step (.directory [])

/-- What comes after a step that is not refused. -/
theorem exists_of_bind_eq_ok {ε α β : Type} {x : Except ε α} {f : α → Except ε β} {b : β}
    (h : x >>= f = .ok b) : ∃ a, x = .ok a ∧ f a = .ok b := by
  cases x with
  | error e => cases h
  | ok a => exact ⟨a, rfl, h⟩

theorem walk_append (fs : FileSystem) (front back : List String) :
    fs.walk (front ++ back) = fs.walk front >>= fun spot => back.foldlM fs.step spot :=
  List.foldlM_append

theorem walk_concat (fs : FileSystem) (front : List String) (name : String) :
    fs.walk (front ++ [name]) = fs.walk front >>= fun spot => fs.step spot name := by
  rw [walk_append]
  congr 1
  funext spot
  exact bind_pure _

/-! ## 2. Resolving a path is a walk -/

/-- The trail leads to the directory at the location. -/
inductive Leads (fs : FileSystem) : Trail → Location → Prop where
  | root : Leads fs [] []
  | down {trail : Trail} {here : Location} {name : String} {entries : Entries}
    (h : Leads fs trail here)
    (hentry : (trail.entries fs.root).lookup name = some (.directory entries)) :
    Leads fs ((name, entries) :: trail) (here ++ [name])

namespace Leads

variable {fs : FileSystem} {trail : Trail} {here : Location}

theorem location_eq (h : Leads fs trail here) (name : String) :
    trail.location name = here ++ [name] := by
  have hmap : (trail.map Prod.fst).reverse = here := by
    induction h with
    | root => rfl
    | down _ _ ih => rw [List.map_cons, List.reverse_cons, ih]
  rw [Trail.location, List.reverse_cons, hmap]

theorem at?_eq (h : Leads fs trail here) :
    fs.at? here = some (.directory (trail.entries fs.root)) := by
  induction h with
  | root => rfl
  | @down trail here name entries _ hentry ih =>
    rw [at?, Tree.at?_append]
    change (fs.at? here).bind _ = _
    rw [ih, Option.bind_some, Tree.at?, Tree.entry?, hentry]
    rfl

theorem node?_append (h : Leads fs trail here) (name : String) :
    fs.node? (here ++ [name]) = ((trail.entries fs.root).lookup name).map Tree.node :=
  node?_append_singleton h.at?_eq name

/-- Above the root is the root. -/
theorem drop_one (h : Leads fs trail here) : Leads fs (trail.drop 1) here.dropLast := by
  cases h with
  | root => exact .root
  | down h _ =>
    rw [List.dropLast_concat]
    exact h

/-- A trail goes on to a location below exactly if there is a directory. -/
theorem trailTo_cases (h : Leads fs trail here) (rest : Location) :
    (∃ longer, trailTo fs.root trail rest = some longer ∧ Leads fs longer (here ++ rest)) ∨
      trailTo fs.root trail rest = none ∧ fs.node? (here ++ rest) ≠ some .directory := by
  induction rest generalizing trail here with
  | nil => exact .inl ⟨trail, rfl, by rwa [List.append_nil]⟩
  | cons name rest ih =>
    have hnot (hname : fs.node? (here ++ [name]) ≠ some .directory) :
        fs.node? (here ++ name :: rest) ≠ some .directory :=
      fun hdirectory => hname (node?_concat_of_cons hdirectory)
    rw [h.node?_append] at hnot
    cases hentry : (trail.entries fs.root).lookup name with
    | none => exact .inr ⟨by simp only [trailTo, hentry], hnot (by simp [hentry])⟩
    | some t =>
      cases t with
      | file content =>
        exact .inr ⟨by simp only [trailTo, hentry], hnot (by simp [hentry, Tree.node])⟩
      | link target =>
        exact .inr ⟨by simp only [trailTo, hentry], hnot (by simp [hentry, Tree.node])⟩
      | directory entries =>
        have hnext := ih (h.down hentry)
        rw [List.append_assoc, List.singleton_append] at hnext
        simpa only [trailTo, hentry] using hnext

end Leads

/-- A file ends a walk as it ends a path. -/
theorem atFile_eq (fs : FileSystem) (location : Location) (content : ByteArray)
    (rest : List String) :
    follow.atFile location content rest =
      (rest.foldlM fs.step (.file location content)).map Spot.resolved := by
  cases rest <;> rfl

/-- **Resolving a path is a walk.** -/
theorem follow_eq {fs : FileSystem} {trail : Trail} {here : Location} (h : Leads fs trail here)
    (names : List String) :
    follow fs.root trail names =
      (names.foldlM fs.step (.directory here)).map Spot.resolved := by
  induction names generalizing trail here with
  | nil => rfl
  | cons name rest ih =>
    rw [follow, List.foldlM_cons, step]
    by_cases hdot : name = "."
    · rw [if_pos hdot, if_pos hdot]
      exact ih h
    by_cases hdots : name = ".."
    · rw [if_neg hdot, if_neg hdot, if_pos hdots, if_pos hdots]
      exact ih h.drop_one
    by_cases hlong : longestName < name.utf8ByteSize
    · rw [if_neg hdot, if_neg hdot, if_neg hdots, if_neg hdots, if_pos hlong, if_pos hlong]
      rfl
    rw [if_neg hdot, if_neg hdot, if_neg hdots, if_neg hdots, if_neg hlong, if_neg hlong,
      h.node?_append, h.location_eq]
    cases hentry : (trail.entries fs.root).lookup name with
    | none => cases rest <;> rfl
    | some t =>
      cases t with
      | directory entries => exact ih (h.down hentry)
      | file content => exact atFile_eq fs _ content rest
      | link target =>
        have hnode : fs.node? target = ((Tree.directory fs.root).at? target).map Tree.node := rfl
        have hroot : Leads fs [] [] := .root
        rcases hroot.trailTo_cases target with ⟨longer, hlonger, hleads⟩ | hnone
        · rw [List.nil_append] at hleads
          have hdirectory := node?_eq_directory_iff.mpr ⟨_, hleads.at?_eq⟩
          simp only [Option.map_some, Tree.node, hlonger, hdirectory]
          exact ih hleads
        · rw [List.nil_append, hnode] at hnone
          simp only [Option.map_some, Tree.node, hnone.1, hnode]
          cases htarget : (Tree.directory fs.root).at? target with
          | none => rfl
          | some u =>
            cases u with
            | directory entries => exact absurd (by rw [htarget]; rfl) hnone.2
            | file content => exact atFile_eq fs target content rest
            | link further => rfl

/-- What the names from the root on lead to. -/
theorem follow_root_eq (fs : FileSystem) (names : List String) :
    follow fs.root [] names = (fs.walk names).map Spot.resolved :=
  follow_eq .root names

/-! ## 3. Where a walk ends -/

theorem standsIn_step {fs : FileSystem} {spot next : Spot} {name : String}
    (h : spot.StandsIn fs) (hstep : fs.step spot name = .ok next) : next.StandsIn fs := by
  cases spot with
  | file location content => cases hstep
  | vacant location => cases hstep
  | directory here =>
    rw [step] at hstep
    split_ifs at hstep with hdot hdots hlong
    · cases hstep
      exact h
    · cases hstep
      rcases List.eq_nil_or_concat here with rfl | ⟨above, last, rfl⟩
      · exact h
      · rw [List.concat_eq_append] at h ⊢
        rw [Spot.StandsIn, List.dropLast_concat]
        exact node?_of_append (by rw [h]; exact Option.some_ne_none _)
    · split at hstep
      · cases hstep
        exact ⟨by assumption, here, name, rfl, h⟩
      · cases hstep
        assumption
      · cases hstep
        assumption
      · split at hstep
        · cases hstep
          assumption
        · cases hstep
          assumption
        · cases hstep

theorem standsIn_foldlM {fs : FileSystem} {names : List String} {spot last : Spot}
    (h : spot.StandsIn fs) (hwalk : names.foldlM fs.step spot = .ok last) :
    last.StandsIn fs := by
  induction names generalizing spot with
  | nil =>
    cases hwalk
    exact h
  | cons name names ih =>
    rw [List.foldlM_cons] at hwalk
    obtain ⟨next, hstep, hrest⟩ := exists_of_bind_eq_ok hwalk
    exact ih (standsIn_step h hstep) hrest

/-- **A walk ends where the file system says that it ends.** -/
theorem standsIn_walk {fs : FileSystem} {names : List String} {last : Spot}
    (h : fs.walk names = .ok last) : last.StandsIn fs :=
  have hroot : (Spot.directory []).StandsIn fs := node?_nil fs
  standsIn_foldlM hroot h

end FileSystem

/-! ## 4. Walks in a file system with more directories -/

/-- How the end of a walk and its end in a file system with more directories can differ. -/
inductive Agrees : Except SystemError Spot → Except SystemError Spot → Prop where
  | same (result : Except SystemError Spot) : Agrees result result
  /-- A directory has come into a free name. -/
  | filled (location : Location) : Agrees (.ok (.vacant location)) (.ok (.directory location))
  /-- Where the walk stopped, it may go on. -/
  | further (result : Except SystemError Spot) : Agrees (.error .noSuchFile) result

namespace FileSystem

variable {fs fs' : FileSystem}

theorem agrees_step (h : fs.GrowsTo fs') (spot : Spot) (name : String) :
    Agrees (fs.step spot name) (fs'.step spot name) := by
  cases spot with
  | file location content => exact .same _
  | vacant location => exact .same _
  | directory here =>
    simp only [step]
    split_ifs with hdot hdots hlong
    · exact .same _
    · exact .same _
    · exact .same _
    · rcases h.node?_eq_or (here ++ [name]) with hsame | ⟨hnone, hnew⟩
      · rw [hsame]
        split
        · exact .same _
        · exact .same _
        · exact .same _
        · rename_i target _
          rcases h.node?_eq_or target with htarget | ⟨htarget, -⟩
          · rw [htarget]
            exact .same _
          · rw [htarget]
            exact .further _
      · rw [hnone, hnew]
        exact .filled _

theorem agrees_bind {result result' : Except SystemError Spot} (h : fs.GrowsTo fs')
    (hagrees : Agrees result result') (name : String) :
    Agrees (result >>= fun spot => fs.step spot name)
      (result' >>= fun spot => fs'.step spot name) := by
  cases hagrees with
  | same result =>
    cases result with
    | error e => exact .same _
    | ok spot => exact agrees_step h spot name
  | filled location => exact .further _
  | further result => exact .further _

/-- **With more directories, a walk ends where it ended before,** or at a directory in its free
name, or it gets further. -/
theorem agrees_walk (h : fs.GrowsTo fs') (names : List String) :
    Agrees (fs.walk names) (fs'.walk names) := by
  induction names using List.reverseRecOn with
  | nil => exact .same _
  | append_singleton front name ih =>
    rw [walk_concat, walk_concat]
    exact agrees_bind h ih name

end FileSystem

/-! ## 5. Walks after a file was put somewhere -/

/-- The spot, with a file at a location. -/
def Spot.withFile (location : Location) (content : ByteArray) : Spot → Spot
  | directory here => directory here
  | file here old => file here (if here = location then content else old)
  | vacant here => if here = location then file here content else vacant here

namespace FileSystem

section PutFile

variable {fs fs' : FileSystem} {location : Location} {content : ByteArray}
  (hput : ∀ l, fs'.node? l = if l = location then some (.file content) else fs.node? l)
  (hplace : fs.node? location = none ∨ ∃ old, fs.node? location = some (.file old))

include hput hplace

theorem step_put_file {spot next : Spot} {name : String} (h : fs.step spot name = .ok next) :
    fs'.step (spot.withFile location content) name = .ok (next.withFile location content) := by
  cases spot with
  | file l old => cases h
  | vacant l => cases h
  | directory here =>
    have hdirectory := node?_ne_directory hplace
    have hlink : ∀ target, fs.node? location ≠ some (.link target) := by
      intro target
      rcases hplace with hnone | ⟨old, hold⟩
      · simp [hnone]
      · simp [hold]
    rw [Spot.withFile]
    rw [step] at h ⊢
    split_ifs at h ⊢ with hdot hdots hlong
    · cases h
      rfl
    · cases h
      rfl
    · rw [hput]
      by_cases hhere : here ++ [name] = location
      · rw [if_pos hhere]
        subst hhere
        rcases hplace with hnone | ⟨old, hold⟩
        · rw [hnone] at h
          cases h
          simp [Spot.withFile]
        · rw [hold] at h
          cases h
          simp [Spot.withFile]
      · rw [if_neg hhere]
        split at h
        · cases h
          simp [Spot.withFile, hhere]
        · cases h
          simp [Spot.withFile]
        · cases h
          simp [Spot.withFile, hhere]
        · rename_i target _
          rw [hput]
          by_cases htarget : target = location
          · subst htarget
            rcases hplace with hnone | ⟨old, hold⟩
            · rw [hnone] at h
              cases h
            · rw [hold] at h
              cases h
              simp [Spot.withFile]
          · simp only [if_neg htarget]
            split at h
            · cases h
              simp [Spot.withFile]
            · cases h
              simp [Spot.withFile, htarget]
            · cases h

/-- **With a file put at a location, a walk ends where it ended before,** and where that is the
location, it ends at the file. -/
theorem walk_put_file {names : List String} {last : Spot} (h : fs.walk names = .ok last) :
    fs'.walk names = .ok (last.withFile location content) := by
  induction names using List.reverseRecOn generalizing last with
  | nil =>
    cases h
    rfl
  | append_singleton front name ih =>
    rw [walk_concat] at h ⊢
    obtain ⟨spot, hfront, hstep⟩ := exists_of_bind_eq_ok h
    rw [ih hfront]
    exact step_put_file hput hplace hstep

end PutFile
end FileSystem
end BytecodeTrace
