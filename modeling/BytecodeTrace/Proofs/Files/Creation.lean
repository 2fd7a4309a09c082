/-
# Creating directories

What creating directories does to the nodes of a file system, and when it is refused:

* `FileSystem.resolve_eq`: a path leads where the walk along its way ends;
* `FileSystem.growsTo_makeDirectoriesUpTo`: creating directories only adds directories, also where
  it is refused half way;
* `FileSystem.walk_of_makeDirectoriesUpTo`: where it is not refused, the directory is there;
* `FileSystem.Plain`: file systems of directories and files, where only the tree refuses;
* `FileSystem.Plain.makeDirectoriesUpTo_within`: there, directories are created whenever more
  directories lead to them, and none but those.
-/
import BytecodeTrace.Proofs.Files.Path
import BytecodeTrace.Proofs.Files.Walk

namespace BytecodeTrace
namespace FileSystem

/-! ## 1. The way along a path -/

/-- The names to follow for a path. -/
def way (fs : FileSystem) (path : List Char) : List String :=
  if path.head? = some '/' then (Path.components path).map String.ofList
  else fs.workingDirectory ++ (Path.components path).map String.ofList

/-- A path leads where the walk along it ends. -/
theorem resolve_eq (fs : FileSystem) (path : String) :
    fs.resolve path =
      match refusal? path with
      | some e => .error e
      | none => (fs.walk (fs.way path.toList)).map Spot.resolved := by
  rw [resolve, route]
  cases refusal? path with
  | some e => rfl
  | none => exact follow_root_eq fs _

/-- A path that leads somewhere is not refused before it is followed. -/
theorem exists_spot_of_resolve {fs : FileSystem} {path : String} {target : Resolved}
    (h : fs.resolve path = .ok target) :
    refusal? path = none ∧
      ∃ spot, fs.walk (fs.way path.toList) = .ok spot ∧ spot.resolved = target := by
  rw [resolve_eq] at h
  split at h
  · cases h
  · cases hwalk : fs.walk (fs.way path.toList) with
    | error e =>
      rw [hwalk] at h
      cases h
    | ok spot =>
      rw [hwalk] at h
      exact ⟨by assumption, spot, rfl, Except.ok.inj h⟩

theorem GrowsTo.way_eq {fs fs' : FileSystem} (h : fs.GrowsTo fs') (path : List Char) :
    fs'.way path = fs.way path := by
  rw [way, way, h.workingDirectory_eq]

/-- The way along a path goes along the path above it, and on by one name. -/
theorem way_of_parent?_eq_some (fs : FileSystem) {path parent : List Char}
    (h : Path.parent? path = some parent) :
    ∃ before last behind, fs.way path =
      fs.way parent ++ List.replicate before "." ++ [last] ++ List.replicate behind "." ∧
      (Path.trimmed path = path → behind = 0) := by
  obtain ⟨before, last, behind, hcomponents, htrimmed⟩ := Path.components_of_parent?_eq_some h
  refine ⟨before, String.ofList last, behind, ?_, htrimmed⟩
  have hnames : (Path.components path).map String.ofList =
      (Path.components parent).map String.ofList ++ List.replicate before "." ++
        [String.ofList last] ++ List.replicate behind "." := by
    rw [hcomponents]
    simp
  rw [way, way, hnames]
  by_cases hroot : path.head? = some '/'
  · rw [if_pos hroot, if_pos ((Path.head?_of_parent?_eq_some h).mpr hroot)]
  · rw [if_neg hroot, if_neg (fun habove => hroot ((Path.head?_of_parent?_eq_some h).mp habove))]
    simp only [List.append_assoc]

/-- A path above is not refused where the path is not. -/
theorem refusal?_of_parent?_eq_some {path parent : List Char}
    (h : Path.parent? path = some parent) (hne : parent ≠ [])
    (hpath : refusal? (String.ofList path) = none) : refusal? (String.ofList parent) = none := by
  obtain ⟨rest, rfl⟩ := (Path.prefix_of_parent?_eq_some h).1
  have hbytes : (String.ofList parent).utf8ByteSize ≤
      (String.ofList (parent ++ rest)).utf8ByteSize := by
    rw [String.ofList_append, String.utf8ByteSize_append]
    exact Nat.le_add_right _ _
  have hempty : ¬(String.ofList parent).isEmpty := by
    rw [String.isEmpty_iff, ← String.toList_inj, String.toList_ofList]
    exact hne
  simp only [refusal?, String.toList_ofList] at hpath ⊢
  split_ifs at hpath with hzero _ hlong
  have hzero : ¬parent.contains (Char.ofNat 0) := by
    intro hmem
    exact hzero (by simp at hmem ⊢; exact .inl hmem)
  rw [if_neg hzero, if_neg hempty, if_neg (by omega)]

/-! ## 2. Walks around a directory -/

/-- `.` components lead back to the directory. -/
theorem foldlM_dots (fs : FileSystem) (here : Location) (n : Nat) :
    (List.replicate n ".").foldlM fs.step (.directory here) = .ok (.directory here) := by
  induction n with
  | zero => rfl
  | succ n ih => exact ih

/-- From a directory there is a step to every name, except to one that is too long. -/
theorem step_directory_ne (fs : FileSystem) (hlinks : ∀ location target,
    fs.node? location ≠ some (.link target)) (here : Location) (name : String) :
    fs.step (.directory here) name ≠ .error .noSuchFile := by
  rw [step]
  split_ifs
  · simp
  · simp
  · simp
  · split
    · simp
    · simp
    · simp
    · exact absurd (by assumption) (hlinks _ _)

/-- In front of a further name there is a directory. -/
theorem walk_of_append {fs : FileSystem} {front back : List String} {spot : Spot}
    (hne : back ≠ []) (h : fs.walk (front ++ back) = .ok spot) :
    ∃ here, fs.walk front = .ok (.directory here) ∧
      back.foldlM fs.step (.directory here) = .ok spot := by
  obtain ⟨name, back, rfl⟩ := List.exists_cons_of_ne_nil hne
  rw [walk_append] at h
  obtain ⟨last, hfront, hback⟩ := exists_of_bind_eq_ok h
  cases last with
  | directory here => exact ⟨here, hfront, hback⟩
  | file location content => cases hback
  | vacant location => cases hback

/-- Where a path leads somewhere, the path above it leads to a directory. -/
theorem exists_walk_parent {fs : FileSystem} {path parent : List Char} {spot : Spot}
    (hparent : Path.parent? path = some parent) (hthere : fs.walk (fs.way path) = .ok spot) :
    ∃ above, fs.walk (fs.way parent) = .ok (.directory above) := by
  obtain ⟨before, last, behind, hway, -⟩ := way_of_parent?_eq_some fs hparent
  rw [hway, List.append_assoc, List.append_assoc] at hthere
  obtain ⟨above, habove, -⟩ := walk_of_append (by simp) hthere
  exact ⟨above, habove⟩

/-- A walk that ends with `.` components comes to a directory. -/
theorem walk_append_dots {fs : FileSystem} {front : List String} {n : Nat} {spot : Spot}
    (h : fs.walk (front ++ List.replicate (n + 1) ".") = .ok spot) :
    ∃ here, spot = .directory here := by
  obtain ⟨here, -, hdots⟩ := walk_of_append (by simp) h
  rw [foldlM_dots] at hdots
  exact ⟨here, (Except.ok.inj hdots).symm⟩

/-- `.` components in front of a name make no difference. -/
theorem walk_dots_concat {fs : FileSystem} {front : List String} {here : Location}
    (h : fs.walk front = .ok (.directory here)) (n : Nat) (name : String) :
    fs.walk (front ++ List.replicate n "." ++ [name]) = fs.step (.directory here) name := by
  rw [walk_concat, walk_append, h]
  change ((List.replicate n ".").foldlM fs.step (.directory here) >>= _) = _
  rw [foldlM_dots]
  rfl

/-- With more directories, a walk to a directory or a file stays as it is. -/
theorem GrowsTo.walk_eq {fs fs' : FileSystem} (h : fs.GrowsTo fs') {names : List String}
    {spot : Spot} (hwalk : fs.walk names = .ok spot) (hspot : ∀ l, spot ≠ .vacant l) :
    fs'.walk names = .ok spot := by
  have hagrees := agrees_walk h names
  rw [hwalk] at hagrees
  generalize fs'.walk names = result at hagrees
  cases hagrees with
  | same => rfl
  | filled location => exact absurd rfl (hspot location)

/-! ## 3. Creating directories -/

section Directories

variable {fs fs' : FileSystem}

/-- A new directory adds itself. -/
theorem growsTo_put_empty {location : Location} (h : (Spot.vacant location).StandsIn fs) :
    fs.GrowsTo (fs.put location .empty) ∧
      ∀ l, (fs.put location .empty).node? l =
        if l = location then some .directory else fs.node? l := by
  obtain ⟨hnone, above, name, rfl, habove⟩ := h
  have hput := node?_put (t := .empty) habove (by rw [hnone]; exact nofun) Tree.isLeaf_empty
  refine ⟨⟨workingDirectory_put .., restrictions_put .., fun l => ?_⟩, hput⟩
  rw [hput]
  split
  · rename_i heq
    exact .inr ⟨by rw [heq, hnone], rfl⟩
  · exact .inl rfl

/-- What is placed is put, if no restriction says why not. -/
theorem eq_put_of_place {location : Location} {t : Tree} (h : fs.place location t = .ok fs') :
    fs' = fs.put location t := by
  rw [place] at h
  split at h
  · cases h
  · exact (Except.ok.inj h).symm

/-- A directory that is created is there, and nothing else is new. -/
theorem growsTo_makeDirectory {path : String} (h : fs.makeDirectory path = .ok fs') :
    fs.GrowsTo fs' ∧ ∃ here, fs'.walk (fs'.way path.toList) = .ok (.directory here) := by
  rw [makeDirectory] at h
  cases hresolve : fs.resolve path with
  | error e =>
    rw [hresolve] at h
    cases h
  | ok target =>
    rw [hresolve] at h
    obtain ⟨-, spot, hwalk, rfl⟩ := exists_spot_of_resolve hresolve
    cases spot with
    | file location content => cases h
    | directory here =>
      cases h
      exact ⟨.refl fs, here, hwalk⟩
    | vacant location =>
      obtain rfl := eq_put_of_place h
      obtain ⟨hgrows, hput⟩ := growsTo_put_empty (standsIn_walk hwalk)
      refine ⟨hgrows, location, ?_⟩
      have hagrees := agrees_walk hgrows (fs.way path.toList)
      rw [hwalk] at hagrees
      rw [hgrows.way_eq]
      generalize hnew : (fs.put location .empty).walk (fs.way path.toList) = result at hagrees
      cases hagrees with
      | filled => rfl
      | same =>
        have hnone := (standsIn_walk hnew).1
        rw [hput, if_pos rfl] at hnone
        cases hnone

/-- **Creating directories only adds directories,** also where it is refused on the way. -/
theorem growsTo_makeDirectoriesUpTo (fuel : Nat) (fs : FileSystem) (path : List Char) :
    fs.GrowsTo (makeDirectoriesUpTo fuel fs path).1 := by
  induction fuel generalizing fs path with
  | zero => exact .refl fs
  | succ fuel ih =>
    rw [makeDirectoriesUpTo]
    split
    · exact .refl fs
    · split
      · exact (growsTo_makeDirectory (by assumption)).1
      · rename_i parent _ _
        have hparent := ih fs parent
        split
        · rename_i hrest
          rwa [hrest] at hparent
        · rename_i hrest
          rw [hrest] at hparent
          split
          · exact hparent.trans (growsTo_makeDirectory (by assumption)).1
          · exact hparent
      · exact .refl fs

/-- **Where nothing is refused, the directory is there.** -/
theorem walk_of_makeDirectoriesUpTo {fuel : Nat} {path : List Char} (hne : path ≠ [])
    (hfuel : path.length ≤ fuel) (h : makeDirectoriesUpTo fuel fs path = (fs', .ok ())) :
    ∃ here, fs'.walk (fs'.way path) = .ok (.directory here) := by
  cases fuel with
  | zero => exact absurd (List.eq_nil_of_length_eq_zero (Nat.le_zero.mp hfuel)) hne
  | succ fuel =>
    have hthere {old : FileSystem} (hmake : old.makeDirectory (String.ofList path) = .ok fs') :
        ∃ here, fs'.walk (fs'.way path) = .ok (.directory here) := by
      have := (growsTo_makeDirectory hmake).2
      rwa [String.toList_ofList] at this
    rw [makeDirectoriesUpTo, if_neg (by rwa [List.isEmpty_iff])] at h
    split at h
    · rename_i hmake
      cases h
      exact hthere hmake
    · split at h
      · cases h
      · split at h
        · rename_i hmake
          cases h
          exact hthere hmake
        · cases h
    · cases h

/-- Where more directories lead to a directory, it is created, or the one above it is missing. -/
theorem makeDirectory_within {path : List Char} {here : Location} (hgrows : fs.GrowsTo fs')
    (hfree : fs.restrictions = []) (hpath : refusal? (String.ofList path) = none)
    (hthere : fs'.walk (fs'.way path) = .ok (.directory here)) :
    (∃ middle, fs.makeDirectory (String.ofList path) = .ok middle ∧ middle.GrowsTo fs') ∨
      fs.walk (fs.way path) = .error .noSuchFile ∧
        fs.makeDirectory (String.ofList path) = .error .noSuchFile := by
  have hagrees := agrees_walk hgrows (fs.way path)
  rw [hgrows.way_eq] at hthere
  rw [hthere] at hagrees
  rw [makeDirectory, resolve_eq, hpath, String.toList_ofList]
  generalize hold : fs.walk (fs.way path) = result at hagrees
  cases hagrees with
  | same => exact .inl ⟨fs, rfl, hgrows⟩
  | further => exact .inr ⟨rfl, rfl⟩
  | filled =>
    left
    refine ⟨fs.put here .empty, place_of_restrictions_eq_nil hfree _ _, ?_⟩
    obtain ⟨hnew, hput⟩ := growsTo_put_empty (standsIn_walk hold)
    refine ⟨?_, ?_, fun l => ?_⟩
    · rw [hgrows.workingDirectory_eq, hnew.workingDirectory_eq]
    · rw [hgrows.restrictions_eq, hnew.restrictions_eq]
    · rw [hput]
      split
      · rename_i heq
        rw [heq]
        exact .inl (standsIn_walk hthere)
      · exact hgrows.node?_eq_or l

end Directories

/-! ## 4. File systems of directories and files -/

/-- A file system of directories and regular files with a working directory, where nothing is
refused but for what the tree and the paths are. -/
structure Plain (fs : FileSystem) : Prop where
  node?_ne_link : ∀ location target, fs.node? location ≠ some (.link target)
  restrictions_eq_nil : fs.restrictions = []
  isDirectory_dot : fs.isDirectory "." = true

namespace Plain

variable {fs fs' : FileSystem}

/-- More directories make no difference to this. -/
theorem grow_node?_ne_link (h : fs.Plain) (hgrows : fs.GrowsTo fs') (location target : Location) :
    fs'.node? location ≠ some (.link target) := by
  rcases hgrows.node?_eq_or location with hsame | ⟨-, hnew⟩
  · rw [hsame]
    exact h.node?_ne_link location target
  · rw [hnew]
    exact nofun

/-- The way to the working directory. -/
theorem exists_walk_way_nil (h : fs.Plain) :
    ∃ here, fs.walk (fs.way []) = .ok (.directory here) := by
  have hdot := h.isDirectory_dot
  have hrefusal : refusal? "." = none := by decide
  have hway : fs.way ".".toList = fs.way [] ++ ["."] := by
    have hcomponents : Path.components ".".toList = [['.']] :=
      Path.components_name (by decide) (by decide)
    rw [way, way, hcomponents]
    simp
  rw [isDirectory, resolve_eq, hrefusal, hway] at hdot
  cases hwalk : fs.walk (fs.way [] ++ ["."]) with
  | error e => simp [hwalk, Except.map] at hdot
  | ok spot =>
    obtain ⟨here, hhome, -⟩ := walk_of_append (by simp) hwalk
    exact ⟨here, hhome⟩

/-- A path without one above it leads to a directory, which is the root or the working one. -/
theorem exists_walk_of_parent?_eq_none (h : fs.Plain) {path : List Char}
    (hparent : Path.parent? path = none) :
    ∃ here, fs.walk (fs.way path) = .ok (.directory here) := by
  obtain ⟨dots, hdots⟩ := Path.components_of_parent?_eq_none hparent
  have hstart : ∃ front, fs.way path = front ++ List.replicate dots "." ∧
      ∃ here, fs.walk front = .ok (.directory here) := by
    obtain ⟨home, hhome⟩ := h.exists_walk_way_nil
    rw [way, hdots, List.map_replicate]
    split
    · exact ⟨[], rfl, [], rfl⟩
    · refine ⟨fs.way [], ?_, home, hhome⟩
      simp [way]
  obtain ⟨front, hway, here, hfront⟩ := hstart
  rw [hway, walk_append, hfront]
  exact ⟨here, foldlM_dots fs here dots⟩

/-- Where the directory above a path is there, the path leads somewhere. -/
theorem walk_way_ne_noSuchFile (h : fs.Plain) (hgrows : fs.GrowsTo fs') {path parent : List Char}
    (hparent : Path.parent? path = some parent) (htrimmed : Path.trimmed path = path)
    {above : Location} (habove : fs'.walk (fs'.way parent) = .ok (.directory above)) :
    fs'.walk (fs'.way path) ≠ .error .noSuchFile := by
  obtain ⟨before, last, behind, hway, hbehind⟩ := way_of_parent?_eq_some fs' hparent
  rw [hbehind htrimmed, List.replicate_zero, List.append_nil] at hway
  rw [hway, walk_dots_concat habove]
  exact step_directory_ne fs' (h.grow_node?_ne_link hgrows) above last

/-- The directory is there when it has been created, and the working one has been there before. -/
theorem exists_walk_of_created (h : fs.Plain) {fuel : Nat} {path : List Char}
    (hfuel : path.length ≤ fuel) (hmade : makeDirectoriesUpTo fuel fs path = (fs', .ok ())) :
    ∃ here, fs'.walk (fs'.way path) = .ok (.directory here) := by
  by_cases hempty : path = []
  · have hgrows := growsTo_makeDirectoriesUpTo fuel fs path
    rw [hmade] at hgrows
    obtain ⟨home, hhome⟩ := h.exists_walk_way_nil
    rw [hempty, hgrows.way_eq]
    exact ⟨home, hgrows.walk_eq hhome nofun⟩
  · exact walk_of_makeDirectoriesUpTo hempty hfuel hmade

/-- **Creating directories is not refused where more directories lead to the directory,** and then
none but those are created. -/
theorem makeDirectoriesUpTo_within (h : fs.Plain) (hgrows : fs.GrowsTo fs') {fuel : Nat}
    {path : List Char} (hfuel : path.length ≤ fuel) (htrimmed : Path.trimmed path = path)
    (hrefusal : path ≠ [] → refusal? (String.ofList path) = none)
    (hthere : ∃ here, fs'.walk (fs'.way path) = .ok (.directory here)) :
    ∃ middle, makeDirectoriesUpTo fuel fs path = (middle, .ok ()) ∧ middle.GrowsTo fs' := by
  -- on the fuel: the paths above are created before the path
  induction fuel generalizing path with
  | zero => exact ⟨fs, rfl, hgrows⟩
  | succ fuel ih =>
    rw [makeDirectoriesUpTo]
    by_cases hne : path = []
    · rw [if_pos (by rw [hne, List.isEmpty_nil])]
      exact ⟨fs, rfl, hgrows⟩
    rw [if_neg (by rwa [List.isEmpty_iff])]
    obtain ⟨here, hthere⟩ := hthere
    rcases makeDirectory_within hgrows h.restrictions_eq_nil (hrefusal hne) hthere with
      ⟨middle, hmake, hmiddle⟩ | ⟨hwalk, hmake⟩
    · rw [hmake]
      exact ⟨middle, rfl, hmiddle⟩
    rw [hmake]
    cases hparent : Path.parent? path with
    | none =>
      obtain ⟨root, hroot⟩ := h.exists_walk_of_parent?_eq_none hparent
      rw [hwalk] at hroot
      cases hroot
    | some parent =>
      have hshort : parent.length ≤ fuel := by
        have := (Path.prefix_of_parent?_eq_some hparent).2
        omega
      obtain ⟨middle, hmade, hmiddle⟩ := ih hshort (Path.trimmed_of_parent?_eq_some hparent)
        (fun habove => refusal?_of_parent?_eq_some hparent habove (hrefusal hne))
        (exists_walk_parent hparent hthere)
      have hgrown := growsTo_makeDirectoriesUpTo fuel fs parent
      obtain ⟨above, habove⟩ := h.exists_walk_of_created hshort hmade
      simp only [hmade] at hgrown ⊢
      rcases makeDirectory_within hmiddle (hgrown.restrictions_eq.trans h.restrictions_eq_nil)
        (hrefusal hne) hthere with ⟨final, hmake, hfinal⟩ | ⟨hwalk, -⟩
      · rw [hmake]
        exact ⟨final, rfl, hfinal⟩
      · exact absurd hwalk (h.walk_way_ne_noSuchFile hgrown hparent htrimmed habove)

end Plain
end FileSystem
end BytecodeTrace
