/-
# Writing a file

A file is written where its path leads, in place of a file or of nothing, and nothing else changes.

* `FileSystem.Wrote`: what a written file changes;
* `FileSystem.wrote_of_write`: that is what writing does;
* `FileSystem.Creatable`: by the text of a path and the nodes on its way, more directories are all
  that is missing for a file at it;
* `FileSystem.Plain.creatable_iff`: these are the paths that can be written when more directories
  are there;
* `FileSystem.Plain.exists_write`: so the file can be written once the directory above the path has
  been created.
-/
import BytecodeTrace.Proofs.Files.Destination

namespace BytecodeTrace

/-! ## 1. What a written file changes -/

/-- What the end of a path is when a file can be put there. -/
def Spot.At (location : Location) (spot : Spot) : Prop :=
  spot = .vacant location ∨ ∃ old, spot = .file location old

theorem Spot.At.ne_directory {location : Location} {spot : Spot} (h : Spot.At location spot)
    (here : Location) : spot ≠ .directory here := by
  rcases h with rfl | ⟨old, rfl⟩
  · exact nofun
  · exact nofun

namespace FileSystem

variable {fs fs' : FileSystem}

/-- The file at the location is what the path leads to, and the only node that has changed. -/
structure Wrote (fs fs' : FileSystem) (path : String) (location : Location)
    (content : ByteArray) : Prop where
  workingDirectory_eq : fs'.workingDirectory = fs.workingDirectory
  restrictions_eq : fs'.restrictions = fs.restrictions
  node?_eq : ∀ l, fs'.node? l = if l = location then some (.file content) else fs.node? l
  node?_before : fs.node? location = none ∨ ∃ old, fs.node? location = some (.file old)
  walk_eq : fs'.walk (fs'.way path.toList) = .ok (.file location content)
  refusal?_eq : refusal? path = none
  namesDirectory_eq : namesDirectory path = false

/-- What a file is put to has a directory above it. -/
theorem exists_above {location : Location} {spot : Spot} (hat : Spot.At location spot)
    (h : spot.StandsIn fs) :
    (fs.node? location = none ∨ ∃ old, fs.node? location = some (.file old)) ∧
      ∃ above name, location = above ++ [name] ∧ fs.node? above = some .directory := by
  rcases hat with rfl | ⟨old, rfl⟩
  · exact ⟨.inl h.1, h.2⟩
  · refine ⟨.inr ⟨old, h⟩, ?_⟩
    rcases List.eq_nil_or_concat location with rfl | ⟨above, name, rfl⟩
    · rw [Spot.StandsIn, node?_nil] at h
      cases h
    · rw [List.concat_eq_append] at h ⊢
      exact ⟨above, name, rfl, node?_of_append (by rw [h]; exact Option.some_ne_none _)⟩

/-- **Putting a file where a path leads changes that alone.** -/
theorem wrote_put {path : String} {location : Location} {spot : Spot} (content : ByteArray)
    (hrefusal : refusal? path = none) (hname : namesDirectory path = false)
    (hwalk : fs.walk (fs.way path.toList) = .ok spot) (hat : Spot.At location spot) :
    Wrote fs (fs.put location (.file content)) path location content := by
  obtain ⟨hbefore, above, name, rfl, habove⟩ := exists_above hat (standsIn_walk hwalk)
  have hput := node?_put habove (node?_ne_directory hbefore) (Tree.isLeaf_file content)
  refine ⟨workingDirectory_put .., restrictions_put .., hput, hbefore, ?_, hrefusal, hname⟩
  have hafter := walk_put_file hput hbefore hwalk
  have hspot : spot.withFile (above ++ [name]) content = .file (above ++ [name]) content := by
    rcases hat with rfl | ⟨old, rfl⟩
    · simp [Spot.withFile]
    · simp [Spot.withFile]
  rw [hspot] at hafter
  rwa [way, workingDirectory_put]

/-- What a path with a slash at its end leads to is no place for a file. -/
theorem resolveTarget_of_namesDirectory {path : String} (h : namesDirectory path = true)
    {target : Resolved} (htarget : fs.resolveTarget path = .ok target) : target = .directory := by
  rw [resolveTarget, if_pos h] at htarget
  cases hroute : fs.route path with
  | error e =>
    rw [hroute] at htarget
    cases htarget
  | ok names =>
    rw [hroute] at htarget
    dsimp only at htarget
    rw [follow_root_eq] at htarget
    cases hwalk : fs.walk (names.dropLast ++ ["."]) with
    | error e =>
      rw [hwalk] at htarget
      cases htarget
    | ok spot =>
      obtain ⟨here, rfl⟩ := walk_append_dots (n := 0) hwalk
      rw [hwalk] at htarget
      exact (Except.ok.inj htarget).symm

/-- A file is written where its path leads. -/
theorem exists_spot_of_write {path : String} {content : ByteArray}
    (h : fs.write path content = .ok fs') :
    refusal? path = none ∧ namesDirectory path = false ∧
      ∃ location spot, fs.walk (fs.way path.toList) = .ok spot ∧ Spot.At location spot ∧
        fs' = fs.put location (.file content) := by
  cases hname : namesDirectory path with
  | true =>
    rw [write] at h
    cases htarget : fs.resolveTarget path with
    | error e =>
      rw [htarget] at h
      cases h
    | ok target =>
      rw [htarget, resolveTarget_of_namesDirectory hname htarget] at h
      cases h
  | false =>
    rw [write, resolveTarget, if_neg (by rw [hname]; exact Bool.false_ne_true)] at h
    cases hresolve : fs.resolve path with
    | error e =>
      rw [hresolve] at h
      cases h
    | ok target =>
      rw [hresolve] at h
      obtain ⟨hrefusal, spot, hwalk, rfl⟩ := exists_spot_of_resolve hresolve
      cases spot with
      | directory here => cases h
      | file location old =>
        exact ⟨hrefusal, rfl, location, _, hwalk, .inr ⟨old, rfl⟩, eq_put_of_place h⟩
      | vacant location =>
        exact ⟨hrefusal, rfl, location, _, hwalk, .inl rfl, eq_put_of_place h⟩

/-- **A file that is written is the only node that changes.** -/
theorem wrote_of_write {path : String} {content : ByteArray}
    (h : fs.write path content = .ok fs') : ∃ location, Wrote fs fs' path location content := by
  obtain ⟨hrefusal, hname, location, spot, hwalk, hat, rfl⟩ := exists_spot_of_write h
  exact ⟨location, wrote_put content hrefusal hname hwalk hat⟩

/-- Where nothing is restricted, a file can be written to every free name and over every file. -/
theorem write_eq_put (hfree : fs.restrictions = []) {path : String} {location : Location}
    {spot : Spot} (content : ByteArray) (hrefusal : refusal? path = none)
    (hname : namesDirectory path = false) (hwalk : fs.walk (fs.way path.toList) = .ok spot)
    (hat : Spot.At location spot) :
    fs.write path content = .ok (fs.put location (.file content)) := by
  rw [write, resolveTarget, if_neg (by rw [hname]; exact Bool.false_ne_true), resolve_eq,
    hrefusal, hwalk]
  rcases hat with rfl | ⟨old, rfl⟩
  · exact place_of_restrictions_eq_nil hfree _ _
  · exact place_of_restrictions_eq_nil hfree _ _

namespace Wrote

variable {path : String} {location : Location} {content : ByteArray}

/-- The path leads to the file. -/
theorem resolve_eq (h : Wrote fs fs' path location content) :
    fs'.resolve path = .ok (.file location content) := by
  rw [FileSystem.resolve_eq, h.refusal?_eq, h.walk_eq]
  rfl

theorem way_eq (h : Wrote fs fs' path location content) (other : List Char) :
    fs'.way other = fs.way other := by
  rw [way, way, h.workingDirectory_eq]

/-- A directory stays. -/
theorem node?_eq_directory (h : Wrote fs fs' path location content) {l : Location}
    (hl : fs.node? l = some .directory) : fs'.node? l = some .directory := by
  have hne : l ≠ location := by
    rintro rfl
    exact node?_ne_directory h.node?_before hl
  rw [h.node?_eq, if_neg hne, hl]

/-- Where nothing is restricted, the path can be read. -/
theorem read_eq (h : Wrote fs fs' path location content) (hfree : fs.restrictions = []) :
    fs'.read path = .ok content := by
  rw [read, h.resolve_eq]
  simp [h.namesDirectory_eq, restriction?, h.restrictions_eq, hfree]

/-- What the path led to was at the location. -/
theorem eq_location (h : Wrote fs fs' path location content) {spot : Spot}
    (hwalk : fs.walk (fs.way path.toList) = .ok spot) {l : Location} (hat : Spot.At l spot) :
    l = location := by
  have hafter := walk_put_file h.node?_eq h.node?_before hwalk
  rw [← h.way_eq, h.walk_eq] at hafter
  rcases hat with rfl | ⟨old, rfl⟩
  · rw [Spot.withFile] at hafter
    split at hafter
    · assumption
    · cases hafter
  · exact (Spot.file.inj (Except.ok.inj hafter)).1.symm

/-- A walk to a directory stays one. -/
theorem walk_directory_eq (h : Wrote fs fs' path location content) {names : List String}
    {here : Location} (hwalk : fs.walk names = .ok (.directory here)) :
    fs'.walk names = .ok (.directory here) :=
  walk_put_file h.node?_eq h.node?_before hwalk

end Wrote

/-! ## 2. Paths that lack nothing but directories -/

/-- There is room for a file where the names and the last one lead: everything on the way there is
a directory or free, and at its end is a file or nothing. -/
structure RoomFor (fs : FileSystem) (names : List String) (last : String) : Prop where
  ne_point : last ≠ "."
  ne_up : last ≠ ".."
  size_le : ∀ name ∈ names ++ [last], name.utf8ByteSize ≤ longestName
  passes : ∀ front, front <+: names →
    fs.node? (destination front) = none ∨ fs.node? (destination front) = some .directory
  free : fs.node? (destination (names ++ [last])) = none ∨
    ∃ old, fs.node? (destination (names ++ [last])) = some (.file old)
  /-- The way does not go through the place itself, as that of `new/../new` does. -/
  apart : ∀ front, front <+: names → destination front ≠ destination (names ++ [last])

/-- More directories are all that is missing for a file at the path: it is a path that can be
followed, it does not end with a slash, and there is room for a file behind its names. -/
structure Creatable (fs : FileSystem) (path : String) : Prop where
  no_zero : Char.ofNat 0 ∉ path.toList
  ne_empty : path ≠ ""
  size_le : path.utf8ByteSize ≤ longestPath
  no_slash : path.toList.getLast? ≠ some '/'
  room : ∃ names last, fs.way path.toList = names ++ [last] ∧ fs.RoomFor names last

/-- A file can be written to the path, at the latest when more directories are there. -/
def WritableOnceGrown (fs : FileSystem) (path : String) : Prop :=
  ∃ fs', fs.GrowsTo fs' ∧ ∀ content, ∃ after, fs'.write path content = .ok after

/-- Which paths are followed at all. -/
theorem refusal?_eq_none_iff {path : String} :
    refusal? path = none ↔
      Char.ofNat 0 ∉ path.toList ∧ path ≠ "" ∧ path.utf8ByteSize ≤ longestPath := by
  rw [refusal?]
  split_ifs with hzero hempty hlong
  · exact iff_of_false not_false fun h => h.1 (List.contains_iff_mem.mp hzero)
  · exact iff_of_false not_false fun h => h.2.1 (String.isEmpty_iff.mp hempty)
  · exact iff_of_false not_false fun h => Nat.not_lt.mpr h.2.2 hlong
  · exact iff_of_true rfl ⟨fun hmem => hzero (List.contains_iff_mem.mpr hmem),
      fun heq => hempty (String.isEmpty_iff.mpr heq), Nat.not_lt.mp hlong⟩

theorem namesDirectory_eq_false_iff {path : String} :
    namesDirectory path = false ↔ path.toList.getLast? ≠ some '/' := by
  rw [namesDirectory, decide_eq_false_iff_not]

/-- Where something is free or a file, a step leads to a place for a file. -/
theorem exists_at_step {here : Location} {name : String} (hpoint : name ≠ ".") (hup : name ≠ "..")
    (hlong : name.utf8ByteSize ≤ longestName)
    (hfree : fs.node? (here ++ [name]) = none ∨
      ∃ old, fs.node? (here ++ [name]) = some (.file old)) :
    ∃ spot, fs.step (.directory here) name = .ok spot ∧ Spot.At (here ++ [name]) spot := by
  rw [step, if_neg hpoint, if_neg hup, if_neg (Nat.not_lt.mpr hlong)]
  rcases hfree with hnone | ⟨old, hold⟩
  · rw [hnone]
    exact ⟨_, rfl, .inl rfl⟩
  · rw [hold]
    exact ⟨_, rfl, .inr ⟨old, rfl⟩⟩

/-- A free name in a directory that is there, or a file, lacks nothing at all. -/
theorem writableOnceGrown_of_at (hfree : fs.restrictions = []) {path : String}
    {location : Location} {spot : Spot} (hrefusal : refusal? path = none)
    (hname : namesDirectory path = false)
    (hwalk : fs.walk (fs.way path.toList) = .ok spot) (hat : Spot.At location spot) :
    fs.WritableOnceGrown path :=
  ⟨fs, .refl fs, fun content => ⟨_, write_eq_put hfree content hrefusal hname hwalk hat⟩⟩

/-- What can be written behind more directories can be written at the latest there. -/
theorem WritableOnceGrown.of_growsTo {path : String} (hgrows : fs.GrowsTo fs')
    (h : fs'.WritableOnceGrown path) : fs.WritableOnceGrown path := by
  obtain ⟨larger, hlarger, hwrites⟩ := h
  exact ⟨larger, hgrows.trans hlarger, hwrites⟩

/-- Where there is room, a walk comes to a place for a file when more directories are there. -/
theorem RoomFor.exists_growsTo {names : List String} {last : String}
    (h : fs.RoomFor names last) :
    ∃ fs' location spot, fs.GrowsTo fs' ∧ fs'.walk (names ++ [last]) = .ok spot ∧
      Spot.At location spot := by
  obtain ⟨fs', hgrows, hwalk, hnodes⟩ := exists_growsTo_walk
    (fun name hname => h.size_le name (List.mem_append_left _ hname)) h.passes
  have henter := Location.enter_of_ne h.ne_point h.ne_up (destination names)
  -- the new directories are not where the file is to be
  have hsame : fs'.node? (destination names ++ [last]) =
      fs.node? (destination names ++ [last]) := by
    refine (hnodes _).resolve_right ?_
    rintro ⟨front, hfront, heq⟩
    exact h.apart front hfront (by rw [destination_concat, henter, heq])
  have hfree := h.free
  rw [destination_concat, henter, ← hsame] at hfree
  obtain ⟨spot, hstep, hat⟩ := exists_at_step h.ne_point h.ne_up
    (h.size_le last (List.mem_append_right _ (List.mem_singleton_self last))) hfree
  refine ⟨fs', _, spot, hgrows, ?_, hat⟩
  rw [walk_concat, hwalk]
  exact hstep

/-- Where a walk comes to a place for a file when more directories are there, there is room. -/
theorem RoomFor.of_growsTo (hlinks : ∀ location target, fs'.node? location ≠ some (.link target))
    (hgrows : fs.GrowsTo fs') {names : List String} {last : String} {location : Location}
    {spot : Spot} (hwalk : fs'.walk (names ++ [last]) = .ok spot) (hat : Spot.At location spot) :
    fs.RoomFor names last := by
  obtain ⟨here, hfront, hstep⟩ := walk_of_append (List.cons_ne_nil last []) hwalk
  obtain ⟨hlocation, hsize⟩ := location_walk hlinks hwalk
  obtain rfl : location = destination (names ++ [last]) := by
    rcases hat with rfl | ⟨old, rfl⟩
    · exact hlocation
    · exact hlocation
  have hplace := (exists_above hat (standsIn_walk hwalk)).1
  have hdirectory (front : List String) (hleads : front <+: names) :
      fs'.node? (destination front) = some .directory :=
    node?_of_walk_directory hlinks hfront hleads
  have hne := node?_ne_directory hplace
  refine ⟨?_, ?_, hsize, fun front hleads => ?_, ?_, fun front hleads heq => ?_⟩
  · rintro rfl
    cases hstep
    exact hat.ne_directory here rfl
  · rintro rfl
    cases hstep
    exact hat.ne_directory _ rfl
  · rcases hgrows.node?_eq_or (destination front) with hsame | ⟨hnone, -⟩
    · exact .inr (by rw [← hsame, hdirectory front hleads])
    · exact .inl hnone
  · rwa [hgrows.node?_eq_of_ne hne]
  · exact hne (by rw [← heq, hdirectory front hleads])

namespace Plain

/-- Where the directory above a path is there, the file can be written if more directories are all
that the path could lack. -/
theorem write_of_growsTo (h : fs.Plain) {middle after : FileSystem} {path : String}
    {parent : List Char} (hgrows : fs.GrowsTo middle) (hwithin : middle.GrowsTo fs')
    (hparent : Path.parent? path.toList = some parent) {above : Location}
    (habove : middle.walk (middle.way parent) = .ok (.directory above)) {content : ByteArray}
    (hwrite : fs'.write path content = .ok after) (new : ByteArray) :
    ∃ after, middle.write path new = .ok after := by
  obtain ⟨hrefusal, hname, location, spot, hwalk, hat, -⟩ := exists_spot_of_write hwrite
  have hfree : middle.restrictions = [] := hgrows.restrictions_eq.trans h.restrictions_eq_nil
  -- a path that ends with `.` components leads to no place for a file
  have hstep : ∃ last,
      middle.walk (middle.way path.toList) = middle.step (.directory above) last := by
    obtain ⟨before, last, behind, hway, -⟩ := way_of_parent?_eq_some middle hparent
    cases behind with
    | zero =>
      rw [List.replicate_zero, List.append_nil] at hway
      exact ⟨last, by rw [hway, walk_dots_concat habove]⟩
    | succ behind =>
      rw [hwithin.way_eq, hway] at hwalk
      obtain ⟨here, hhere⟩ := walk_append_dots hwalk
      exact absurd hhere (hat.ne_directory here)
  obtain ⟨last, hstep⟩ := hstep
  have hagrees := agrees_walk hwithin (middle.way path.toList)
  rw [← hwithin.way_eq, hwalk, hwithin.way_eq] at hagrees
  generalize hmiddle : middle.walk (middle.way path.toList) = result at hagrees
  cases hagrees with
  | same => exact ⟨_, write_eq_put hfree new hrefusal hname hmiddle hat⟩
  | filled here => exact absurd rfl (hat.ne_directory here)
  | further =>
    rw [hstep] at hmiddle
    exact absurd hmiddle (step_directory_ne middle (h.grow_node?_ne_link hgrows) above last)

/-- **More directories are all that is missing for a file at a path** exactly if, when they are
there, the path can be written. -/
theorem creatable_iff (h : fs.Plain) {path : String} :
    fs.Creatable path ↔ fs.WritableOnceGrown path := by
  constructor
  · intro hcreatable
    obtain ⟨names, last, hway, hroom⟩ := hcreatable.room
    obtain ⟨fs', location, spot, hgrows, hwalk, hat⟩ := hroom.exists_growsTo
    have hrefusal := refusal?_eq_none_iff.mpr
      ⟨hcreatable.no_zero, hcreatable.ne_empty, hcreatable.size_le⟩
    have hname := namesDirectory_eq_false_iff.mpr hcreatable.no_slash
    have hfree : fs'.restrictions = [] := hgrows.restrictions_eq.trans h.restrictions_eq_nil
    rw [← hway, ← hgrows.way_eq] at hwalk
    exact (writableOnceGrown_of_at hfree hrefusal hname hwalk hat).of_growsTo hgrows
  · rintro ⟨fs', hgrows, hwrites⟩
    obtain ⟨after, hwrite⟩ := hwrites .empty
    obtain ⟨hrefusal, hname, location, spot, hwalk, hat, -⟩ := exists_spot_of_write hwrite
    obtain ⟨hzero, hempty, hsize⟩ := refusal?_eq_none_iff.mp hrefusal
    rw [hgrows.way_eq] at hwalk
    refine ⟨hzero, hempty, hsize, namesDirectory_eq_false_iff.mp hname, ?_⟩
    rcases List.eq_nil_or_concat (fs.way path.toList) with hnil | ⟨names, last, hway⟩
    · rw [hnil] at hwalk
      cases hwalk
      exact absurd rfl (hat.ne_directory [])
    · rw [List.concat_eq_append] at hway
      rw [hway] at hwalk
      exact ⟨names, last, hway, .of_growsTo (h.grow_node?_ne_link hgrows) hgrows hwalk hat⟩

/-- A path that a file can be put at has a path above it. -/
theorem exists_parent (h : fs.Plain) {path : String} (hcreatable : fs.Creatable path) :
    ∃ parent, Path.parent? path.toList = some parent := by
  obtain ⟨fs', hgrows, hwrites⟩ := h.creatable_iff.mp hcreatable
  obtain ⟨after, hwrite⟩ := hwrites .empty
  obtain ⟨-, -, location, spot, hwalk, hat, -⟩ := exists_spot_of_write hwrite
  cases hparent : Path.parent? path.toList with
  | some parent => exact ⟨parent, rfl⟩
  | none =>
    obtain ⟨here, hhere⟩ := h.exists_walk_of_parent?_eq_none hparent
    rw [hgrows.way_eq, hgrows.walk_eq hhere nofun] at hwalk
    exact absurd (Except.ok.inj hwalk).symm (hat.ne_directory here)

/-- **A path that lacks nothing but directories can be written** once the directory above it has
been created, which is not refused. -/
theorem exists_write (h : fs.Plain) {path : String} {parent : List Char}
    (hcreatable : fs.Creatable path) (hparent : Path.parent? path.toList = some parent) :
    ∃ middle, makeDirectoriesUpTo parent.length fs parent = (middle, .ok ()) ∧
      ∀ content, ∃ after, middle.write path content = .ok after := by
  obtain ⟨fs', hgrows, hwrites⟩ := h.creatable_iff.mp hcreatable
  obtain ⟨after, hwrite⟩ := hwrites .empty
  obtain ⟨hrefusal, -, location, spot, hwalk, -⟩ := exists_spot_of_write hwrite
  have hrefusal : parent ≠ [] → refusal? (String.ofList parent) = none := by
    intro hne
    exact refusal?_of_parent?_eq_some hparent hne (by rwa [String.ofList_toList])
  obtain ⟨middle, hmade, hwithin⟩ := h.makeDirectoriesUpTo_within hgrows (Nat.le_refl _)
    (Path.trimmed_of_parent?_eq_some hparent) hrefusal (exists_walk_parent hparent hwalk)
  obtain ⟨above, habove⟩ := h.exists_walk_of_created (Nat.le_refl _) hmade
  have hgrown := growsTo_makeDirectoriesUpTo parent.length fs parent
  rw [hmade] at hgrown
  exact ⟨middle, hmade, h.write_of_growsTo hgrown hwithin hparent habove hwrite⟩

end Plain
end FileSystem
end BytecodeTrace
