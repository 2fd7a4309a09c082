/-
# Where names lead when their directories are there

In a file system without links a path can be followed on its text alone: a name leads one further
down, `.` stays where it is and `..` leads up.  The file system only decides how far one gets.

* `destination`: the location that names lead to from the root;
* `FileSystem.location_walk`: a walk without links ends there, if it ends;
* `FileSystem.exists_growsTo_walk`: where names lead past nothing but directories and free names,
  directories can be added along them and nowhere else, and then the walk ends.
-/
import BytecodeTrace.Proofs.Files.Creation

namespace BytecodeTrace

/-! ## 1. Locations by their names -/

/-- The location that a name leads to from a directory. -/
def Location.enter (here : Location) (name : String) : Location :=
  if name = "." then here else if name = ".." then here.dropLast else here ++ [name]

/-- The location that names lead to from the root. -/
def destination (names : List String) : Location := names.foldl Location.enter []

@[simp] theorem destination_nil : destination [] = [] := rfl

theorem destination_concat (names : List String) (name : String) :
    destination (names ++ [name]) = (destination names).enter name :=
  List.foldl_concat ..

/-- A proper name leads one further down. -/
theorem Location.enter_of_ne {name : String} (hpoint : name ≠ ".") (hup : name ≠ "..")
    (here : Location) : here.enter name = here ++ [name] := by
  rw [enter, if_neg hpoint, if_neg hup]

/-- Where a walk has come to. -/
def Spot.location : Spot → Location
  | directory location | file location _ | vacant location => location

namespace FileSystem

variable {fs : FileSystem}

/-! ## 2. Walks without links -/

section NoLinks

variable (hlinks : ∀ location target, fs.node? location ≠ some (.link target))
include hlinks

/-- A step leads from a directory to where the name leads, and the name is not too long. -/
theorem location_step {spot next : Spot} {name : String} (h : fs.step spot name = .ok next) :
    next.location = spot.location.enter name ∧ name.utf8ByteSize ≤ longestName := by
  cases spot with
  | file location content => cases h
  | vacant location => cases h
  | directory here =>
    rw [step] at h
    rw [Spot.location, Location.enter]
    split_ifs at h ⊢ with hpoint hup hlong
    · cases h
      exact ⟨rfl, by rw [hpoint]; decide⟩
    · cases h
      exact ⟨rfl, by rw [hup]; decide⟩
    · refine ⟨?_, Nat.not_lt.mp hlong⟩
      split at h
      · cases h
        rfl
      · cases h
        rfl
      · cases h
        rfl
      · exact absurd (by assumption) (hlinks _ _)

/-- **A walk without links ends where the names lead,** and none of them is too long. -/
theorem location_walk {names : List String} {last : Spot} (h : fs.walk names = .ok last) :
    last.location = destination names ∧ ∀ name ∈ names, name.utf8ByteSize ≤ longestName := by
  induction names using List.reverseRecOn generalizing last with
  | nil =>
    cases h
    exact ⟨rfl, nofun⟩
  | append_singleton front name ih =>
    rw [walk_concat] at h
    obtain ⟨spot, hfront, hstep⟩ := exists_of_bind_eq_ok h
    obtain ⟨hspot, hnames⟩ := ih hfront
    obtain ⟨hlast, hname⟩ := location_step hlinks hstep
    refine ⟨by rw [hlast, hspot, destination_concat], ?_⟩
    simpa [or_imp, forall_and] using ⟨hnames, hname⟩

/-- Everything on the way to a directory is a directory. -/
theorem node?_of_walk_directory {names front : List String} {here : Location}
    (h : fs.walk names = .ok (.directory here)) (hfront : front <+: names) :
    fs.node? (destination front) = some .directory := by
  obtain ⟨back, rfl⟩ := hfront
  have hthere : ∃ there, fs.walk front = .ok (.directory there) := by
    cases back with
    | nil => exact ⟨here, by rwa [List.append_nil] at h⟩
    | cons name back =>
      obtain ⟨there, hthere, -⟩ := walk_of_append (List.cons_ne_nil name back) h
      exact ⟨there, hthere⟩
  obtain ⟨there, hthere⟩ := hthere
  obtain ⟨hlocation, -⟩ := location_walk hlinks hthere
  rw [← hlocation]
  exact standsIn_walk hthere

end NoLinks

/-! ## 3. Directories along names -/

/-- A name that is not too long leads to a directory, at the latest when one more is there. -/
theorem exists_growsTo_step {here : Location} {name : String}
    (hhere : fs.node? here = some .directory) (hlong : name.utf8ByteSize ≤ longestName)
    (hpass : fs.node? (here.enter name) = none ∨ fs.node? (here.enter name) = some .directory) :
    ∃ fs', fs.GrowsTo fs' ∧
      fs'.step (.directory here) name = .ok (.directory (here.enter name)) ∧
      ∀ l, fs'.node? l = fs.node? l ∨ l = here.enter name := by
  by_cases hpoint : name = "."
  · refine ⟨fs, .refl fs, ?_, fun l => .inl rfl⟩
    rw [step, Location.enter, if_pos hpoint, if_pos hpoint]
  by_cases hup : name = ".."
  · refine ⟨fs, .refl fs, ?_, fun l => .inl rfl⟩
    rw [step, Location.enter, if_neg hpoint, if_neg hpoint, if_pos hup, if_pos hup]
  have hlong : ¬longestName < name.utf8ByteSize := Nat.not_lt.mpr hlong
  rw [Location.enter_of_ne hpoint hup] at hpass ⊢
  rcases hpass with hnone | hdirectory
  · have hvacant : (Spot.vacant (here ++ [name])).StandsIn fs := ⟨hnone, _, name, rfl, hhere⟩
    obtain ⟨hgrows, hnodes⟩ := growsTo_put_empty hvacant
    refine ⟨_, hgrows, ?_, fun l => ?_⟩
    · rw [step, if_neg hpoint, if_neg hup, if_neg hlong, hnodes, if_pos rfl]
    · rw [hnodes]
      split_ifs with heq
      · exact .inr heq
      · exact .inl rfl
  · refine ⟨fs, .refl fs, ?_, fun l => .inl rfl⟩
    rw [step, if_neg hpoint, if_neg hup, if_neg hlong, hdirectory]

/-- **Where names lead past nothing but directories and free names,** directories can be added to
which they lead, and no others. -/
theorem exists_growsTo_walk {names : List String}
    (hsize : ∀ name ∈ names, name.utf8ByteSize ≤ longestName)
    (hpass : ∀ front, front <+: names → fs.node? (destination front) = none ∨
      fs.node? (destination front) = some .directory) :
    ∃ fs', fs.GrowsTo fs' ∧ fs'.walk names = .ok (.directory (destination names)) ∧
      ∀ l, fs'.node? l = fs.node? l ∨ ∃ front, front <+: names ∧ l = destination front := by
  induction names using List.reverseRecOn with
  | nil => exact ⟨fs, .refl fs, rfl, fun l => .inl rfl⟩
  | append_singleton front name ih =>
    have hbefore : front <+: front ++ [name] := List.prefix_append ..
    obtain ⟨middle, hgrows, hwalk, hold⟩ := ih
      (fun other hother => hsize other (List.mem_append_left _ hother))
      (fun other hother => hpass other (hother.trans hbefore))
    -- what is free or a directory still is when there are more directories
    have hnext : middle.node? ((destination front).enter name) = none ∨
        middle.node? ((destination front).enter name) = some .directory := by
      rw [← destination_concat]
      rcases hgrows.node?_eq_or (destination (front ++ [name])) with hsame | ⟨-, hnew⟩
      · rw [hsame]
        exact hpass _ (List.prefix_refl _)
      · exact .inr hnew
    obtain ⟨fs', hnew, hstep, hnodes⟩ := exists_growsTo_step (standsIn_walk hwalk)
      (hsize name (List.mem_append_right _ (List.mem_singleton_self name))) hnext
    refine ⟨fs', hgrows.trans hnew, ?_, fun l => ?_⟩
    · rw [walk_concat, hnew.walk_eq hwalk nofun, destination_concat]
      exact hstep
    · rcases hnodes l with hsame | hl
      · rw [hsame]
        exact (hold l).imp_right fun ⟨other, hother, hl⟩ => ⟨other, hother.trans hbefore, hl⟩
      · exact .inr ⟨front ++ [name], List.prefix_refl _, by rw [hl, destination_concat]⟩

end FileSystem
end BytecodeTrace
