/-
# The name that a path gives

When no name is given, the name above a trace comes from the last component of the input's path and
from nothing else of the path.

* `Path.EndsIn`, `Path.IsFileName`: the component that a path ends in when the slashes and `.`
  components behind it are passed over, and the components that are proper names;
* `Path.endsIn_iff`: a path ends in a component if and only if only `.` components follow it;
* `Path.fileName?_eq_some_iff`: the proper name that a path ends in is its file name;
* `Path.Nameless`, `Path.nameless_iff`: which paths end in no proper name;
* `Path.SameSlashes`: paths that differ in repeated and trailing slashes, which have the same
  components;
* `Path.IsStem`, `Path.isStem_iff`: the stem of a name by its last point;
* `Input.defaultName_namedByLast`: what all this says of the default name.
-/
import BytecodeTrace.Program.Task
import BytecodeTrace.Proofs.Files.Path

namespace BytecodeTrace
namespace Path

/-! ## 1. The last component -/

/-- The path ends in the name, with nothing behind it but slashes and `.` components. -/
inductive EndsIn : List Char → List Char → Prop where
  | alone {name : List Char} : EndsIn name name
  | inside {above name : List Char} : EndsIn (above ++ '/' :: name) name
  | slash {path name : List Char} : EndsIn path name → EndsIn (path ++ ['/']) name
  | point {path name : List Char} : EndsIn path name → EndsIn (path ++ ['/', '.']) name

/-- A proper name of a file or directory: one component, and neither `.` nor `..`. -/
structure IsFileName (name : List Char) : Prop where
  ne_nil : name ≠ []
  not_mem_slash : '/' ∉ name
  ne_point : name ≠ ['.']
  ne_up : name ≠ ['.', '.']

/-- Only `.` components follow the component that a path ends in. -/
theorem EndsIn.exists_components {path name : List Char} (h : EndsIn path name) (hne : name ≠ [])
    (hslash : '/' ∉ name) :
    ∃ front points, components path = front ++ name :: List.replicate points ['.'] := by
  induction h with
  | alone => exact ⟨[], 0, components_name hne hslash⟩
  | @inside above =>
    refine ⟨components above, 0, ?_⟩
    rw [components_append_slash, components_name hne hslash, List.replicate_zero]
  | slash _ ih =>
    obtain ⟨front, points, ih⟩ := ih hne hslash
    exact ⟨front, points, by rw [components_concat_slash, ih]⟩
  | point _ ih =>
    obtain ⟨front, points, ih⟩ := ih hne hslash
    have hpoint : components ['.'] = [['.']] := components_name (by decide) (by decide)
    refine ⟨front, points + 1, ?_⟩
    rw [components_append_slash, ih, hpoint, List.replicate_succ', List.append_assoc,
      List.cons_append]

theorem endsIn_of_components_eq {path name : List Char} {front : List (List Char)} {points : Nat}
    (h : components path = front ++ name :: List.replicate points ['.']) : EndsIn path name := by
  -- on the length of the path, from whose end a slash or a `.` component is taken
  induction hn : path.length using Nat.strong_induction_on generalizing path points with
  | _ n ih =>
    rcases components_cases_last path with
      rfl | ⟨rest, rfl⟩ | ⟨text, last, rfl, hne, hlast, htext⟩
    · simp at h
    · rw [components_concat_slash] at h
      exact .slash (ih rest.length (by simp [← hn]) h rfl)
    · rw [components_append_last htext hne hlast] at h
      cases points with
      | zero =>
        obtain ⟨-, rfl⟩ : _ ∧ last = name := by simpa using List.append_inj' h rfl
        rcases htext with rfl | ⟨above, rfl⟩
        · exact .alone
        · rw [List.append_assoc, List.singleton_append]
          exact .inside
      | succ points =>
        rw [List.replicate_succ', ← List.cons_append, ← List.append_assoc] at h
        obtain ⟨habove, hpoint⟩ := List.append_inj' h rfl
        obtain rfl : last = ['.'] := by simpa using hpoint
        rcases htext with rfl | ⟨above, rfl⟩
        · simp at habove
        · rw [components_concat_slash] at habove
          rw [List.append_assoc, List.singleton_append]
          exact .point (ih above.length (by simp [← hn]) habove rfl)

/-- **A path ends in a component if and only if** only `.` components follow it. -/
theorem endsIn_iff {path name : List Char} (hne : name ≠ []) (hslash : '/' ∉ name) :
    EndsIn path name ↔
      ∃ front points, components path = front ++ name :: List.replicate points ['.'] :=
  ⟨fun h => h.exists_components hne hslash, fun ⟨_, _, h⟩ => endsIn_of_components_eq h⟩

/-! ## 2. File names -/

/-- A name at the end of a path stays where the path is trimmed, with all that is in front of it. -/
theorem dropTail_append {name : List Char} (hne : name ≠ []) (hslash : '/' ∉ name)
    (hpoint : name ≠ ['.']) (front : List Char) :
    dropTail (name.reverse ++ front) = name.reverse ++ front := by
  obtain ⟨c, rest, hreverse⟩ := List.exists_cons_of_ne_nil (List.reverse_ne_nil_iff.mpr hne)
  have hkept : '/' ∉ c :: rest := by rwa [← hreverse, List.mem_reverse]
  have hlast : c = '.' → rest ≠ [] := by
    rintro rfl rfl
    exact hpoint (List.reverse_eq_iff.mp hreverse)
  rw [hreverse, List.cons_append]
  refine dropTail.eq_4 _ ?_ ?_ ?_
  · intro heq
    exact hkept ((List.cons.inj heq).1 ▸ List.mem_cons_self ..)
  · intro _ heq
    exact hkept ((List.cons.inj heq).1 ▸ List.mem_cons_self ..)
  · intro _ heq
    obtain ⟨hc, heq⟩ := List.cons.inj heq
    obtain ⟨d, rest, rfl⟩ := List.exists_cons_of_ne_nil (hlast hc)
    have hd : d = '/' := (List.cons.inj heq).1
    exact hkept (by simp [hd])

theorem EndsIn.ne_nil {path name : List Char} (h : EndsIn path name) (hne : name ≠ []) :
    path ≠ [] := by
  cases h with
  | alone => exact hne
  | inside | slash | point => simp

/-- A path is trimmed to the component that it ends in. -/
theorem EndsIn.exists_dropTail {path name : List Char} (h : EndsIn path name) (hne : name ≠ [])
    (hslash : '/' ∉ name) (hpoint : name ≠ ['.']) :
    ∃ front, dropTail path.reverse = name.reverse ++ front ∧ ∀ c ∈ front.head?, c = '/' := by
  induction h with
  | alone =>
    have hkept := dropTail_append hne hslash hpoint []
    rw [List.append_nil] at hkept
    exact ⟨[], by rw [hkept, List.append_nil], by simp⟩
  | @inside above =>
    refine ⟨'/' :: above.reverse, ?_, by simp⟩
    rw [List.reverse_append, List.reverse_cons, List.append_assoc, List.singleton_append,
      dropTail_append hne hslash hpoint]
  | slash h ih =>
    have hpath := List.reverse_ne_nil_iff.mpr (h.ne_nil hne)
    rw [List.reverse_concat, dropTail.eq_2 _ hpath]
    exact ih hne hslash hpoint
  | @point path _ h ih =>
    have hpath := List.reverse_ne_nil_iff.mpr (h.ne_nil hne)
    have hreverse : (path ++ ['/', '.']).reverse = '.' :: '/' :: path.reverse :=
      List.reverse_append
    rw [hreverse, dropTail.eq_3, dropTail.eq_2 _ hpath]
    exact ih hne hslash hpoint

theorem EndsIn.exists_lastComponent? {path name : List Char} (h : EndsIn path name)
    (hne : name ≠ []) (hslash : '/' ∉ name) (hpoint : name ≠ ['.']) :
    ∃ reversed, lastComponent? path = some (name, reversed) := by
  obtain ⟨front, hdrop, hfront⟩ := h.exists_dropTail hne hslash hpoint
  have hkeep : ∀ c ∈ name.reverse, (c != '/') = true := by
    intro c hc
    simpa using fun heq : c = '/' => hslash (heq ▸ List.mem_reverse.mp hc)
  have hbehind : front.takeWhile (· != '/') = [] := by
    cases front with
    | nil => rfl
    | cons c front => simp [hfront c rfl]
  have htake : (name.reverse ++ front).takeWhile (· != '/') = name.reverse := by
    rw [List.takeWhile_append_of_pos hkeep, hbehind, List.append_nil]
  rw [lastComponent?, hdrop]
  split
  · rename_i hnil
    simp [hne] at hnil
  · rename_i hroot
    rw [hroot] at htake
    exact absurd (List.reverse_eq_nil_iff.mp htake.symm) hne
  · exact ⟨_, by rw [htake, List.reverse_reverse]⟩

/-- **The proper name that a path ends in is its file name,** and there is no other file name. -/
theorem fileName?_eq_some_iff {path name : List Char} :
    fileName? path = some name ↔ IsFileName name ∧ EndsIn path name := by
  constructor
  · intro h
    rw [fileName?] at h
    split at h
    · cases h
    · rename_i last reversed hlast
      split at h
      · cases h
      · rename_i hproper
        obtain rfl := Option.some.inj h
        obtain ⟨hpoint, hup⟩ := not_or.mp hproper
        obtain ⟨htrimmed, hne, hslash, hfront⟩ := exists_of_lastComponent?_eq_some hlast
        obtain ⟨points, hpoints⟩ := components_trimmed path
        rw [htrimmed, components_append_last hfront hne hslash, List.append_assoc,
          List.singleton_append] at hpoints
        exact ⟨⟨hne, hslash, hpoint, hup⟩, endsIn_of_components_eq hpoints⟩
  · rintro ⟨hname, h⟩
    obtain ⟨reversed, hlast⟩ :=
      h.exists_lastComponent? hname.ne_nil hname.not_mem_slash hname.ne_point
    rw [fileName?, hlast]
    exact if_neg (not_or.mpr ⟨hname.ne_point, hname.ne_up⟩)

/-! ## 3. Paths without a file name -/

/-- A path that names no file: the empty path, slashes, a path that ends in `..`, and one or more
`.` components. -/
inductive Nameless : List Char → Prop where
  | empty : Nameless []
  | slashes (more : Nat) : Nameless (List.replicate (more + 1) '/')
  | up {path : List Char} : EndsIn path ['.', '.'] → Nameless path
  | points {path : List Char} : components path ≠ [] →
    (∀ name ∈ components path, name = ['.']) → Nameless path

/-- Components are all `.`, or a last one is not. -/
theorem points_or_exists_last (names : List (List Char)) :
    (∀ name ∈ names, name = ['.']) ∨
      ∃ front name points, names = front ++ name :: List.replicate points ['.'] ∧
        name ≠ ['.'] := by
  induction names with
  | nil => exact .inl nofun
  | cons first names ih =>
    rcases ih with hpoints | ⟨front, name, points, rfl, hname⟩
    · by_cases hfirst : first = ['.']
      · exact .inl (List.forall_mem_cons.mpr ⟨hfirst, hpoints⟩)
      · exact .inr ⟨[], first, names.length,
          by rw [List.eq_replicate_length.mpr hpoints, List.length_replicate, List.nil_append],
          hfirst⟩
    · exact .inr ⟨first :: front, name, points, rfl, hname⟩

/-- A path ends in no proper name if its components are `.` alone. -/
theorem IsFileName.not_endsIn {path name : List Char} (hname : IsFileName name)
    (h : ∀ other ∈ components path, other = ['.']) : ¬ EndsIn path name := by
  intro hends
  obtain ⟨front, points, hcomponents⟩ := hends.exists_components hname.ne_nil hname.not_mem_slash
  exact hname.ne_point (h name (by simp [hcomponents]))

/-- **The paths that name no file** are the nameless ones. -/
theorem nameless_iff {path : List Char} :
    Nameless path ↔ ¬ ∃ name, IsFileName name ∧ EndsIn path name := by
  constructor
  · rintro h ⟨name, hname, hends⟩
    cases h with
    | empty => exact hname.not_endsIn (by simp) hends
    | slashes more =>
      have hnone : components (List.replicate (more + 1) '/') = [] :=
        components_eq_nil_iff.mpr fun _ => List.eq_of_mem_replicate
      exact hname.not_endsIn (by simp [hnone]) hends
    | up hup =>
      obtain ⟨_, hlast⟩ := hup.exists_lastComponent? (by decide) (by decide) (by decide)
      obtain ⟨_, hlast'⟩ :=
        hends.exists_lastComponent? hname.ne_nil hname.not_mem_slash hname.ne_point
      obtain ⟨heq, -⟩ := Prod.mk.inj (Option.some.inj (hlast'.symm.trans hlast))
      exact hname.ne_up heq
    | points _ hpoints => exact hname.not_endsIn hpoints hends
  · intro h
    rcases points_or_exists_last (components path) with
      hpoints | ⟨front, name, points, hsplit, hname⟩
    · by_cases hnil : components path = []
      · have hslashes := List.eq_replicate_length.mpr (components_eq_nil_iff.mp hnil)
        cases hlength : path.length with
        | zero => rw [List.length_eq_zero_iff.mp hlength]; exact .empty
        | succ more => rw [hslashes, hlength]; exact .slashes more
      · exact .points hnil hpoints
    · have hends := endsIn_of_components_eq hsplit
      have hmem : name ∈ components path := by simp [hsplit]
      obtain ⟨hne, hslash⟩ := ne_nil_of_mem_components hmem
      by_cases hup : name = ['.', '.']
      · exact .up (hup ▸ hends)
      · exact absurd ⟨name, ⟨hne, hslash, hname, hup⟩, hends⟩ h

/-! ## 4. Slashes -/

/-- Paths that differ in nothing but how often their slashes are repeated and the slashes at their
ends. -/
inductive SameSlashes : List Char → List Char → Prop where
  | trailing (more more' : Nat) :
    SameSlashes (List.replicate more '/') (List.replicate more' '/')
  | repeated (more more' : Nat) {path path' : List Char} : SameSlashes path path' →
    SameSlashes (List.replicate (more + 1) '/' ++ path) (List.replicate (more' + 1) '/' ++ path')
  | char (c : Char) {path path' : List Char} : SameSlashes path path' →
    SameSlashes (c :: path) (c :: path')

/-- Paths that differ in repeated and trailing slashes have the same components. -/
theorem SameSlashes.components_eq {path path' : List Char} (h : SameSlashes path path') :
    components path = components path' := by
  -- with the text in front of the paths, to which the induction adds a character
  suffices key : ∀ above, components (above ++ path) = components (above ++ path') from key []
  induction h with
  | trailing more more' =>
    intro above
    rw [components_append_replicate, components_append_replicate]
  | @repeated more more' path path' _ ih =>
    intro above
    have hpath : components path = components path' := ih []
    simp only [List.replicate_succ, List.cons_append, components_append_slash,
      components_replicate_append, hpath]
  | @char c path path' _ ih =>
    intro above
    simpa using ih (above ++ [c])

/-- Repeated and trailing slashes do not change what a path ends in. -/
theorem EndsIn.of_sameSlashes {path path' name : List Char} (h : EndsIn path name)
    (hsame : SameSlashes path path') (hname : IsFileName name) : EndsIn path' name := by
  rw [endsIn_iff hname.ne_nil hname.not_mem_slash] at h ⊢
  rwa [← hsame.components_eq]

/-! ## 5. Stems -/

/-- The stem of a name: all of it, if it has no point or only one in front; otherwise the part
before the last point. -/
inductive IsStem : List Char → List Char → Prop where
  | plain {name : List Char} : '.' ∉ name → IsStem name name
  | hidden {name : List Char} : '.' ∉ name → IsStem ('.' :: name) ('.' :: name)
  | extended {before extension : List Char} : before ≠ [] → '.' ∉ extension →
    IsStem (before ++ '.' :: extension) before

theorem stem_of_not_mem {name : List Char} (h : '.' ∉ name) : stem name = name := by
  rw [stem, Text.cutLast_of_not_mem h]

theorem stem_append {before extension : List Char} (h : '.' ∉ extension) :
    stem (before ++ '.' :: extension) =
      if before.isEmpty then before ++ '.' :: extension else before := by
  rw [stem, Text.cutLast_append h]

/-- **The stem of a name** is what its last point says. -/
theorem isStem_iff {name text : List Char} : IsStem name text ↔ stem name = text := by
  constructor
  · intro h
    cases h with
    | plain h => exact stem_of_not_mem h
    | hidden h => exact @stem_append [] _ h
    | extended hne h => rw [stem_append h, List.isEmpty_eq_false_iff.mpr hne, if_neg (by decide)]
  · rintro rfl
    by_cases hpoint : '.' ∈ name
    · obtain ⟨extension, before, hreverse, hextension⟩ :=
        List.eq_append_cons_of_mem (List.mem_reverse.mpr hpoint)
      obtain rfl : name = before.reverse ++ '.' :: extension.reverse := by
        rw [← List.reverse_reverse name, hreverse]
        simp
      have hnone : '.' ∉ extension.reverse := by simpa using hextension
      rw [stem_append hnone]
      split
      · rename_i hempty
        rw [List.isEmpty_iff.mp hempty]
        exact .hidden hnone
      · rename_i hempty
        exact .extended (by simpa using hempty) hnone
    · rw [stem_of_not_mem hpoint]
      exact .plain hpoint

end Path

/-! ## 6. The default name -/

namespace Input

open BytecodeTrace.Path

/-- The default name of a path comes from its last component. -/
structure NamedByLast (path : String) : Prop where
  /-- The name of a path that ends in a proper name is the stem of that. -/
  stem {name : List Char} : IsFileName name → EndsIn path.toList name →
    IsStem name (Input.path path).defaultName.toList
  /-- All paths that end in it have the same name. -/
  shared {name : List Char} {other : String} : IsFileName name → EndsIn path.toList name →
    EndsIn other.toList name → (Input.path other).defaultName = (Input.path path).defaultName
  /-- A proper name has it in every directory. -/
  within (directory : String) : IsFileName path.toList →
    (Input.path (directory ++ "/" ++ path)).defaultName = (Input.path path).defaultName
  /-- Repeated and trailing slashes do not count. -/
  slashes {name : List Char} {other : String} : IsFileName name → EndsIn path.toList name →
    SameSlashes path.toList other.toList →
    (Input.path other).defaultName = (Input.path path).defaultName
  /-- The paths that end in no proper name are the nameless ones, ... -/
  nameless : (¬ ∃ name, IsFileName name ∧ EndsIn path.toList name) ↔ Nameless path.toList
  /-- ... and those stand for themselves. -/
  itself : Nameless path.toList → (Input.path path).defaultName = path

theorem defaultName_of_endsIn {path : String} {name : List Char} (hname : IsFileName name)
    (h : EndsIn path.toList name) :
    (Input.path path).defaultName = String.ofList (Path.stem name) := by
  simp only [defaultName, fileName?_eq_some_iff.mpr ⟨hname, h⟩]

theorem defaultName_of_nameless {path : String} (h : Nameless path.toList) :
    (Input.path path).defaultName = path := by
  have hnone : fileName? path.toList = none := by
    refine Option.eq_none_iff_forall_ne_some.mpr fun name hname => ?_
    exact nameless_iff.mp h ⟨name, fileName?_eq_some_iff.mp hname⟩
  simp only [defaultName, hnone]

/-- **The default name of every path depends on its last component only:** it is the stem of the
proper name that the path ends in, in whatever directory and with whatever slashes, and a path
without a proper name at its end stands for itself. -/
theorem defaultName_namedByLast (path : String) : NamedByLast path where
  stem hname h := by
    rw [defaultName_of_endsIn hname h, String.toList_ofList, isStem_iff]
  shared hname h hother := by
    rw [defaultName_of_endsIn hname h, defaultName_of_endsIn hname hother]
  within directory hname := by
    have hbelow : EndsIn (directory ++ "/" ++ path).toList path.toList := by
      have htext : (directory ++ "/" ++ path).toList = directory.toList ++ '/' :: path.toList := by
        simp
      rw [htext]
      exact .inside
    rw [defaultName_of_endsIn hname hbelow, defaultName_of_endsIn hname .alone]
  slashes hname h hsame := by
    rw [defaultName_of_endsIn hname h, defaultName_of_endsIn hname (h.of_sameSlashes hsame hname)]
  nameless := nameless_iff.symm
  itself := defaultName_of_nameless

/-- A name with several points, slashes and a `.` component behind it; slashes of another number;
and a path that ends in `..`. -/
theorem defaultName_namedByLast_of_points :
    IsFileName ".a.tar.lasm".toList ∧ EndsIn "../lib//.a.tar.lasm/./".toList ".a.tar.lasm".toList ∧
      IsStem ".a.tar.lasm".toList (Input.path "../lib//.a.tar.lasm/./").defaultName.toList ∧
      SameSlashes "d/a.b".toList "d//a.b/".toList ∧
      (Input.path "d//a.b/").defaultName = (Input.path "d/a.b").defaultName ∧
      Nameless "lib/..//.".toList ∧ (Input.path "lib/..//.").defaultName = "lib/..//." := by
  obtain ⟨hname, hends⟩ : IsFileName ".a.tar.lasm".toList ∧
      EndsIn "../lib//.a.tar.lasm/./".toList ".a.tar.lasm".toList :=
    fileName?_eq_some_iff.mp (by decide)
  obtain ⟨hshort, hbelow⟩ : IsFileName "a.b".toList ∧ EndsIn "d/a.b".toList "a.b".toList :=
    fileName?_eq_some_iff.mp (by decide)
  have hsame : SameSlashes "d/a.b".toList "d//a.b/".toList :=
    .char 'd' (.repeated 0 1 (.char 'a' (.char '.' (.char 'b' (.trailing 0 1)))))
  have htext : "lib/..//.".toList = "lib".toList ++ '/' :: ['.', '.'] ++ ['/'] ++ ['/', '.'] := by
    decide
  have hup : Nameless "lib/..//.".toList := by
    rw [htext]
    exact .up (.point (.slash .inside))
  exact ⟨hname, hends, (defaultName_namedByLast _).stem hname hends, hsame,
    (defaultName_namedByLast _).slashes hshort hbelow hsame, hup,
    (defaultName_namedByLast _).itself hup⟩

end Input
end BytecodeTrace
