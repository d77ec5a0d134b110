import ArrowLang.Proofs.Configured
import ArrowLang.Proofs.Places

/-!
# The nearest file of settings

The search goes up from its start to the root directory and ends at the first directory with an entry
of the right name. The settings are those of that entry, or its error; the defaults hold if there is
none.
-/
namespace ArrowLang.Settings

/-- Where the search starts. -/
def startPlace (files : Files) : Option String → Place
  | none => files.cwd
  | some path => files.resolve path

/-- The directory in which the search starts. A place where nothing stands is taken for one. -/
def startDirectory (files : Files) (start : Option String) : Place :=
  match files.tree.at? (startPlace files start) with
  | some (.file _) => (startPlace files start).dropLast
  | _ => startPlace files start

/-- The directory has an entry of the right name, a file or a directory. -/
def HasEntry (files : Files) (directory : Place) : Prop :=
  (files.tree.at? (directory ++ [fileName])).isSome

/-- The first directory with the entry on the way up from a start. -/
structure IsNearest (files : Files) (start directory : Place) : Prop where
  ancestor : directory <+: start
  entry : HasEntry files directory
  nearest : ∀ other, other <+: start → HasEntry files other → other <+: directory

/-- Neither the start nor a directory above it has the entry. -/
def HasNone (files : Files) (start : Place) : Prop :=
  ∀ directory, directory <+: start → ¬ HasEntry files directory

theorem IsNearest.unique {files : Files} {start p q : Place} (hp : IsNearest files start p)
    (hq : IsNearest files start q) : p = q :=
  (hq.nearest p hp.ancestor hp.entry).eq_of_length_le
    (hp.nearest q hq.ancestor hq.entry).length_le

theorem IsNearest.refl {files : Files} {directory : Place} (h : HasEntry files directory) :
    IsNearest files directory directory :=
  ⟨List.prefix_rfl, h, fun _ hother _ => hother⟩

/-- A directory without the entry leaves the nearest one of its parent. -/
theorem IsNearest.concat {files : Files} {place directory : Place} {name : String}
    (hnone : ¬ HasEntry files (place ++ [name])) (h : IsNearest files place directory) :
    IsNearest files (place ++ [name]) directory := by
  refine ⟨h.ancestor.trans (List.prefix_append _ _), h.entry, fun other hother hentry => ?_⟩
  rcases List.prefix_concat_iff.mp hother with rfl | hother
  · exact absurd hentry hnone
  · exact h.nearest other hother hentry

theorem HasNone.concat {files : Files} {place : Place} {name : String}
    (hnone : ¬ HasEntry files (place ++ [name])) (h : HasNone files place) :
    HasNone files (place ++ [name]) := by
  intro other hother
  rcases List.prefix_concat_iff.mp hother with rfl | hother
  · exact hnone
  · exact h other hother

theorem IsNearest.not_hasNone {files : Files} {start directory : Place}
    (h : IsNearest files start directory) : ¬ HasNone files start :=
  fun hnone => hnone directory h.ancestor h.entry

theorem isEntryName_fileName : IsEntryName fileName := by
  constructor <;> decide

theorem upward_concat (place : Place) (name : String) :
    upward (place ++ [name]).reverse = (place ++ [name]) :: upward place.reverse := by
  rw [List.reverse_concat, upward, List.reverse_cons, List.reverse_reverse]

/-- The search from a directory on. -/
def climb (files : Files) (directory : Place) : Except SettingsError (Place × FileTree) :=
  firstIn files (upward directory.reverse)

/-- One turn of the search: the entry of a directory, or else the search from its parent on, until a
directory is its own parent. -/
theorem climb_eq (files : Files) (directory : Place) : climb files directory =
    match files.look (directory ++ [fileName]) with
    | .ok (some t) => .ok (directory ++ [fileName], t)
    | .ok none =>
      if directory.dropLast = directory then .error .notFound else climb files directory.dropLast
    | .error o => .error (.unreadable o (Place.path (directory ++ [fileName]))) := by
  rcases List.eq_nil_or_concat' directory with rfl | ⟨place, name, rfl⟩
  · rfl
  · rw [climb, upward_concat, firstIn, List.dropLast_concat, if_neg (by simp)]
    rfl

/-- What the system looks up in a directory it looks up in those around it. -/
theorem allowed_ancestor {files : Files} {directory ancestor : Place}
    (h : files.Allowed (directory ++ [fileName])) (ha : ancestor <+: directory) :
    files.Allowed (ancestor ++ [fileName]) := by
  obtain ⟨rest, rfl⟩ := ha
  constructor
  · have hpath := h.path
    rw [Place.utf8ByteSize_path (by simp)] at hpath ⊢
    simp only [List.map_append, List.sum_append] at hpath ⊢
    omega
  · intro pre name hpre hdirectory
    rcases List.prefix_concat_iff.mp hpre with heq | hpre
    · obtain ⟨-, rfl⟩ := List.append_inj' heq rfl |>.imp id List.singleton_inj.mp
      decide
    · exact h.short pre name (hpre.trans ⟨rest ++ [fileName], by simp⟩) hdirectory

theorem look_candidate {files : Files} {directory : Place} (hp : directory.Proper)
    (ha : files.Allowed (directory ++ [fileName])) :
    files.look (directory ++ [fileName]) = .ok (files.tree.at? (directory ++ [fileName])) :=
  Files.look_of_allowed (hp.append (Place.proper_singleton isEntryName_fileName)) ha

/-- What the search from a directory on gives: the entry of the nearest directory, or nothing. -/
inductive Climbs (files : Files) (directory : Place) :
    Except SettingsError (Place × FileTree) → Prop where
  | found {nearest : Place} {t : FileTree} : IsNearest files directory nearest →
      files.look (nearest ++ [fileName]) = .ok (some t) →
      Climbs files directory (.ok (nearest ++ [fileName], t))
  | nothing : HasNone files directory → Climbs files directory (.error .notFound)

theorem Climbs.concat {files : Files} {place : Place} {name : String}
    {x : Except SettingsError (Place × FileTree)} (hnone : ¬ HasEntry files (place ++ [name]))
    (h : Climbs files place x) : Climbs files (place ++ [name]) x := by
  cases h with
  | found hnearest hlook => exact .found (hnearest.concat hnone) hlook
  | nothing h => exact .nothing (h.concat hnone)

/-- One turn: the directory has the entry, or what is left of the search decides. -/
theorem climbs_of_rest {files : Files} {directory : Place} (hp : directory.Proper)
    (ha : files.Allowed (directory ++ [fileName]))
    (hrest : ¬ HasEntry files directory → Climbs files directory
      (if directory.dropLast = directory then .error .notFound else climb files directory.dropLast)) :
    Climbs files directory (climb files directory) := by
  have hlook := look_candidate hp ha
  rw [climb_eq, hlook]
  cases hentry : files.tree.at? (directory ++ [fileName]) with
  | some t => exact .found (.refl (by rw [HasEntry, hentry]; rfl)) (hentry ▸ hlook)
  | none => exact hrest (by rw [HasEntry, hentry]; exact Bool.false_ne_true)

theorem climbs {files : Files} {directory : Place} (hp : directory.Proper)
    (ha : files.Allowed (directory ++ [fileName])) :
    Climbs files directory (climb files directory) := by
  induction directory using List.reverseRecOn with
  | nil =>
    refine climbs_of_rest hp ha fun hnone => .nothing fun other hother => ?_
    rwa [List.prefix_nil.mp hother]
  | append_singleton place name ih =>
    refine climbs_of_rest hp ha fun hnone => ?_
    rw [List.dropLast_concat, if_neg (by simp)]
    exact (ih (hp.of_subset (List.subset_append_left _ _))
      (allowed_ancestor ha (List.prefix_append _ _))).concat hnone

/-- The system looks up the start of the search and the entry in the directory of the start. -/
structure Lookable (files : Files) (start : Option String) : Prop where
  no_null : ∀ path ∈ start, '\x00' ∉ path.toList
  place : files.Allowed (startPlace files start)
  entry : files.Allowed (startDirectory files start ++ [fileName])

theorem proper_startPlace {files : Files} (hcwd : files.cwd.Proper) {start : Option String}
    (h : ∀ path ∈ start, '\x00' ∉ path.toList) : (startPlace files start).Proper := by
  cases start with
  | none => exact hcwd
  | some path => exact Files.proper_resolve hcwd (h path rfl)

theorem proper_startDirectory {files : Files} {start : Option String}
    (h : (startPlace files start).Proper) : (startDirectory files start).Proper := by
  unfold startDirectory
  split
  · exact h.of_subset (List.dropLast_subset _)
  · exact h

theorem searchStart_eq {files : Files} {start : Option String}
    (h : ∀ path ∈ start, '\x00' ∉ path.toList) :
    searchStart files start = .ok (startPlace files start) := by
  cases start with
  | none => rfl
  | some path =>
    have hnull : path.contains '\x00' = false := by
      rw [String.contains_char_eq]
      exact decide_eq_false (h path rfl)
    rw [searchStart, hnull]
    rfl

theorem startOf_eq {files : Files} {start : Option String} (hp : (startPlace files start).Proper)
    (ha : files.Allowed (startPlace files start)) :
    startOf files (startPlace files start) = .ok (startDirectory files start) := by
  rw [startOf, Files.look_of_allowed hp ha, startDirectory]
  cases files.tree.at? (startPlace files start) with
  | none => rfl
  | some t => cases t <;> rfl

theorem nearest_eq {files : Files} (hcwd : files.cwd.Proper) {start : Option String}
    (h : Lookable files start) :
    Settings.nearest files start = climb files (startDirectory files start) := by
  rw [Settings.nearest, searchStart_eq h.no_null]
  dsimp only [bind, Except.bind]
  rw [startOf_eq (proper_startPlace hcwd h.no_null) h.place]
  rfl

/-- The search for what the system does not look up ends in its error. -/
theorem nearest_of_not_lookable {files : Files} (hcwd : files.cwd.Proper) {start : Option String}
    (h : ¬ Lookable files start) : ∃ o path, (o = .nullCharacter ∨ o = .nameTooLong) ∧
      Settings.nearest files start = .error (.unreadable o path) := by
  by_cases hnull : ∀ path ∈ start, '\x00' ∉ path.toList
  · have hp := proper_startPlace hcwd hnull
    rw [Settings.nearest, searchStart_eq hnull]
    dsimp only [bind, Except.bind]
    by_cases hplace : files.Allowed (startPlace files start)
    · have hentry : ¬ files.Allowed (startDirectory files start ++ [fileName]) :=
        fun hentry => h ⟨hnull, hplace, hentry⟩
      have hproper := (proper_startDirectory hp).append (Place.proper_singleton isEntryName_fileName)
      refine ⟨.nameTooLong, Place.path (startDirectory files start ++ [fileName]), .inr rfl, ?_⟩
      rw [startOf_eq hp hplace]
      change climb files _ = _
      rw [climb_eq, Files.look_of_not_allowed hproper hentry]
    · refine ⟨.nameTooLong, Place.path (startPlace files start), .inr rfl, ?_⟩
      rw [startOf, Files.look_of_not_allowed hp hplace]
  · obtain ⟨path, rfl, hpath⟩ : ∃ path ∈ start, '\x00' ∈ path.toList := by simpa using hnull
    refine ⟨.nullCharacter, path, .inl rfl, ?_⟩
    have hcontains : path.contains '\x00' = true := by
      rw [String.contains_char_eq]
      exact decide_eq_true hpath
    rw [Settings.nearest, searchStart, hcontains]
    rfl

/-- A file is loaded by the path of its place as the search has met it. -/
theorem load_path {files : Files} {place : Place} (hp : place.Proper) (hne : place ≠ [])
    {t : FileTree} (h : files.look place = .ok (some t)) :
    load files place.path = ofEntry place.path t := by
  unfold load
  dsimp only
  rw [Place.normalPath_path hp hne, Files.content, Files.find_path hp hne h, ofEntry]
  rfl

/-- The search finds the entry of the nearest directory, and nothing exactly if no directory has it.
The settings are those of that entry, or its error, and the defaults exactly for no entry. A start
that the system does not look up gives an error of the system. -/
theorem find_nearest {files : Files} (hcwd : files.cwd.Proper) (start : Option String) :
    (Lookable files start →
      (∀ place, find files start = .ok place ↔
        ∃ directory, IsNearest files (startDirectory files start) directory ∧
          place = directory ++ [fileName]) ∧
      (∀ e, find files start = .error e ↔
        e = .notFound ∧ HasNone files (startDirectory files start)) ∧
      (∀ directory, IsNearest files (startDirectory files start) directory →
        discover files start = load files (Place.path (directory ++ [fileName]))) ∧
      (HasNone files (startDirectory files start) → discover files start = .ok default)) ∧
    (¬ Lookable files start → ∃ o path, (o = .nullCharacter ∨ o = .nameTooLong) ∧
      find files start = .error (.unreadable o path) ∧
        discover files start = .error (.unreadable o path)) := by
  constructor
  · intro h
    have hproper := proper_startDirectory (proper_startPlace hcwd h.no_null)
    have hclimbs := climbs hproper h.entry
    rw [← nearest_eq hcwd h] at hclimbs
    unfold find discover
    generalize Settings.nearest files start = x at hclimbs
    cases hclimbs with
    | @found D t hD hlook =>
      have hentry : Place.Proper (D ++ [fileName]) :=
        (hproper.of_subset hD.ancestor.subset).append (Place.proper_singleton isEntryName_fileName)
      refine ⟨fun place => ⟨?_, ?_⟩, fun e => ⟨nofun, fun he => absurd he.2 hD.not_hasNone⟩, ?_,
        fun hnone => absurd hnone hD.not_hasNone⟩
      · rintro ⟨⟩
        exact ⟨D, hD, rfl⟩
      · rintro ⟨D', hD', rfl⟩
        rw [hD.unique hD']
        rfl
      · intro D' hD'
        rw [← hD.unique hD', load_path hentry (by simp) hlook]
    | nothing hnone =>
      refine ⟨fun place => ⟨nofun, ?_⟩, fun e => ⟨?_, ?_⟩, fun D hD => absurd hnone hD.not_hasNone,
        fun _ => rfl⟩
      · rintro ⟨D, hD, -⟩
        exact absurd hnone hD.not_hasNone
      · rintro ⟨⟩
        exact ⟨rfl, hnone⟩
      · rintro ⟨rfl, -⟩
        rfl
  · intro h
    obtain ⟨o, path, ho, hnearest⟩ := nearest_of_not_lookable hcwd h
    refine ⟨o, path, ho, ?_, ?_⟩
    · rw [find, hnearest]
      rfl
    · rw [discover, hnearest]

/-- A file in the root directory, and a directory of its name below. -/
def shadowed : Files :=
  ⟨.directory [("gwn.toml", .file "".toUTF8), ("a", .directory [("gwn.toml", .directory [])])], []⟩

/-- The directory is found before the file, and its error stays. -/
theorem find_nearest_directory :
    shadowed.cwd.Proper ∧ Lookable shadowed (some "a/x") ∧
      find shadowed (some "a/x") = .ok ["a", "gwn.toml"] ∧
        discover shadowed (some "a/x") = .error (.unreadable .isADirectory "/a/gwn.toml") := by
  have hcwd : shadowed.cwd.Proper := fun _ hname => absurd hname List.not_mem_nil
  have hplace : startPlace shadowed (some "a/x") = ["a", "x"] := by cbv
  have hdirectory : startDirectory shadowed (some "a/x") = ["a", "x"] := by
    rw [startDirectory, hplace]
    rfl
  have hentry : HasEntry shadowed ["a"] := rfl
  have hnone : ¬ HasEntry shadowed (["a"] ++ ["x"]) := Bool.false_ne_true
  have hnearest : IsNearest shadowed ["a", "x"] ["a"] := (IsNearest.refl hentry).concat hnone
  have hlookable : Lookable shadowed (some "a/x") := by
    refine ⟨?_, ?_, ?_⟩
    · rintro _ ⟨⟩
      decide
    · rw [hplace]
      exact ⟨by decide, Files.short_of_names (by decide) _ _⟩
    · rw [hdirectory]
      exact ⟨by decide, Files.short_of_names (by decide) _ _⟩
  obtain ⟨hfind, -, hdiscover, -⟩ := (find_nearest hcwd (some "a/x")).1 hlookable
  rw [hdirectory] at hfind hdiscover
  refine ⟨hcwd, hlookable, (hfind _).mpr ⟨["a"], hnearest, rfl⟩, ?_⟩
  have hpath : Place.path (["a"] ++ [fileName]) = "/a/gwn.toml" := by cbv
  rw [hdiscover _ hnearest, hpath]
  cbv

/-- The system refuses to look for a long name in a directory. -/
theorem find_of_long {files : Files} {name : String} (hcwd : files.cwd.Proper)
    (hname : IsEntryName name) (hlong : Files.maxNameBytes < name.utf8ByteSize)
    (hdirectory : files.tree.IsDirectory files.cwd) :
    find files (some name) =
      .error (.unreadable .nameTooLong (Place.path (files.cwd ++ [name]))) := by
  have hnull : ∀ path ∈ some name, '\x00' ∉ path.toList := by
    rintro _ ⟨⟩
    exact hname.no_null
  have hplace : startPlace files (some name) = files.cwd ++ [name] := files.resolve_name hname
  have hproper := hcwd.append (Place.proper_singleton hname)
  have hrefused : ¬ files.Allowed (files.cwd ++ [name]) := fun h =>
    absurd (h.short files.cwd name List.prefix_rfl hdirectory) (Nat.not_le.mpr hlong)
  rw [find, Settings.nearest, searchStart_eq hnull, hplace]
  dsimp only [bind, Except.bind]
  rw [startOf, Files.look_of_not_allowed hproper hrefused]
  rfl

/-- A name of so many letters. -/
def letters (n : Nat) : String := String.ofList (List.replicate n 'a')

theorem utf8ByteSize_letters (n : Nat) : (letters n).utf8ByteSize = n := by
  rw [letters, String.utf8ByteSize_ofList]
  induction n with
  | zero => rfl
  | succ n ih =>
    rw [List.replicate_succ, String.utf8Len_cons, ih]
    rfl

theorem isEntryName_letters {n : Nat} (h : 2 < n) : IsEntryName (letters n) := by
  have hne : ∀ s : String, s.utf8ByteSize ≤ 2 → letters n ≠ s := by
    rintro _ hs rfl
    rw [utf8ByteSize_letters] at hs
    omega
  have hchars : ∀ c ∈ (letters n).toList, c = 'a' := by
    intro c hc
    rw [letters, String.toList_ofList] at hc
    exact List.eq_of_mem_replicate hc
  exact ⟨hne _ (by decide), hne _ (by decide), hne _ (by decide),
    fun h => absurd (hchars _ h) (by decide), fun h => absurd (hchars _ h) (by decide)⟩

/-- The search fails on a long name, though there is a file in the root directory. -/
theorem find_refuses_letters :
    IsNearest (alone "") (startDirectory (alone "") (some (letters 256))) [] ∧
      find (alone "") (some (letters 256)) =
        .error (.unreadable .nameTooLong (Place.path [letters 256])) := by
  have hname : IsEntryName (letters 256) := isEntryName_letters (by decide)
  have hlong : Files.maxNameBytes < (letters 256).utf8ByteSize := by
    rw [utf8ByteSize_letters]
    decide
  have hother : letters 256 ≠ "gwn.toml" := by
    intro h
    rw [h] at hlong
    exact absurd hlong (by decide)
  have hnothing : ∀ names : Place, (alone "").tree.at? (letters 256 :: names) = none := by
    intro names
    have hchild : (alone "").tree.child? (letters 256) = none := by
      simp [alone, FileTree.child?, hother]
    rw [FileTree.at?, hchild]
    rfl
  have hdirectory : startDirectory (alone "") (some (letters 256)) = [letters 256] := by
    have hplace : startPlace (alone "") (some (letters 256)) = [letters 256] :=
      (alone "").resolve_name hname
    rw [startDirectory, hplace, hnothing]
  constructor
  · have hnone : ¬ HasEntry (alone "") ([] ++ [letters 256]) := by
      rw [HasEntry, List.nil_append, List.singleton_append, hnothing]
      exact Bool.false_ne_true
    have hentry : HasEntry (alone "") [] := rfl
    rw [hdirectory]
    exact (IsNearest.refl hentry).concat hnone
  · exact find_of_long (fun _ h => absurd h List.not_mem_nil) hname hlong ⟨_, rfl⟩

end ArrowLang.Settings
