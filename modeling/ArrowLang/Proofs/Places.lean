import ArrowLang.Files
import Mathlib

/-!
# Places and their paths

The path of a place leads back to the place by its names. What stands there is found if the system
looks it up: no path is too long, and no directory on the way is asked for a name that is.
-/
namespace ArrowLang

/-- A name that an entry of a directory can have. -/
structure IsEntryName (name : String) : Prop where
  ne_empty : name ≠ ""
  ne_dot : name ≠ "."
  ne_dots : name ≠ ".."
  no_slash : '/' ∉ name.toList
  no_null : '\x00' ∉ name.toList

namespace Place

def Proper (place : Place) : Prop := ∀ name ∈ place, IsEntryName name

theorem Proper.of_subset {p q : Place} (h : q.Proper) (hpq : p ⊆ q) : p.Proper :=
  fun name hname => h name (hpq hname)

theorem Proper.append {p q : Place} (hp : p.Proper) (hq : q.Proper) : Proper (p ++ q) :=
  fun name hname => (List.mem_append.mp hname).elim (hp name) (hq name)

theorem proper_singleton {name : String} (h : IsEntryName name) : Proper [name] := by
  intro n hn
  rwa [List.mem_singleton.mp hn]

theorem step_name {name : String} (h : IsEntryName name) (place : Place) :
    place.step name = place ++ [name] := by
  simp [step, h.ne_empty, h.ne_dot, h.ne_dots]

theorem Proper.step {place : Place} (h : place.Proper) {part : String} (hslash : '/' ∉ part.toList)
    (hnull : '\x00' ∉ part.toList) : (place.step part).Proper := by
  unfold Place.step
  split_ifs with hempty hdots
  · exact h
  · exact h.of_subset place.dropLast_subset
  · obtain ⟨hne, hdot⟩ : part ≠ "" ∧ part ≠ "." := by simpa using hempty
    exact h.append (proper_singleton ⟨hne, hdot, hdots, hslash, hnull⟩)

end Place

theorem mem_of_mem_splitOn {a : Char} {cs p : List Char} (h : p ∈ cs.splitOn a) {c : Char}
    (hc : c ∈ p) : c ∈ cs ∧ c ≠ a := by
  induction cs generalizing p with
  | nil =>
    rw [List.splitOn_nil, List.mem_singleton] at h
    subst h
    cases hc
  | cons d cs ih =>
    rw [List.splitOn_cons_eq_if_modifyHead] at h
    obtain ⟨q, qs, hq⟩ := List.exists_cons_of_ne_nil (List.splitOn_ne_nil a cs)
    have hrest : ∀ {p}, p ∈ cs.splitOn a → c ∈ p → c ∈ d :: cs ∧ c ≠ a :=
      fun hp hc => (ih hp hc).imp_left (List.mem_cons_of_mem d)
    split_ifs at h with hd
    · rcases List.mem_cons.mp h with rfl | h
      · cases hc
      · exact hrest h hc
    · rw [hq, List.modifyHead_cons] at h
      rcases List.mem_cons.mp h with rfl | h
      · rcases List.mem_cons.mp hc with rfl | hc
        · exact ⟨List.mem_cons_self, by simpa using hd⟩
        · exact hrest (hq ▸ List.mem_cons_self) hc
      · exact hrest (hq ▸ List.mem_cons_of_mem q h) hc

theorem mem_intercalate {a c : Char} {ls : List (List Char)} (h : c ∈ [a].intercalate ls) :
    c = a ∨ ∃ l ∈ ls, c ∈ l := by
  induction ls with
  | nil => cases h
  | cons l ls ih =>
    cases ls with
    | nil =>
      rw [List.intercalate_singleton] at h
      exact .inr ⟨l, List.mem_cons_self, h⟩
    | cons l' ls =>
      rw [List.intercalate_cons_cons, List.append_assoc, List.mem_append, List.mem_append] at h
      rcases h with h | h | h
      · exact .inr ⟨l, List.mem_cons_self, h⟩
      · exact .inl (List.mem_singleton.mp h)
      · exact (ih h).imp_right fun ⟨m, hm, hc⟩ => ⟨m, List.mem_cons_of_mem l hm, hc⟩

/-- No part of a path holds a slash, and its characters are those of the path. -/
theorem mem_of_mem_pathParts {path part : String} (h : part ∈ pathParts path) {c : Char}
    (hc : c ∈ part.toList) : c ∈ path.toList ∧ c ≠ '/' := by
  obtain ⟨p, hp, rfl⟩ := List.mem_map.mp h
  rw [String.toList_ofList] at hc
  exact mem_of_mem_splitOn hp hc

/-- Any path without a null character leads to a place of names. -/
theorem Files.proper_resolve {files : Files} (h : files.cwd.Proper) {path : String}
    (hnull : '\x00' ∉ path.toList) : (files.resolve path).Proper := by
  have hstart : (files.start path).Proper := by
    unfold Files.start
    split_ifs
    · exact fun _ hname => absurd hname List.not_mem_nil
    · exact h
  have hparts : ∀ part ∈ pathParts path, '/' ∉ part.toList ∧ '\x00' ∉ part.toList := fun part hpart =>
    ⟨fun hc => (mem_of_mem_pathParts hpart hc).2 rfl,
      fun hc => hnull (mem_of_mem_pathParts hpart hc).1⟩
  unfold Files.resolve
  generalize files.start path = place at hstart
  generalize pathParts path = parts at hparts
  induction parts generalizing place with
  | nil => exact hstart
  | cons part parts ih =>
    obtain ⟨⟨hslash, hnull⟩, hparts⟩ := List.forall_mem_cons.mp hparts
    exact ih _ (hstart.step hslash hnull) hparts

/-- A name leads to its entry of the working directory. -/
theorem Files.resolve_name (files : Files) {name : String} (h : IsEntryName name) :
    files.resolve name = files.cwd ++ [name] := by
  have hrelative : ¬ isAbsolute name := by
    rw [isAbsolute, String.startsWith_string_iff]
    exact fun hslash => h.no_slash (hslash.subset List.mem_cons_self)
  have hparts : pathParts name = [name] := by
    rw [pathParts, List.splitOn_eq_singleton h.no_slash, List.map_singleton, String.ofList_toList]
  rw [resolve, start, if_neg hrelative, hparts]
  exact Place.step_name h files.cwd

namespace Place

theorem toList_path (place : Place) :
    place.path.toList = '/' :: ['/'].intercalate (place.map String.toList) := by
  rw [path, String.toList_append, String.toList_intercalate]
  rfl

/-- The parts of a path are the names of its place, behind the slash of the root directory. -/
theorem pathParts_path {place : Place} (h : place.Proper) (hne : place ≠ []) :
    pathParts place.path = "" :: place := by
  obtain ⟨name, names, rfl⟩ := List.exists_cons_of_ne_nil hne
  have hslash : ∀ l ∈ [] :: (name :: names).map String.toList, '/' ∉ l := by
    intro l hl
    rcases List.mem_cons.mp hl with rfl | hl
    · exact List.not_mem_nil
    · obtain ⟨n, hn, rfl⟩ := List.mem_map.mp hl
      exact (h n hn).no_slash
  have hjoin : '/' :: ['/'].intercalate ((name :: names).map String.toList) =
      ['/'].intercalate ([] :: (name :: names).map String.toList) := rfl
  rw [pathParts, toList_path, hjoin, List.splitOn_intercalate _ hslash (List.cons_ne_nil _ _)]
  simp

theorem isAbsolute_path (place : Place) : isAbsolute place.path := by
  rw [isAbsolute, String.startsWith_string_iff, toList_path]
  exact ⟨_, rfl⟩

theorem rootMark_path {place : Place} (h : place.Proper) (hne : place ≠ []) :
    rootMark place.path = "/" := by
  obtain ⟨name, names, rfl⟩ := List.exists_cons_of_ne_nil hne
  have hname := h name List.mem_cons_self
  obtain ⟨c, cs, hc⟩ : ∃ c cs, name.toList = c :: cs :=
    List.exists_cons_of_ne_nil (String.toList_eq_nil_iff.not.mpr hname.ne_empty)
  have hslash : c ≠ '/' := by
    rintro rfl
    exact hname.no_slash (hc ▸ List.mem_cons_self)
  have hhead : ∃ rest, ['/'].intercalate ((name :: names).map String.toList) = c :: rest := by
    rw [List.map_cons, hc]
    cases names with
    | nil => exact ⟨_, List.intercalate_singleton⟩
    | cons n names => exact ⟨_, List.intercalate_cons_cons⟩
  obtain ⟨rest, hrest⟩ := hhead
  rw [rootMark, toList_path, hrest, List.takeWhile_cons_of_pos rfl,
    List.takeWhile_cons_of_neg (by simpa using hslash)]
  rfl

/-- Such a path is normal. -/
theorem normalPath_path {place : Place} (h : place.Proper) (hne : place ≠ []) :
    normalPath place.path = place.path := by
  have hparts : (pathParts place.path).filter (fun part => part ≠ "" && part ≠ ".") = place := by
    rw [pathParts_path h hne, List.filter_cons_of_neg (by simp), List.filter_eq_self]
    intro name hname
    simp [(h name hname).ne_empty, (h name hname).ne_dot]
  unfold normalPath
  rw [hparts]
  dsimp only
  rw [if_pos (isAbsolute_path place), rootMark_path h hne]
  rfl

theorem no_null_path {place : Place} (h : place.Proper) : '\x00' ∉ place.path.toList := by
  rw [toList_path]
  intro hnull
  rcases List.mem_cons.mp hnull with hnull | hnull
  · cases hnull
  · rcases mem_intercalate hnull with hnull | ⟨l, hl, hnull⟩
    · cases hnull
    · obtain ⟨name, hname, rfl⟩ := List.mem_map.mp hl
      exact (h name hname).no_null hnull

theorem path_cons (name : String) {names : Place} (hne : names ≠ []) :
    Place.path (name :: names) = "/" ++ name ++ names.path := by
  rw [path, path, String.intercalate_cons_of_ne_nil hne]
  simp only [String.append_assoc]

/-- Each name takes a slash. -/
theorem utf8ByteSize_path {place : Place} (hne : place ≠ []) :
    place.path.utf8ByteSize = (place.map fun name => name.utf8ByteSize + 1).sum := by
  induction place with
  | nil => exact absurd rfl hne
  | cons name names ih =>
    have hslash : "/".utf8ByteSize = 1 := rfl
    by_cases hnames : names = []
    · subst hnames
      simp [path, hslash, Nat.add_comm]
    · rw [path_cons name hnames, String.utf8ByteSize_append, String.utf8ByteSize_append, ih hnames,
        List.map_cons, List.sum_cons, hslash, Nat.add_comm 1]

end Place

theorem FileTree.at_append (t : FileTree) (p q : Place) :
    t.at? (p ++ q) = (t.at? p).bind (FileTree.at? q) := by
  induction p generalizing t with
  | nil => rfl
  | cons name p ih =>
    rw [List.cons_append, at?, at?, Option.bind_assoc]
    exact Option.bind_congr fun child _ => ih child

def FileTree.IsDirectory (t : FileTree) (place : Place) : Prop :=
  ∃ entries, t.at? place = some (.directory entries)

/-- Nothing stands below what is no directory. -/
theorem FileTree.at_cons_of_not_directory {t : FileTree} {place : Place} (h : ¬ t.IsDirectory place)
    (name : String) (names : Place) : t.at? (place ++ name :: names) = none := by
  rw [at_append]
  cases ht : t.at? place with
  | none => rfl
  | some u =>
    cases u with
    | file content => rfl
    | directory entries => exact absurd ⟨entries, ht⟩ h

namespace Files

/-- No directory on the way from a place along further names is asked for a name that is too long. -/
def Short (t : FileTree) (place names : Place) : Prop :=
  ∀ pre name, pre ++ [name] <+: names → t.IsDirectory (place ++ pre) →
    name.utf8ByteSize ≤ maxNameBytes

theorem short_nil (t : FileTree) (place : Place) : Short t place [] := by
  intro pre name hpre
  simp at hpre

theorem short_cons {t : FileTree} {place : Place} {name : String} {names : Place} :
    Short t place (name :: names) ↔
      (t.IsDirectory place → name.utf8ByteSize ≤ maxNameBytes) ∧ Short t (place ++ [name]) names := by
  constructor
  · intro h
    constructor
    · intro hdirectory
      exact h [] name (by simp) (by rwa [List.append_nil])
    · intro pre n hpre hdirectory
      refine h (name :: pre) n (List.cons_prefix_cons.mpr ⟨rfl, hpre⟩) ?_
      rwa [List.append_assoc] at hdirectory
  · rintro ⟨hname, h⟩ pre n hpre hdirectory
    cases pre with
    | nil =>
      obtain ⟨rfl, -⟩ := List.cons_prefix_cons.mp hpre
      rw [List.append_nil] at hdirectory
      exact hname hdirectory
    | cons m pre =>
      obtain ⟨rfl, hrest⟩ := List.cons_prefix_cons.mp hpre
      exact h pre n hrest (by rwa [List.append_assoc])

theorem short_of_not_directory {t : FileTree} {place : Place} (h : ¬ t.IsDirectory place)
    (names : Place) : Short t place names := by
  rintro pre name - ⟨entries, hentries⟩
  cases pre with
  | nil => exact absurd ⟨entries, by rwa [List.append_nil] at hentries⟩ h
  | cons m pre =>
    rw [FileTree.at_cons_of_not_directory h] at hentries
    cases hentries

theorem short_of_names {names : Place} (h : ∀ name ∈ names, name.utf8ByteSize ≤ maxNameBytes)
    (t : FileTree) (place : Place) : Short t place names :=
  fun _ name hpre _ => h name (hpre.subset (List.mem_append_right _ List.mem_cons_self))

/-- What following names gives: what stands at their place, or an obstacle if nothing does, or another
one if a name is too long. -/
inductive Follows (t : FileTree) (place names : Place) : Except Obstacle FileTree → Prop where
  | found {u : FileTree} : Short t place names → t.at? (place ++ names) = some u →
      Follows t place names (.ok u)
  | nothing {o : Obstacle} : Short t place names → t.at? (place ++ names) = none →
      o = .missing ∨ o = .notADirectory → Follows t place names (.error o)
  | refused : ¬ Short t place names → Follows t place names (.error .nameTooLong)

theorem Follows.cons {t : FileTree} {place names : Place} {name : String}
    (hname : name.utf8ByteSize ≤ maxNameBytes)
    {x : Except Obstacle FileTree} (h : Follows t (place ++ [name]) names x) :
    Follows t place (name :: names) x := by
  have happend : place ++ [name] ++ names = place ++ name :: names := by simp
  cases h with
  | found hs hu => exact .found (short_cons.mpr ⟨fun _ => hname, hs⟩) (happend ▸ hu)
  | nothing hs hu ho => exact .nothing (short_cons.mpr ⟨fun _ => hname, hs⟩) (happend ▸ hu) ho
  | refused hs => exact .refused fun h => hs (short_cons.mp h).2

theorem follows (t : FileTree) (place : Place) {names : Place} (h : names.Proper) :
    Follows t place names (follow t place names) := by
  induction names generalizing place with
  | nil =>
    unfold follow
    cases ht : t.at? place with
    | none => exact .nothing (short_nil t place) (by rwa [List.append_nil]) (.inl rfl)
    | some u => exact .found (short_nil t place) (by rwa [List.append_nil])
  | cons name names ih =>
    have hstep := Place.step_name (h name List.mem_cons_self) place
    have hrest := ih (place ++ [name]) fun n hn => h n (List.mem_cons_of_mem name hn)
    have hnot : ¬ t.IsDirectory place → ∀ {o : Obstacle}, o = .missing ∨ o = .notADirectory →
        Follows t place (name :: names) (.error o) := fun hdirectory _ ho =>
      .nothing (short_of_not_directory hdirectory _)
        (FileTree.at_cons_of_not_directory hdirectory name names) ho
    unfold follow
    rw [hstep]
    cases ht : t.at? place with
    | none => exact hnot (fun ⟨entries, he⟩ => by cases ht.symm.trans he) (.inl rfl)
    | some u =>
      cases u with
      | file content => exact hnot (fun ⟨entries, he⟩ => by cases ht.symm.trans he) (.inr rfl)
      | directory entries =>
        dsimp only
        split_ifs with hlong
        · exact .refused fun hs => absurd ((short_cons.mp hs).1 ⟨entries, ht⟩) (by omega)
        · exact hrest.cons (Nat.not_lt.mp hlong)

/-- The system looks a place up. -/
structure Allowed (files : Files) (place : Place) : Prop where
  path : place.path.utf8ByteSize ≤ maxPathBytes
  short : Short files.tree [] place

theorem look_of_allowed {files : Files} {place : Place} (hp : place.Proper)
    (ha : files.Allowed place) : files.look place = .ok (files.tree.at? place) := by
  have hfollows := follows files.tree [] hp
  unfold look
  rw [if_neg (Nat.not_lt.mpr ha.path)]
  generalize follow files.tree [] place = x at hfollows
  cases hfollows with
  | found _ hu =>
    rw [List.nil_append] at hu
    rw [hu]
  | nothing _ hu ho =>
    rw [List.nil_append] at hu
    rcases ho with rfl | rfl <;> rw [hu]
  | refused hs => exact absurd ha.short hs

theorem look_of_not_allowed {files : Files} {place : Place} (hp : place.Proper)
    (ha : ¬ files.Allowed place) : files.look place = .error .nameTooLong := by
  unfold look
  split_ifs with hpath
  · rfl
  · have hfollows := follows files.tree [] hp
    have hs : ¬ Short files.tree [] place := fun hs => ha ⟨Nat.not_lt.mp hpath, hs⟩
    generalize follow files.tree [] place = x at hfollows
    cases hfollows with
    | found h _ => exact absurd h hs
    | nothing h _ _ => exact absurd h hs
    | refused _ => rfl

/-- The slash of the root directory leads nowhere. -/
theorem follow_root (t : FileTree) {place : Place} (hne : place ≠ []) :
    follow t [] ("" :: place) = follow t [] place := by
  obtain ⟨name, names, rfl⟩ := List.exists_cons_of_ne_nil hne
  cases t with
  | file content => rfl
  | directory entries => rfl

/-- The path of a place leads to what stands there. -/
theorem find_path {files : Files} {place : Place} (hp : place.Proper) (hne : place ≠ [])
    {t : FileTree} (h : files.look place = .ok (some t)) : files.find place.path = .ok t := by
  have hnull : place.path.contains '\x00' = false := by
    rw [String.contains_char_eq]
    exact decide_eq_false (Place.no_null_path hp)
  have hempty : place.path ≠ "" := by
    intro h
    have := place.toList_path
    rw [h] at this
    cases this
  unfold look at h
  unfold find
  split_ifs at h with hpath
  rw [hnull, if_neg Bool.false_ne_true, if_neg hempty, if_neg hpath, start,
    if_pos (Place.isAbsolute_path place), Place.pathParts_path hp hne, follow_root _ hne]
  split at h
  · next u hu =>
    obtain rfl := Option.some.inj (Except.ok.inj h)
    exact hu
  · cases h
  · cases h
  · cases h

end Files
end ArrowLang
