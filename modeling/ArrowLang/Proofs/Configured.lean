import ArrowLang.Settings
import Mathlib

/-!
# Settings from the bytes of a file

Each setting is what the file has at its key, or its default, whatever else the file has. What is wrong
with a file is reported, but for a section that is no table, and a prompt and a colour of any type go
through.
-/
namespace ArrowLang

open Toml (Table Value lookup?)

theorem Format.ofValue_eq_some {v : Value} {f : Format} :
    Format.ofValue? v = some f ↔ v = .text f.name := by
  constructor
  · intro h
    cases v with
    | text s =>
      have hfind : Format.all.find? (fun g => g.name = s) = some f := h
      have hname : f.name = s := by simpa using List.find?_some hfind
      rw [hname]
    | _ => cases h
  · rintro rfl
    cases f <;> rfl

namespace Settings

/-- The sections that a file may have. -/
def sectionNames : List String := ["repl", "diagnostics", "output"]

def IsSection (t : Table) (name : String) : Prop :=
  ∀ v, lookup? name t = some v → ∃ fields, v = .table fields

/-- Every section that a table has is a table. -/
def Sectioned (t : Table) : Prop := ∀ name ∈ sectionNames, IsSection t name

/-- What a table has at a key of a section. -/
def given? (t : Table) (name key : String) : Option Value :=
  match lookup? name t with
  | some (.table fields) => lookup? key fields
  | _ => none

theorem inSection_cases (t : Table) (name key : String) (d : Value) :
    IsSection t name ∧ inSection t name key d = .ok ((given? t name key).getD d) ∨
      ¬ IsSection t name ∧ ∃ v, inSection t name key d = .error (.notATable v) := by
  unfold IsSection inSection given?
  cases lookup? name t with
  | none => exact .inl ⟨nofun, rfl⟩
  | some v =>
    cases v with
    | table fields => exact .inl ⟨fun v hv => ⟨fields, (Option.some.inj hv).symm⟩, rfl⟩
    | _ => exact .inr ⟨fun h => by simpa using h _ rfl, _, rfl⟩

/-- The settings that a table gives. -/
structure Reads (t : Table) (s : Settings) : Prop where
  sectioned : Sectioned t
  prompt : s.prompt = (given? t "repl" "prompt").getD default.prompt
  color : s.color = (given? t "diagnostics" "color").getD default.color
  format : (given? t "output" "format").getD (.text default.format.name) = .text s.format.name

theorem sectioned_iff {t : Table} : Sectioned t ↔
    IsSection t "repl" ∧ IsSection t "diagnostics" ∧ IsSection t "output" := by
  simp [Sectioned, sectionNames]

/-- The settings of a table are checked in their order, the format last. -/
theorem ofTable_of_sectioned {t : Table} (h : Sectioned t) (path : String) : ofTable path t =
    match Format.ofValue? ((given? t "output" "format").getD (.text default.format.name)) with
    | some format => .ok ⟨(given? t "repl" "prompt").getD default.prompt,
        (given? t "diagnostics" "color").getD default.color, format⟩
    | none => .error
        (.badFormat path ((given? t "output" "format").getD (.text default.format.name))) := by
  obtain ⟨hrepl, hdiagnostics, houtput⟩ := sectioned_iff.mp h
  have hok : ∀ {name : String} (key : String) (d : Value), IsSection t name →
      inSection t name key d = .ok ((given? t name key).getD d) := by
    intro name key d hsection
    rcases inSection_cases t name key d with ⟨-, h⟩ | ⟨hnot, -⟩
    · exact h
    · exact absurd hsection hnot
  rw [ofTable, hok _ _ hrepl, hok _ _ hdiagnostics, hok _ _ houtput]
  rfl

theorem ofTable_of_not_sectioned {t : Table} (h : ¬ Sectioned t) (path : String) :
    ∃ v, ofTable path t = .error (.notATable v) := by
  unfold ofTable
  rcases inSection_cases t "repl" "prompt" default.prompt with ⟨hrepl, ho⟩ | ⟨-, v, he⟩
  · rcases inSection_cases t "diagnostics" "color" default.color with ⟨hdiagnostics, ho'⟩ | ⟨-, v, he⟩
    · rcases inSection_cases t "output" "format" (.text default.format.name) with
        ⟨houtput, -⟩ | ⟨-, v, he⟩
      · exact absurd (sectioned_iff.mpr ⟨hrepl, hdiagnostics, houtput⟩) h
      · exact ⟨v, by rw [ho, ho', he]; rfl⟩
    · exact ⟨v, by rw [ho, he]; rfl⟩
  · exact ⟨v, by rw [he]; rfl⟩

theorem ofTable_eq_ok {path : String} {t : Table} {s : Settings} :
    ofTable path t = .ok s ↔ Reads t s := by
  constructor
  · intro h
    by_cases hsectioned : Sectioned t
    · rw [ofTable_of_sectioned hsectioned] at h
      split at h
      · next format hformat =>
        cases h
        exact ⟨hsectioned, rfl, rfl, Format.ofValue_eq_some.mp hformat⟩
      · cases h
    · obtain ⟨v, hv⟩ := ofTable_of_not_sectioned hsectioned path
      cases hv.symm.trans h
  · intro h
    rw [ofTable_of_sectioned h.sectioned, Format.ofValue_eq_some.mpr h.format, ← h.prompt, ← h.color]

theorem ofTable_eq_error {path : String} {t : Table} {e : SettingsError}
    (h : ofTable path t = .error e) :
    e.isReported ∧ Sectioned t ∨ (∃ v, e = .notATable v) ∧ ¬ Sectioned t := by
  by_cases hsectioned : Sectioned t
  · rw [ofTable_of_sectioned hsectioned] at h
    split at h
    · cases h
    · cases h
      exact .inl ⟨rfl, hsectioned⟩
  · obtain ⟨v, hv⟩ := ofTable_of_not_sectioned hsectioned path
    obtain rfl := Except.error.inj (hv.symm.trans h)
    exact .inr ⟨⟨v, rfl⟩, hsectioned⟩

/-- The bytes are those of a text that gives the table. -/
def Gives (content : ByteArray) (t : Table) : Prop :=
  ∃ text, String.fromUTF8? content = some text ∧ Toml.read text = .ok t

theorem ofContent_cases (path : String) (content : ByteArray) :
    (∃ t, Gives content t ∧ ofContent path content = ofTable path t) ∨
      (∀ t, ¬ Gives content t) ∧ ∃ e, ofContent path content = .error e ∧ e.isReported := by
  unfold ofContent
  cases htext : String.fromUTF8? content with
  | none =>
    refine .inr ⟨?_, _, rfl, rfl⟩
    rintro t ⟨text, h, -⟩
    rw [htext] at h
    cases h
  | some text =>
    cases hread : Toml.read text with
    | error fault =>
      refine .inr ⟨?_, _, by dsimp only; rw [hread], rfl⟩
      rintro t ⟨text', h, h'⟩
      obtain rfl := Option.some.inj (htext.symm.trans h)
      rw [hread] at h'
      cases h'
    | ok t =>
      exact .inl ⟨t, ⟨text, htext, hread⟩, by dsimp only; rw [hread]⟩

theorem Gives.unique {content : ByteArray} {t u : Table} (ht : Gives content t)
    (hu : Gives content u) : t = u := by
  obtain ⟨text, h, hread⟩ := ht
  obtain ⟨text', h', hread'⟩ := hu
  obtain rfl := Option.some.inj (h.symm.trans h')
  exact Except.ok.inj (hread.symm.trans hread')

/-- The prompt is a text, and the colour is on or off. -/
def Typed (s : Settings) : Prop := (∃ p, s.prompt = .text p) ∧ ∃ b, s.color = .bool b

/-- A prompt that a table gives is a text, and a colour that it gives is on or off. -/
structure WellTyped (t : Table) : Prop where
  prompt : ∀ v, given? t "repl" "prompt" = some v → ∃ p, v = .text p
  color : ∀ v, given? t "diagnostics" "color" = some v → ∃ b, v = .bool b

theorem Reads.typed_iff {t : Table} {s : Settings} (h : Reads t s) : s.Typed ↔ WellTyped t := by
  have hgetD : ∀ {o : Option Value} {d : Value} {p : Value → Prop}, p d →
      (p (o.getD d) ↔ ∀ v, o = some v → p v) := by
    intro o d p hd
    cases o <;> simp [hd]
  have hprompt := hgetD (o := given? t "repl" "prompt") (d := default.prompt)
    (p := fun v => ∃ p, v = .text p) ⟨_, rfl⟩
  have hcolor := hgetD (o := given? t "diagnostics" "color") (d := default.color)
    (p := fun v => ∃ b, v = .bool b) ⟨_, rfl⟩
  rw [Typed, h.prompt, h.color, hprompt, hcolor]
  exact ⟨fun h => ⟨h.1, h.2⟩, fun h => ⟨h.1, h.2⟩⟩

/-- When there are settings of the right types or an error that is reported. -/
theorem ofTable_typed_or_reported {path : String} {t : Table} :
    (∃ s, ofTable path t = .ok s ∧ s.Typed) ∨ (∃ e, ofTable path t = .error e ∧ e.isReported) ↔
      Sectioned t ∧ ((∃ s, Reads t s) → WellTyped t) := by
  cases ho : ofTable path t with
  | ok s =>
    have hreads := ofTable_eq_ok.mp ho
    constructor
    · rintro (⟨_, hs, htyped⟩ | ⟨_, he, -⟩)
      · obtain rfl := Except.ok.inj hs
        exact ⟨hreads.sectioned, fun _ => hreads.typed_iff.mp htyped⟩
      · cases he
    · rintro ⟨-, htyped⟩
      exact .inl ⟨s, rfl, hreads.typed_iff.mpr (htyped ⟨s, hreads⟩)⟩
  | error e =>
    rcases ofTable_eq_error ho with ⟨hreported, hsectioned⟩ | ⟨⟨v, rfl⟩, hnot⟩
    · refine iff_of_true (.inr ⟨e, rfl, hreported⟩) ⟨hsectioned, ?_⟩
      rintro ⟨s, hs⟩
      cases ho.symm.trans (ofTable_eq_ok.mpr hs)
    · refine iff_of_false ?_ fun h => hnot h.1
      rintro (⟨_, hs, -⟩ | ⟨_, he, hreported⟩)
      · cases hs
      · cases he
        cases hreported

/-- Loading a file that can be read. It gives settings if its bytes are a document whose sections are
tables and whose format is one of the two; each setting is then the value of the file or its default.
All errors are reported but that about a section that is no table. So either there are settings of the
right types or there is an error that is reported, unless a section is no table, or the format is good
and the prompt or the colour is of another type. -/
theorem load_outcome {files : Files} {path : String} {content : ByteArray}
    (h : files.content (normalPath path) = .ok content) :
    (∀ s, load files path = .ok s ↔ ∃ t, Gives content t ∧ Reads t s) ∧
      (∀ e, load files path = .error e → e.isReported ∨ ∃ v, e = .notATable v) ∧
        ((∃ v, load files path = .error (.notATable v)) ↔ ∃ t, Gives content t ∧ ¬ Sectioned t) ∧
          ((∃ s, load files path = .ok s ∧ s.Typed) ∨
              (∃ e, load files path = .error e ∧ e.isReported) ↔
            ∀ t, Gives content t → Sectioned t ∧ ((∃ s, Reads t s) → WellTyped t)) := by
  have hload : load files path = ofContent (normalPath path) content := by
    unfold load
    dsimp only
    rw [h]
  rw [hload]
  generalize normalPath path = path
  rcases ofContent_cases path content with ⟨t, ht, heq⟩ | ⟨hnone, e, heq, he⟩
  · have hexists : ∀ {p : Table → Prop}, (∃ u, Gives content u ∧ p u) ↔ p t :=
      ⟨fun ⟨_, hu, hp⟩ => ht.unique hu ▸ hp, fun hp => ⟨t, ht, hp⟩⟩
    have hforall : ∀ {p : Table → Prop}, (∀ u, Gives content u → p u) ↔ p t :=
      ⟨fun hp => hp t ht, fun hp _ hu => ht.unique hu ▸ hp⟩
    rw [heq, hexists, hforall]
    refine ⟨fun s => ofTable_eq_ok.trans (hexists (p := fun t => Reads t s)).symm, fun e he => ?_,
      ⟨?_, fun hnot => ?_⟩,
      ofTable_typed_or_reported⟩
    · exact (ofTable_eq_error he).imp And.left And.left
    · rintro ⟨v, hv⟩
      rcases ofTable_eq_error hv with ⟨hreported, -⟩ | ⟨-, hnot⟩
      · cases hreported
      · exact hnot
    · exact ofTable_of_not_sectioned hnot path
  · rw [heq]
    refine ⟨fun s => ⟨nofun, ?_⟩, fun e' he' => ?_, ⟨?_, ?_⟩,
      iff_of_true (.inr ⟨e, rfl, he⟩) fun t ht => absurd ht (hnone t)⟩
    · rintro ⟨t, ht, -⟩
      exact absurd ht (hnone t)
    · obtain rfl := Except.error.inj he'
      exact .inl he
    · rintro ⟨v, hv⟩
      obtain rfl := Except.error.inj hv
      cases he
    · rintro ⟨t, ht, -⟩
      exact absurd ht (hnone t)

theorem fromUTF8_toUTF8 (s : String) : String.fromUTF8? s.toUTF8 = some s := by
  have hvalid : s.toUTF8.IsValidUTF8 := s.isValidUTF8
  rw [String.fromUTF8?, dif_pos hvalid]
  rfl

/-- The root directory with one file in it. -/
def alone (text : String) : Files := ⟨.directory [("gwn.toml", .file text.toUTF8)], []⟩

theorem content_alone (text : String) :
    (alone text).content (normalPath "gwn.toml") = .ok text.toUTF8 := by
  have hpath : normalPath "gwn.toml" = "gwn.toml" := by cbv
  have hfind : (alone text).find "gwn.toml" = .ok (.file text.toUTF8) := by
    unfold alone
    cbv
  rw [hpath, Files.content, hfind]
  rfl

theorem load_alone {text : String} {t : Table} (h : Toml.read text = .ok t) :
    load (alone text) "gwn.toml" = ofTable (normalPath "gwn.toml") t := by
  unfold load
  dsimp only
  rw [content_alone]
  dsimp only
  rw [ofContent, fromUTF8_toUTF8]
  dsimp only
  rw [h]

/-- A prompt and a format, and the default of the colour. -/
theorem load_outcome_tree :
    (alone "[repl]\nprompt = \"? \"\n[output]\nformat = \"tree\"\n").content (normalPath "gwn.toml") =
        .ok "[repl]\nprompt = \"? \"\n[output]\nformat = \"tree\"\n".toUTF8 ∧
      load (alone "[repl]\nprompt = \"? \"\n[output]\nformat = \"tree\"\n") "gwn.toml" =
        .ok ⟨.text "? ", .bool true, .tree⟩ := by
  have hread : Toml.read "[repl]\nprompt = \"? \"\n[output]\nformat = \"tree\"\n" =
      .ok [("repl", .table [("prompt", .text "? ")]), ("output", .table [("format", .text "tree")])] := by
    cbv
  refine ⟨content_alone _, ((load_outcome (content_alone _)).1 _).mpr
    ⟨_, ⟨_, fromUTF8_toUTF8 _, hread⟩, ?_, rfl, rfl, rfl⟩⟩
  rw [sectioned_iff]
  refine ⟨?_, ?_, ?_⟩ <;> intro v hv <;> cases hv
  · exact ⟨_, rfl⟩
  · exact ⟨_, rfl⟩

/-- A section that is no table is an error that is not reported, and a number is taken for a prompt. -/
theorem load_outcome_number :
    (∃ v, load (alone "repl = 1\n") "gwn.toml" = .error (.notATable v) ∧
      (SettingsError.notATable v).isReported = false) ∧
    ∃ s, load (alone "[repl]\nprompt = 5\n") "gwn.toml" = .ok s ∧ s.prompt = .int 5 ∧ ¬ s.Typed := by
  have hsection : Toml.read "repl = 1\n" = .ok [("repl", .int 1)] := by cbv
  have hprompt : Toml.read "[repl]\nprompt = 5\n" = .ok [("repl", .table [("prompt", .int 5)])] := by
    cbv
  refine ⟨⟨.int 1, by rw [load_alone hsection]; rfl, rfl⟩,
    ⟨.int 5, .bool true, .canonical⟩, by rw [load_alone hprompt]; rfl, rfl, ?_⟩
  rintro ⟨⟨p, hp⟩, -⟩
  cases hp

end Settings
end ArrowLang
