import DesignTokens.Layout.Writer
import DesignTokens.Layout.Reader
import DesignTokens.Proofs.Records

/-!
# Layouts from texts

A text overrides exactly what it names. Its members may come in any order, with any blanks and escapes and with members
of no interest between them; what it does not name is as in the usual layout. A field that is named twice is an error.
-/

namespace DesignTokens

open Json (Values WritesText WritesTexts WritesRecord Overlays Blanks Reads Skips Field blanks_nil spells_flatMap
  writesText_quote writesTexts_compact writesRecord_pick)

theorem Path.skips_item (size : Nat) : Skips (Path.item size) := (Json.skips_textItem size).map Path.mk

theorem Path.reads_item {p : Path} {t : List Char} (h : WritesText p.text t) (size : Nat) :
    Reads (Path.item size) t p :=
  (Json.reads_textItem h size).map Path.mk

section

variable {ρ : Type} {overlay : List String → ρ} {size : Nat} {key : String}

theorem takes_path {set : ρ → Path → ρ} {p : Path} (hset : ∀ seen, set (overlay seen) p = overlay (key :: seen)) :
    (Field.of key Path.item set).Takes (WritesText p.text) overlay size :=
  Field.takes_of (Path.skips_item size) (fun _ h _ => Path.reads_item h size) hset

theorem takes_paths {set : ρ → List Path → ρ} {ps : List Path}
    (hset : ∀ seen, set (overlay seen) ps = overlay (key :: seen)) :
    (Field.of key (Json.listItem Path.item) set).Takes (WritesTexts (ps.map Path.text)) overlay size := by
  refine Field.takes_of (Json.skips_listItem Path.item size) (fun t h hsize => ?_) hset
  have hlist := Json.reads_listItem h hsize (Path.skips_item size) fun _ _ hv =>
    (Json.reads_textItem hv size).map Path.mk
  rwa [List.map_map, show Path.mk ∘ Path.text = id from rfl, List.map_id] at hlist

theorem writesTexts_paths (ps : List Path) :
    WritesTexts (ps.map Path.text) (Json.array (ps.map Path.toJson)).compact := by
  have htexts := writesTexts_compact (ps.map Path.text)
  rwa [List.map_map] at htexts

end

/-! ## The records of a layout -/

namespace Collaborators

/-- The values of the fields in a text. -/
def values (c : Collaborators) : Values := [
  ("executor", WritesText c.executor.text),
  ("richtext", WritesText c.richtext.text),
  ("figure", WritesText c.figure.text),
  ("siteConfig", WritesText c.siteConfig.text),
  ("contract", WritesText c.contract.text)]

/-- The fields with these names, and the usual ones otherwise. -/
def overlay (c : Collaborators) (names : List String) : Collaborators where
  executor := if "executor" ∈ names then c.executor else ({} : Collaborators).executor
  richtext := if "richtext" ∈ names then c.richtext else ({} : Collaborators).richtext
  figure := if "figure" ∈ names then c.figure else ({} : Collaborators).figure
  siteConfig := if "siteConfig" ∈ names then c.siteConfig else ({} : Collaborators).siteConfig
  contract := if "contract" ∈ names then c.contract else ({} : Collaborators).contract

theorem overlays (c : Collaborators) (size : Nat) : Overlays fields c.values {} c.overlay size where
  nil := by simp [overlay]
  takes :=
    .cons ⟨rfl, takes_path fun _ => by simp [overlay]⟩ <|
    .cons ⟨rfl, takes_path fun _ => by simp [overlay]⟩ <|
    .cons ⟨rfl, takes_path fun _ => by simp [overlay]⟩ <|
    .cons ⟨rfl, takes_path fun _ => by simp [overlay]⟩ <|
    .cons ⟨rfl, takes_path fun _ => by simp [overlay]⟩ .nil
  congr h := by
    simp only [values, List.map_cons, List.map_nil, List.forall_mem_cons] at h
    simp only [overlay, h]

theorem writesRecord_members (c : Collaborators) (names : List String) :
    WritesRecord c.values names (Json.object c.members |>.pick names).compact :=
  writesRecord_pick
    (.cons ⟨rfl, writesText_quote _⟩ <|
      .cons ⟨rfl, writesText_quote _⟩ <|
      .cons ⟨rfl, writesText_quote _⟩ <|
      .cons ⟨rfl, writesText_quote _⟩ <|
      .cons ⟨rfl, writesText_quote _⟩ .nil)
    (by simp) names

end Collaborators

namespace FallbackScope

/-- The values of the fields in a text. -/
def values (s : FallbackScope) : Values := [
  ("dirs", WritesTexts (s.dirs.map Path.text)),
  ("extensions", WritesTexts s.extensions)]

/-- The fields with these names, and the usual ones otherwise. -/
def overlay (s : FallbackScope) (names : List String) : FallbackScope where
  dirs := if "dirs" ∈ names then s.dirs else ({} : FallbackScope).dirs
  extensions := if "extensions" ∈ names then s.extensions else ({} : FallbackScope).extensions

theorem overlays (s : FallbackScope) (size : Nat) : Overlays fields s.values {} s.overlay size where
  nil := by simp [overlay]
  takes :=
    .cons ⟨rfl, takes_paths fun _ => by simp [overlay]⟩ <|
    .cons ⟨rfl, Field.takes_texts fun _ => by simp [overlay]⟩ .nil
  congr h := by
    simp only [values, List.map_cons, List.map_nil, List.forall_mem_cons] at h
    simp only [overlay, h]

theorem writesRecord_members (s : FallbackScope) (names : List String) :
    WritesRecord s.values names (Json.object s.members |>.pick names).compact :=
  writesRecord_pick
    (.cons ⟨rfl, writesTexts_paths _⟩ <| .cons ⟨rfl, writesTexts_compact _⟩ .nil) (by simp) names

end FallbackScope

namespace RouterContract

/-- The values of the fields in a text. -/
def values (r : RouterContract) : Values := [
  ("requiredMarkers", WritesTexts r.requiredMarkers),
  ("safelistHints", WritesTexts r.safelistHints)]

/-- The fields with these names, and the usual ones otherwise. -/
def overlay (r : RouterContract) (names : List String) : RouterContract where
  requiredMarkers :=
    if "requiredMarkers" ∈ names then r.requiredMarkers else ({} : RouterContract).requiredMarkers
  safelistHints := if "safelistHints" ∈ names then r.safelistHints else ({} : RouterContract).safelistHints

theorem overlays (r : RouterContract) (size : Nat) : Overlays fields r.values {} r.overlay size where
  nil := by simp [overlay]
  takes :=
    .cons ⟨rfl, Field.takes_texts fun _ => by simp [overlay]⟩ <|
    .cons ⟨rfl, Field.takes_texts fun _ => by simp [overlay]⟩ .nil
  congr h := by
    simp only [values, List.map_cons, List.map_nil, List.forall_mem_cons] at h
    simp only [overlay, h]

theorem writesRecord_members (r : RouterContract) (names : List String) :
    WritesRecord r.values names (Json.object r.members |>.pick names).compact :=
  writesRecord_pick
    (.cons ⟨rfl, writesTexts_compact _⟩ <| .cons ⟨rfl, writesTexts_compact _⟩ .nil) (by simp) names

end RouterContract

namespace Layout

/-- The names of the fields that a text has: those of the layout, and of each record in it those that its object has. -/
structure Selection where
  top : List String
  collaborators : List String
  fallbackScan : List String
  router : List String

/-- All fields. -/
def Selection.all : Selection where
  top := fields.map (·.key)
  collaborators := Collaborators.fields.map (·.key)
  fallbackScan := FallbackScope.fields.map (·.key)
  router := RouterContract.fields.map (·.key)

/-- The values of the fields in a text. -/
def values (l : Layout) (S : Selection) : Values := [
  ("tokens", WritesText l.tokens.text),
  ("stylesheetDir", WritesText l.stylesheetDir.text),
  ("primitivesFile", WritesText l.primitivesFile),
  ("semanticFile", WritesText l.semanticFile),
  ("componentFile", WritesText l.componentFile),
  ("legacyFile", WritesText l.legacyFile),
  ("reportDir", WritesText l.reportDir.text),
  ("collaborators", WritesRecord l.collaborators.values S.collaborators),
  ("fallbackScan", WritesRecord l.fallbackScan.values S.fallbackScan),
  ("knownTypos", WritesTexts l.knownTypos),
  ("router", WritesRecord l.router.values S.router)]

/-- The selected fields, and the usual ones otherwise. -/
def overlay (l : Layout) (S : Selection) : Layout where
  tokens := if "tokens" ∈ S.top then l.tokens else ({} : Layout).tokens
  stylesheetDir := if "stylesheetDir" ∈ S.top then l.stylesheetDir else ({} : Layout).stylesheetDir
  primitivesFile := if "primitivesFile" ∈ S.top then l.primitivesFile else ({} : Layout).primitivesFile
  semanticFile := if "semanticFile" ∈ S.top then l.semanticFile else ({} : Layout).semanticFile
  componentFile := if "componentFile" ∈ S.top then l.componentFile else ({} : Layout).componentFile
  legacyFile := if "legacyFile" ∈ S.top then l.legacyFile else ({} : Layout).legacyFile
  reportDir := if "reportDir" ∈ S.top then l.reportDir else ({} : Layout).reportDir
  collaborators := if "collaborators" ∈ S.top then l.collaborators.overlay S.collaborators else {}
  fallbackScan := if "fallbackScan" ∈ S.top then l.fallbackScan.overlay S.fallbackScan else {}
  knownTypos := if "knownTypos" ∈ S.top then l.knownTypos else ({} : Layout).knownTypos
  router := if "router" ∈ S.top then l.router.overlay S.router else {}

theorem overlays (l : Layout) (S : Selection) (size : Nat) :
    Overlays fields (l.values S) {} (fun names => l.overlay { S with top := names }) size where
  nil := by simp [overlay]
  takes :=
    .cons ⟨rfl, takes_path fun _ => by simp [overlay]⟩ <|
    .cons ⟨rfl, takes_path fun _ => by simp [overlay]⟩ <|
    .cons ⟨rfl, Field.takes_text fun _ => by simp [overlay]⟩ <|
    .cons ⟨rfl, Field.takes_text fun _ => by simp [overlay]⟩ <|
    .cons ⟨rfl, Field.takes_text fun _ => by simp [overlay]⟩ <|
    .cons ⟨rfl, Field.takes_text fun _ => by simp [overlay]⟩ <|
    .cons ⟨rfl, takes_path fun _ => by simp [overlay]⟩ <|
    .cons ⟨rfl, Field.takes_record (l.collaborators.overlays size) fun _ => by simp [overlay]⟩ <|
    .cons ⟨rfl, Field.takes_record (l.fallbackScan.overlays size) fun _ => by simp [overlay]⟩ <|
    .cons ⟨rfl, Field.takes_texts fun _ => by simp [overlay]⟩ <|
    .cons ⟨rfl, Field.takes_record (l.router.overlays size) fun _ => by simp [overlay]⟩ .nil
  congr h := by
    simp only [values, List.map_cons, List.map_nil, List.forall_mem_cons] at h
    simp only [overlay, h]

theorem overlay_all (l : Layout) : l.overlay .all = l := rfl

/-! ## Texts of a layout -/

/-- An object that holds the selected fields of a layout, with blanks around it. -/
inductive WrittenAs (l : Layout) (S : Selection) : String → Prop where
  | mk (lead tail : List Char) {t : List Char} (hlead : Blanks lead) (h : WritesRecord (l.values S) S.top t)
      (htail : Blanks tail) :
      WrittenAs l S (String.ofList (lead ++ (t ++ tail)))

theorem ofText_of_writtenAs {l : Layout} {S : Selection} {text : String} (h : l.WrittenAs S text) :
    ofText text = .ok (l.overlay S) := by
  obtain ⟨lead, tail, hlead, h, htail⟩ := h
  rw [ofText, Json.whole_of_reads (Json.skips_recordItem fields _) hlead htail fun size hsize =>
    Json.reads_recordItem (l.overlays S size) h hsize]
  rfl

/-- A member whose object, if it is a record in the layout, has the selected fields. -/
def Selection.within (S : Selection) (key : String) (j : Json) : Json :=
  match key with
  | "collaborators" => j.pick S.collaborators
  | "fallbackScan" => j.pick S.fallbackScan
  | "router" => j.pick S.router
  | _ => j

/-- The selected fields of a layout as a JSON value. -/
def chosen (l : Layout) (S : Selection) : Json :=
  (Json.object (l.members.map fun m => (m.1, S.within m.1 m.2))).pick S.top

theorem chosen_all (l : Layout) : l.chosen .all = l.toJson := rfl

theorem writtenAs_chosen (l : Layout) (S : Selection) : l.WrittenAs S (String.ofList (l.chosen S).compact) := by
  have hrecord : WritesRecord (l.values S) S.top (l.chosen S).compact :=
    writesRecord_pick
      (.cons ⟨rfl, writesText_quote _⟩ <|
        .cons ⟨rfl, writesText_quote _⟩ <|
        .cons ⟨rfl, writesText_quote _⟩ <|
        .cons ⟨rfl, writesText_quote _⟩ <|
        .cons ⟨rfl, writesText_quote _⟩ <|
        .cons ⟨rfl, writesText_quote _⟩ <|
        .cons ⟨rfl, writesText_quote _⟩ <|
        .cons ⟨rfl, l.collaborators.writesRecord_members _⟩ <|
        .cons ⟨rfl, l.fallbackScan.writesRecord_members _⟩ <|
        .cons ⟨rfl, writesTexts_compact _⟩ <|
        .cons ⟨rfl, l.router.writesRecord_members _⟩ .nil)
      (by simp) S.top
  simpa using WrittenAs.mk [] [] blanks_nil hrecord blanks_nil

/-! ## Fields that are named twice -/

/-- The beginning of an object that holds selected fields of a layout and names one again, or one in a record again. -/
inductive Repeats (l : Layout) (S : Selection) : List Char → Prop where
  | top {t : List Char} (h : Json.Repeats (l.values S) t) : Repeats l S t
  | collaborators {t u : List Char} (h : Json.Enters (l.values S) "collaborators" u t)
      (hu : Json.Repeats l.collaborators.values u) : Repeats l S t
  | fallbackScan {t u : List Char} (h : Json.Enters (l.values S) "fallbackScan" u t)
      (hu : Json.Repeats l.fallbackScan.values u) : Repeats l S t
  | router {t u : List Char} (h : Json.Enters (l.values S) "router" u t)
      (hu : Json.Repeats l.router.values u) : Repeats l S t

theorem refuses_of_repeats {l : Layout} {S : Selection} {t : List Char} (h : l.Repeats S t) {size : Nat}
    (hsize : t.length ≤ size) : Json.Refuses (Json.recordItem fields {} size) t .mismatched := by
  have hov := l.overlays S size
  cases h with
  | top h => exact Json.refuses_repeats hov h hsize
  | collaborators h hu =>
      have hinner := Json.refuses_repeats (l.collaborators.overlays size) hu (Nat.le_trans h.length_le hsize)
      exact Json.refuses_enters hov rfl hinner h hsize
  | fallbackScan h hu =>
      have hinner := Json.refuses_repeats (l.fallbackScan.overlays size) hu (Nat.le_trans h.length_le hsize)
      exact Json.refuses_enters hov rfl hinner h hsize
  | router h hu =>
      have hinner := Json.refuses_repeats (l.router.overlays size) hu (Nat.le_trans h.length_le hsize)
      exact Json.refuses_enters hov rfl hinner h hsize

/-- The text of an object that names a known field twice, whatever follows. -/
inductive NamesTwice (l : Layout) (S : Selection) : String → Prop where
  | mk (lead rest : List Char) {t : List Char} (hlead : Blanks lead) (h : l.Repeats S t) :
      NamesTwice l S (String.ofList (lead ++ (t ++ rest)))

theorem ofText_of_namesTwice {l : Layout} {S : Selection} {text : String} (h : l.NamesTwice S text) :
    ofText text = .error (.json .mismatched) := by
  obtain ⟨lead, rest, hlead, h⟩ := h
  rw [ofText, Json.whole_of_refuses (Json.skips_recordItem fields {}) hlead fun _ hsize => refuses_of_repeats h hsize]
  rfl

/-- A text overrides exactly what it names, whatever else it holds, and no field may be named twice. All that is
selected can be written, and all fields together give the layout back. -/
theorem ofText_overrides (l : Layout) :
    (∀ S text, l.WrittenAs S text → ofText text = .ok (l.overlay S)) ∧
    (∀ S, l.WrittenAs S (String.ofList (l.chosen S).compact)) ∧
    (∀ text, l.WrittenAs .all text → ofText text = .ok l) ∧
    ofText (String.ofList l.toJson.compact) = .ok l ∧
    ∀ S text, l.NamesTwice S text → ofText text = .error (.json .mismatched) := by
  have hall : ∀ text, l.WrittenAs .all text → ofText text = .ok l := fun text h => by
    rw [ofText_of_writtenAs h, overlay_all]
  refine ⟨fun S text => ofText_of_writtenAs, l.writtenAs_chosen, hall, hall _ ?_, fun S text => ofText_of_namesTwice⟩
  rw [← chosen_all]
  exact l.writtenAs_chosen .all

/-- A layout with a tokens file and a router of its own, and another name for the stylesheet written by hand. -/
private def pages : Layout where
  tokens := ⟨"design/tokens.json"⟩
  legacyFile := "old.scss"
  router := { requiredMarkers := ["MISSING"], safelistHints := ["if page"] }

/-- The tokens file and the hints of the router. -/
private def hintsOnly : Selection := ⟨["tokens", "router"], [], [], ["safelistHints"]⟩

private def hintsMember : String × Json.Member :=
  ("safelistHints", ⟨[], "safelistHints".toList, [], [],
    Json.bracketed '[' [] [⟨[], "\"\\u0069f page\"".toList, [' ']⟩] ']', []⟩)

private def routerMember : String × Json.Member :=
  ("router", ⟨[], "router".toList, [' '], [' '], Json.bracketed '{' [] [hintsMember.2.part] '}', []⟩)

private def noteMember : String × Json.Member := Json.Member.bare ("note", .null)

private def tokensMember : String × Json.Member := Json.Member.bare ("tokens", .text "design/tokens.json")

private theorem fits_hintsMember : Json.Fits (RouterContract.values pages.router) hintsMember where
  padded := ⟨by decide, by decide, by decide, by decide⟩
  spells := spells_flatMap "safelistHints".toList
  known := by
    have hunit : Json.IsUnit ['0', '0', '6', '9'] (((0 * 16 + 0) * 16 + 6) * 16 + 9) := .mk rfl rfl rfl rfl
    have hspells : Json.Spells "if page".toList "\\u0069f page".toList :=
      .unit hunit (by decide) (spells_flatMap "f page".toList)
    have hhints : WritesTexts ["if page"] hintsMember.2.value :=
      .mk blanks_nil (.cons ⟨⟨by decide, by decide⟩, .mk hspells⟩ .nil)
    simpa [RouterContract.values, hintsMember, pages] using hhints
  unknown h := absurd (by simp [RouterContract.values, hintsMember]) h

private theorem fits_routerMember : Json.Fits (pages.values hintsOnly) routerMember where
  padded := ⟨by decide, by decide, by decide, by decide⟩
  spells := spells_flatMap "router".toList
  known := by
    have hholds : Json.Holds pages.router.values [hintsMember] := ⟨by simpa using fits_hintsMember, by decide⟩
    have hrouter : WritesRecord pages.router.values hintsOnly.router routerMember.2.value :=
      .mk blanks_nil hholds (by decide)
    simpa [values, routerMember] using hrouter
  unknown h := absurd (by simp [values, routerMember]) h

private theorem fits_noteMember : Json.Fits (pages.values hintsOnly) noteMember where
  padded := ⟨by decide, by decide, by decide, by decide⟩
  spells := spells_flatMap "note".toList
  known := by simp [values, noteMember, Json.Member.bare]
  unknown _ := .null

private theorem fits_tokensMember : Json.Fits (pages.values hintsOnly) tokensMember where
  padded := ⟨by decide, by decide, by decide, by decide⟩
  spells := spells_flatMap "tokens".toList
  known := by
    have htokens : WritesText pages.tokens.text tokensMember.2.value := writesText_quote "design/tokens.json"
    simpa [values, tokensMember, Json.Member.bare] using htokens
  unknown h := absurd (by simp [values, tokensMember, Json.Member.bare]) h

/-- A text that names the selected fields in another order, with blanks, an escape and a member of no interest. -/
private def pagesText : String :=
  r#"{"router" : {"safelistHints":["\u0069f page" ]},"note":null,"tokens":"design/tokens.json"}
"#

/-- A text that names the hints of the router twice. -/
private def hintsTwiceText : String :=
  r#"{"tokens":"design/tokens.json","router":{"safelistHints":["\u0069f page" ],"safelistHints":[]}}"#

private theorem writtenAs_pagesText : pages.WrittenAs hintsOnly pagesText := by
  have hholds : Json.Holds (pages.values hintsOnly) [routerMember, noteMember, tokensMember] :=
    ⟨by simp [fits_routerMember, fits_noteMember, fits_tokensMember], by decide⟩
  exact .mk [] ['\n'] blanks_nil (.mk blanks_nil hholds (by decide)) (by decide)

private theorem namesTwice_hintsTwiceText : pages.NamesTwice hintsOnly hintsTwiceText := by
  have hrouter : Json.Opens (pages.values hintsOnly) [tokensMember] "router"
      r#"{"tokens":"design/tokens.json","router""#.toList :=
    .mk [] [] _ blanks_nil ⟨by simp [fits_tokensMember], by decide⟩ blanks_nil (spells_flatMap "router".toList)
  have hhints : Json.Opens pages.router.values [hintsMember] "safelistHints"
      r#"{"safelistHints":["\u0069f page" ],"safelistHints""#.toList :=
    .mk [] [] _ blanks_nil ⟨by simp [fits_hintsMember], by decide⟩ blanks_nil (spells_flatMap "safelistHints".toList)
  exact .mk [] r":[]}}".toList blanks_nil
    (.router (.mk [] [] hrouter (by decide) blanks_nil blanks_nil) (.mk hhints (by decide) (by decide)))

theorem ofText_overrides_pages :
    pages.WrittenAs hintsOnly pagesText ∧ pages.NamesTwice hintsOnly hintsTwiceText ∧
    ofText pagesText = .ok { tokens := ⟨"design/tokens.json"⟩, router := { safelistHints := ["if page"] } } ∧
    ofText hintsTwiceText = .error (.json .mismatched) ∧ ofText (String.ofList pages.toJson.compact) = .ok pages := by
  obtain ⟨hover, _, _, hself, hrefused⟩ := ofText_overrides pages
  exact ⟨writtenAs_pagesText, namesTwice_hintsTwiceText, hover _ _ writtenAs_pagesText,
    hrefused _ _ namesTwice_hintsTwiceText, hself⟩

end Layout

end DesignTokens
