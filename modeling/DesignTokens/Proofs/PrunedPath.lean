import DesignTokens.Legacy.Prune
import DesignTokens.Proofs.RawPaths

/-!
# The path of a pruned file

What pruning leaves of a file goes beside it, under a name of its own. The path that is reported, below the root, and
the one that is written, from the top, say the same. All of this holds of paths of any bytes, but names that are read as
the same text get the same name.
-/

namespace DesignTokens

/-! ## Marked names -/

/-- The mark of a pruned file comes before the ending of stylesheets, and last in every other name. -/
inductive Marks : String → String → Prop where
  | inner (stem : String) : Marks (stem ++ ".scss") (stem ++ ".pruned.scss")
  | last {name : String} (h : ∀ stem, name ≠ stem ++ ".scss") : Marks name (name ++ ".pruned")

variable {name other pruned : String}

theorem marks_prunedName (name : String) : Marks name (prunedName name) := by
  by_cases h : ∃ stem, name = stem ++ ".scss"
  · obtain ⟨stem, rfl⟩ := h
    have hstem : (stem ++ ".scss").toList.take ((stem ++ ".scss").toList.length - ['.', 's', 'c', 's', 's'].length) =
        stem.toList := by simp
    have heq : prunedName (stem ++ ".scss") = stem ++ ".pruned.scss" := by
      refine String.toList_inj.1 ?_
      rw [prunedName, hstem, if_pos (by simp)]
      simp
    exact heq ▸ .inner stem
  · have heq : prunedName name = name ++ ".pruned" := by
      refine String.toList_inj.1 ?_
      rw [prunedName, if_neg fun hname => h ⟨String.ofList _, String.toList_inj.1 (by simpa using hname)⟩]
      simp
    exact heq ▸ .last fun stem hname => h ⟨stem, hname⟩

/-- The mark stands somewhere in the name, and the rest of the name is as it was. -/
theorem Marks.exists_eq (h : Marks name pruned) :
    ∃ front back, name = front ++ back ∧ pruned = front ++ ".pruned" ++ back := by
  cases h with
  | inner stem => exact ⟨stem, ".scss", rfl, by rw [String.append_assoc]; rfl⟩
  | last h => exact ⟨name, "", by simp, by simp⟩

theorem Marks.ne (h : Marks name pruned) : pruned ≠ name := by
  obtain ⟨front, back, rfl, rfl⟩ := h.exists_eq
  intro heq
  have hlength := congrArg String.length heq
  simp at hlength

theorem Marks.isName (h : Marks name pruned) (hslash : '/' ∉ name.toList) : Path.IsName pruned := by
  obtain ⟨front, back, rfl, rfl⟩ := h.exists_eq
  have hlong : ∀ part : String, part.length < 7 → front ++ ".pruned" ++ back ≠ part := by
    rintro part hpart rfl
    have hmark : ".pruned".length = 7 := rfl
    rw [String.length_append, String.length_append] at hpart
    omega
  have hempty := hlong "" (by decide)
  have hpoint := hlong "." (by decide)
  refine ⟨by simp [Path.isVacuous, hempty, hpoint], hlong ".." (by decide), ?_⟩
  simp at hslash ⊢
  exact hslash

/-- No two names get the same marked name. -/
theorem Marks.inj (h : Marks name pruned) (h' : Marks other pruned) : name = other := by
  -- A marked name ends in the ending of stylesheets or in the mark, and so tells where the mark was put.
  have hends : ∀ stem stem' : String, stem ++ ".pruned.scss" ≠ stem' ++ ".pruned" := fun stem stem' heq => by
    have hlast := congrArg (fun s : String => s.toList.getLast?) heq
    simp at hlast
  generalize hpruned : pruned = marked at h'
  cases h with
  | inner stem =>
      cases h' with
      | inner stem' =>
          have hstem : stem = stem' := by simpa using hpruned
          rw [hstem]
      | last h' => exact absurd hpruned (hends stem other)
  | last h =>
      cases h' with
      | inner stem' => exact absurd hpruned.symm (hends stem' name)
      | last h' => simpa using hpruned

theorem prunedName_inj : prunedName name = prunedName other ↔ name = other :=
  ⟨fun h => (marks_prunedName name).inj (h ▸ marks_prunedName other), congrArg prunedName⟩

/-! ## Paths -/

section Paths

open DesignTokens.Path

variable {root legacy : Path}

theorem prunedPath_eq (h : legacy.fileName? = some name) :
    prunedPath legacy = legacy.withFileName (prunedName name) := by
  rw [prunedPath, h]
  rfl

theorem isName_prunedName (h : legacy.fileName? = some name) : IsName (prunedName name) :=
  (marks_prunedName name).isName (fileName?_eq_some_iff.1 h).2.no_slash

theorem components_prunedPath_join (hlegacy : legacy.isAbsolute = false) (h : legacy.fileName? = some name) :
    (prunedPath (root.join legacy)).components = (root.join (prunedPath legacy)).components := by
  rw [prunedPath_eq h, prunedPath_eq (fileName?_join hlegacy h),
    components_join_withFileName hlegacy h (isName_prunedName h)]

/-- A path of a text and the path of its bytes are pruned in the same way. -/
theorem raw_prunedPath (legacy : Path) : (prunedPath legacy).raw = legacy.raw.pruned := by
  have hname : Text.decode (legacy.raw.fileName?.getD []) = legacy.fileName?.getD "" := by
    rw [RawPath.fileName?_raw]
    cases legacy.fileName? with
    | none => rfl
    | some name => exact Text.decode_utf8 name
  rw [RawPath.pruned, hname, RawPath.withFileName, RawPath.spelled_raw, ← RawPath.bytewise_text,
    ← Spelling.path_withFileName, ← RawPath.spelled_raw]
  exact congrArg RawPath.mk (RawPath.unspell_spell _).symm

end Paths

/-! ## Paths of bytes -/

namespace RawPath

open DesignTokens.Path

variable {root legacy p : RawPath} {name other : List UInt8}

theorem pruned_eq (h : legacy.fileName? = some name) :
    legacy.pruned = legacy.withFileName (Text.utf8 (prunedName (Text.decode name))) := by
  rw [pruned, h]
  rfl

theorem isName_pruned (h : legacy.fileName? = some name) :
    IsName (spell (Text.utf8 (prunedName (Text.decode name)))) := by
  have hslash : '/' ∉ (Text.decode name).toList := fun hm =>
    (Path.fileName?_eq_some_iff.1 (fileName?_eq_some_iff.1 h)).2.no_slash
      (slash_mem_spell (Text.toUInt8_mem_of_mem_decode (by decide) hm))
  rw [← bytewise_text]
  exact bytewise.isName_text ((marks_prunedName _).isName hslash)

theorem components_pruned (h : legacy.fileName? = some name) :
    legacy.pruned.components = legacy.components.dropLast ++ [Text.utf8 (prunedName (Text.decode name))] := by
  rw [pruned_eq h, components_withFileName h (isName_pruned h)]

theorem components_pruned_join (hlegacy : legacy.isAbsolute = false) (h : legacy.fileName? = some name) :
    (root.join legacy).pruned.components = (root.join legacy.pruned).components := by
  rw [pruned_eq h, pruned_eq (fileName?_join hlegacy h), components_join_withFileName hlegacy h (isName_pruned h)]

theorem utf8_pruned_ne (name : List UInt8) : Text.utf8 (prunedName (Text.decode name)) ≠ name := by
  intro heq
  have hdecoded := congrArg Text.decode heq
  rw [Text.decode_utf8] at hdecoded
  exact (marks_prunedName _).ne hdecoded

theorem components_pruned_inj (hp : p.fileName? = some other) (h : legacy.fileName? = some name) :
    p.pruned.components = legacy.pruned.components ↔
      p.components.dropLast = legacy.components.dropLast ∧ Text.decode other = Text.decode name := by
  rw [components_pruned hp, components_pruned h, List.append_singleton_inj, Text.utf8_inj, prunedName_inj]

/-- The path that a pruned file is reported under says below any root what the path says that it is written to. It says
what the legacy path says but for the last name, which is the text that this name is read as, with the mark. Two legacy
paths get the same path if and only if they lead through the same names above and their last names are read as the same
text. So names that are texts never get the same path if they differ. The path of a text is the one of its bytes. -/
theorem pruned_beside (root : RawPath) (hlegacy : legacy.isAbsolute = false) (h : legacy.fileName? = some name) :
    (root.join legacy).pruned.components = (root.join legacy.pruned).components ∧
      (∃ above pruned, Marks (Text.decode name) pruned ∧ Text.utf8 pruned ≠ name ∧
        (root.join legacy).components = above ++ [name] ∧
        (root.join legacy.pruned).components = above ++ [Text.utf8 pruned]) ∧
      (∀ (p : RawPath) (other : List UInt8), p.fileName? = some other →
        (p.pruned.components = legacy.pruned.components ↔
          p.components.dropLast = legacy.components.dropLast ∧ Text.decode other = Text.decode name) ∧
        ∀ s t, other = Text.utf8 s → name = Text.utf8 t → other ≠ name →
          p.pruned.components ≠ legacy.pruned.components) ∧
      ∀ p : Path, p.raw.pruned = (prunedPath p).raw := by
  have hjoined : (root.join legacy).fileName? = some name := fileName?_join hlegacy h
  have hbeside : (root.join legacy.pruned).components =
      (root.join legacy).components.dropLast ++ [Text.utf8 (prunedName (Text.decode name))] := by
    rw [← components_pruned_join hlegacy h, components_pruned hjoined]
  refine ⟨components_pruned_join hlegacy h, ⟨_, _, marks_prunedName _, utf8_pruned_ne name,
    components_eq_of_fileName? hjoined, hbeside⟩, fun p other hp => ⟨components_pruned_inj hp h, ?_⟩,
    fun p => (raw_prunedPath p).symm⟩
  rintro s t rfl rfl hne heq
  obtain ⟨_, htext⟩ := (components_pruned_inj hp h).1 heq
  rw [Text.decode_utf8, Text.decode_utf8] at htext
  exact hne (congrArg Text.utf8 htext)

theorem pruned_beside_pruned :
    let root := Path.raw ⟨"/srv/site/"⟩
    let legacy := Path.raw ⟨"./css//old.pruned.scss/."⟩
    legacy.isAbsolute = false ∧ legacy.fileName? = some (Text.utf8 "old.pruned.scss") ∧
      (root.join legacy).pruned.components = (root.join legacy.pruned).components ∧
      (root.join legacy).components = ["/", "srv", "site", "css", "old.pruned.scss"].map Text.utf8 ∧
      (root.join legacy.pruned).components = ["/", "srv", "site", "css", "old.pruned.pruned.scss"].map Text.utf8 ∧
      (Path.raw ⟨"./css/old.scss"⟩).pruned.components ≠ legacy.pruned.components := by
  intro root legacy
  have hlegacy : legacy.isAbsolute = false := by decide +kernel
  have hname : legacy.fileName? = some (Text.utf8 "old.pruned.scss") := by decide +kernel
  have hother : (Path.raw ⟨"./css/old.scss"⟩).fileName? = some (Text.utf8 "old.scss") := by decide +kernel
  obtain ⟨hjoin, -, hinj, -⟩ := pruned_beside root hlegacy hname
  refine ⟨hlegacy, hname, hjoin, by decide +kernel, by decide +kernel, ?_⟩
  exact (hinj _ _ hother).2 "old.scss" "old.pruned.scss" rfl rfl (by decide +kernel)

/-- Two names that are no texts are read as the same one, and the files would be pruned to the same path. -/
theorem not_pruned_beside_bytes :
    let legacy : RawPath := ⟨Text.utf8 "d/" ++ 0xFF :: Text.utf8 ".scss"⟩
    let other : RawPath := ⟨Text.utf8 "d/" ++ 0xFE :: Text.utf8 ".scss"⟩
    legacy.isAbsolute = false ∧ legacy.fileName? = some (0xFF :: Text.utf8 ".scss") ∧
      other.isAbsolute = false ∧ other.fileName? = some (0xFE :: Text.utf8 ".scss") ∧
      legacy.components.dropLast = other.components.dropLast ∧
      legacy.pruned = Path.raw ⟨"d/\uFFFD.pruned.scss"⟩ ∧ other.pruned = legacy.pruned := by
  decide +kernel

end RawPath

/-! ## Locations -/

namespace Disk

open DesignTokens.Path

variable {root legacy : Path} {home : Location}

theorem locate_prunedPath (hlegacy : legacy.isAbsolute = false) (h : legacy.fileName? = some name) :
    locate home (prunedPath (root.join legacy)) = locate home (root.join (prunedPath legacy)) :=
  locate_congr (components_prunedPath_join hlegacy h)

theorem locate_prunedPath_ne (h : legacy.fileName? = some name) :
    locate home (prunedPath legacy) ≠ locate home legacy := by
  have hpruned : (prunedPath legacy).fileName? = some (prunedName name) := by
    rw [prunedPath_eq h, fileName?_withFileName h (isName_prunedName h)]
  rw [locate_eq_of_fileName? h, locate_eq_of_fileName? hpruned, Ne, List.append_singleton_inj]
  exact fun heq => (marks_prunedName name).ne heq.2

end Disk

end DesignTokens
