import CloneDetection.Proofs.Consistency
import CloneDetection.Proofs.Loading

/-!
# Identifiers of loaded files

The identifier of a file has a slash for each backslash, so it is made of the parts between the
backslashes of the names that lead to the file (`Path.withSlashes_intercalate`). Two files of a
folder have the same identifier exactly when these parts are the same (`Load.fileId_eq_iff`), though
their names differ: `a\b.c`, and `b.c` in a folder `a`. A detection is rejected for a repeated
file then, and only then (`load_ids_nodup_iff`).
-/

namespace CloneDetection

namespace Path

/-! ## Parts of names -/

/-- The parts of a name between its backslashes. -/
def parts (name : String) : List String :=
  (name.toList.splitOn '\\').map String.ofList

theorem parts_ne_nil (name : String) : parts name ≠ [] :=
  mt List.map_eq_nil_iff.mp (List.splitOnP_ne_nil _ _)

theorem parts_of_not_mem {name : String} (h : '\\' ∉ name.toList) : parts name = [name] := by
  rw [parts, List.splitOn_eq_singleton h, List.map_singleton, String.ofList_toList]

/-- A backslash starts a new part, and another character is added to the first one. -/
theorem splitOn_backslash_cons (c : Char) (cs : List Char) :
    ∃ first rest, cs.splitOn '\\' = first :: rest ∧
      (c :: cs).splitOn '\\' = if c = '\\' then [] :: first :: rest else (c :: first) :: rest := by
  obtain ⟨first, rest, h⟩ := List.exists_cons_of_ne_nil (List.splitOnP_ne_nil (· == '\\') cs)
  refine ⟨first, rest, h, ?_⟩
  rw [List.splitOn, List.splitOnP_cons_eq_if_modifyHead, h, List.modifyHead_cons]
  simp only [beq_iff_eq]

theorem mem_of_mem_splitOn {c : Char} {cs part : List Char} (hpart : part ∈ cs.splitOn '\\')
    (hc : c ∈ part) : c ∈ cs := by
  induction cs generalizing part with
  | nil =>
    rw [List.mem_singleton.mp hpart] at hc
    exact hc
  | cons d cs ih =>
    obtain ⟨first, rest, h, hcons⟩ := splitOn_backslash_cons d cs
    rw [h] at ih
    rw [hcons] at hpart
    split at hpart
    · rcases List.mem_cons.mp hpart with rfl | hpart
      · cases hc
      · exact List.mem_cons_of_mem _ (ih hpart hc)
    · rcases List.mem_cons.mp hpart with rfl | hpart
      · exact List.mem_cons.mpr ((List.mem_cons.mp hc).imp_right (ih List.mem_cons_self))
      · exact List.mem_cons_of_mem _ (ih (List.mem_cons_of_mem _ hpart) hc)

theorem slash_not_mem_parts {name part : String} (h : '/' ∉ name.toList)
    (hpart : part ∈ parts name) : '/' ∉ part.toList := by
  obtain ⟨cs, hcs, rfl⟩ := List.mem_map.mp hpart
  rw [String.toList_ofList]
  exact fun hmem => h (mem_of_mem_splitOn hcs hmem)

theorem map_slash_eq_intercalate (cs : List Char) :
    (cs.map fun c => if c = '\\' then '/' else c) = ['/'].intercalate (cs.splitOn '\\') := by
  induction cs with
  | nil => rfl
  | cons c cs ih =>
    obtain ⟨first, rest, h, hcons⟩ := splitOn_backslash_cons c cs
    rw [List.map_cons, ih, h, hcons]
    by_cases hc : c = '\\'
    · rw [if_pos hc, if_pos hc, List.intercalate_cons_cons]
      rfl
    · rw [if_neg hc, if_neg hc]
      cases rest <;> simp

/-- The parts of a name stand between the slashes for its backslashes. -/
theorem withSlashes_eq_intercalate (name : String) :
    withSlashes name = "/".intercalate (parts name) := by
  refine String.toList_injective ?_
  rw [withSlashes, String.toList_ofList, map_slash_eq_intercalate, String.toList_intercalate, parts,
    List.map_map]
  simp [Function.comp_def]

theorem withSlashes_append_slash (before after : String) :
    withSlashes (before ++ "/" ++ after) = withSlashes before ++ "/" ++ withSlashes after := by
  simp [withSlashes, String.append_assoc]

variable {x y : List String}

theorem flatMap_parts_ne_nil (h : x ≠ []) : x.flatMap parts ≠ [] := by
  obtain ⟨name, rest, rfl⟩ := List.exists_cons_of_ne_nil h
  rw [List.flatMap_cons]
  exact List.append_ne_nil_of_left_ne_nil (parts_ne_nil name) _

/-- An identifier is made of the parts of the names. -/
theorem withSlashes_intercalate (names : List String) :
    withSlashes ("/".intercalate names) = "/".intercalate (names.flatMap parts) := by
  induction names with
  | nil => rfl
  | cons name names ih =>
    rw [List.flatMap_cons]
    cases names with
    | nil =>
      rw [String.intercalate_singleton, withSlashes_eq_intercalate, List.flatMap_nil,
        List.append_nil]
    | cons second rest =>
      rw [String.intercalate_cons_cons, withSlashes_append_slash, ih, withSlashes_eq_intercalate,
        String.intercalate_append_of_ne_nil (parts_ne_nil name)
          (flatMap_parts_ne_nil (List.cons_ne_nil _ _))]

theorem segments_withSlashes (hx : x ≠ []) (h : ∀ name ∈ x, '/' ∉ name.toList) :
    segments (withSlashes ("/".intercalate x)) = x.flatMap parts := by
  rw [withSlashes_intercalate]
  refine segments_intercalate (flatMap_parts_ne_nil hx) fun part hpart => ?_
  obtain ⟨name, hname, hpart⟩ := List.mem_flatMap.mp hpart
  exact slash_not_mem_parts (h name hname) hpart

theorem flatMap_parts_of_not_mem (h : ∀ name ∈ x, '\\' ∉ name.toList) : x.flatMap parts = x := by
  induction x with
  | nil => rfl
  | cons name rest ih =>
    obtain ⟨hname, hrest⟩ := List.forall_mem_cons.mp h
    rw [List.flatMap_cons, parts_of_not_mem hname, ih hrest, List.singleton_append]

end Path

/-! ## Identifiers -/

namespace Load

variable {x y : List FileName} {label : String} {found : List FoundFile} {files : List SourceFile}

/-- The parts of the names that lead to a file. -/
def partsOf (names : List FileName) : List String :=
  (names.map FileName.lossy).flatMap Path.parts

/-- Files have the same identifier exactly when their names have the same parts. -/
theorem fileId_eq_iff (hx : x ≠ []) (hy : y ≠ []) (hxs : ∀ name ∈ x, name.IsProper)
    (hys : ∀ name ∈ y, name.IsProper) : fileId x = fileId y ↔ partsOf x = partsOf y := by
  have hsegments {names : List FileName} (hne : names ≠ []) (h : ∀ name ∈ names, name.IsProper) :
      Path.segments (fileId names) = partsOf names :=
    Path.segments_withSlashes (mt List.map_eq_nil_iff.mp hne)
      (List.forall_mem_map.mpr fun name hname => (h name hname).slash_not_mem_lossy)
  constructor
  · intro h
    rw [← hsegments hx hxs, ← hsegments hy hys, h]
  · intro h
    rw [fileId, fileId, Path.withSlashes_intercalate, Path.withSlashes_intercalate]
    exact congrArg _ h

/-- Whether a name is a text without a backslash. -/
def IsPlain (name : FileName) : Prop :=
  ∃ text : String, name = .ofString text ∧ '\\' ∉ text.toList

theorem eq_of_partsOf_eq (hx : ∀ name ∈ x, IsPlain name) (hy : ∀ name ∈ y, IsPlain name)
    (h : partsOf x = partsOf y) : x = y := by
  have hparts {names : List FileName} (hnames : ∀ name ∈ names, IsPlain name) :
      (partsOf names).map .ofString = names := by
    have hplain : partsOf names = names.map FileName.lossy := by
      refine Path.flatMap_parts_of_not_mem (List.forall_mem_map.mpr fun name hname => ?_)
      obtain ⟨text, rfl, htext⟩ := hnames name hname
      rwa [FileName.lossy_ofString]
    have hback : ∀ name ∈ names, (FileName.ofString ∘ FileName.lossy) name = id name := by
      intro name hname
      obtain ⟨text, rfl, -⟩ := hnames name hname
      rw [Function.comp_apply, FileName.lossy_ofString, id]
    rw [hplain, List.map_map, List.map_congr_left hback, List.map_id]
  rw [← hparts hx, ← hparts hy, h]

/-- Whether the names of two files are the same once each is cut at its backslashes. -/
def SameParts (f g : FoundFile) : Prop :=
  partsOf f.names = partsOf g.names

theorem map_id_eq (h : List.Forall₂ (Represents label) found files) :
    files.map SourceFile.id = found.map fun f => fileId f.names := by
  induction h with
  | nil => rfl
  | cons h _ ih => rw [List.map_cons, List.map_cons, h.id, ih]

theorem map_identity_eq (h : List.Forall₂ (Represents label) found files) :
    files.map SourceFile.identity = (files.map SourceFile.id).map fun id => (id, label) := by
  induction h with
  | nil => rfl
  | cons h _ ih => rw [List.map_cons, ih, SourceFile.identity, h.revision]; rfl

theorem nodup_identity_iff (h : List.Forall₂ (Represents label) found files) :
    (files.map SourceFile.identity).Nodup ↔ (files.map SourceFile.id).Nodup := by
  rw [map_identity_eq h]
  exact List.nodup_map_iff fun _ _ heq => congrArg Prod.fst heq

theorem nodup_id_iff (h : List.Forall₂ (Represents label) found files)
    (hnames : ∀ f ∈ found, f.names ≠ [] ∧ ∀ name ∈ f.names, name.IsProper) :
    (files.map SourceFile.id).Nodup ↔ found.Pairwise fun f g => ¬ SameParts f g := by
  rw [map_id_eq h, List.Nodup, List.pairwise_map]
  refine List.Pairwise.iff_of_mem fun {f g} hf hg => not_congr ?_
  exact fileId_eq_iff (hnames f hf).1 (hnames g hg).1 (hnames f hf).2 (hnames g hg).2

end Load

/-! ## Repeated files -/

namespace Detection

variable {files : List SourceFile} {settings : Settings}

theorem checkRequest_eq_repeatedFile_iff :
    (∃ id revision, checkRequest files = .error (.repeatedFile id revision)) ↔
      ¬ (files.map SourceFile.identity).Nodup := by
  constructor
  · rintro ⟨id, revision, h⟩ hnodup
    rw [checkRequest] at h
    split at h
    · cases h
    · have hnone : firstRepeated? [] files = none :=
        firstRepeated?_eq_none_iff.mpr ⟨hnodup, fun _ _ => List.not_mem_nil⟩
      rw [hnone] at h
      cases h
  · intro hnodup
    have hlen : ¬ files.length < 2 := by
      intro hlen
      rcases files with _ | ⟨f, _ | ⟨g, rest⟩⟩
      · exact hnodup List.nodup_nil
      · exact hnodup (List.nodup_singleton _)
      · simp at hlen
    cases hrepeated : firstRepeated? [] files with
    | none => exact absurd (firstRepeated?_eq_none_iff.mp hrepeated).1 hnodup
    | some file => exact ⟨file.id, file.revision, by rw [checkRequest, if_neg hlen, hrepeated]⟩

theorem detect_eq_invalidRequest_iff {cause : RequestError} :
    detect settings files = .error (.invalidRequest cause) ↔
      settings.validate = .ok () ∧ checkRequest files = .error cause := by
  constructor
  · intro h
    rcases bind_eq_error_iff.mp h with h | ⟨⟨⟩, hvalid, h⟩
    · obtain ⟨_, -, h⟩ := mapError_eq_error_iff.mp h
      cases h
    refine ⟨mapError_eq_ok_iff.mp hvalid, ?_⟩
    rcases bind_eq_error_iff.mp h with h | ⟨-, -, h⟩
    · obtain ⟨_, hrequest, h⟩ := mapError_eq_error_iff.mp h
      cases h
      exact hrequest
    -- past the request a detection fails for other causes
    rcases bind_eq_error_iff.mp h with h | ⟨intake, -, h⟩
    · obtain ⟨-, _, -, h⟩ := tokenizeAll_eq_error_iff.mp h
      cases h
    obtain ⟨_, -, h⟩ := mapError_eq_error_iff.mp h
    cases h
  · rintro ⟨hvalid, hrequest⟩
    refine bind_eq_error_iff.mpr (.inr ⟨(), mapError_eq_ok_iff.mpr hvalid, ?_⟩)
    exact bind_eq_error_iff.mpr (.inl (mapError_eq_error_iff.mpr ⟨cause, hrequest, rfl⟩))

end Detection

open Load

/-- The files of one root have different names, and different identifiers exactly when the parts of
their names differ, on any walk that visits each entry once. A detection of them is rejected for a
repeated file exactly when identifiers are the same. -/
theorem load_ids_nodup_iff (walk : Walker) (hwalk : walk.Once) (w : Workspace)
    (hw : w.tree.WellFormed) (options : LoadOptions) (root : Root)
    (entries : List (FileName × FileTree)) (hroot : w.look root.path = .ok (.folder entries)) :
    ∃ loaded found, loadWith walk w options [root] = .ok loaded ∧
      (∀ f ∈ found, (FileTree.folder entries).descend? f.names = some (.file f.content)) ∧
      (found.map FoundFile.names).Nodup ∧ List.Forall₂ (Represents root.label) found loaded.files ∧
      ((loaded.files.map SourceFile.id).Nodup ↔ found.Pairwise fun f g => ¬ SameParts f g) ∧
      ((∀ f ∈ found, ∀ name ∈ f.names, IsPlain name) → (loaded.files.map SourceFile.id).Nodup) ∧
      ∀ settings : Settings,
        (∃ id revision, detect settings loaded.files =
          .error (.invalidRequest (.repeatedFile id revision))) ↔
        settings.validate = .ok () ∧ ¬ (loaded.files.map SourceFile.id).Nodup := by
  obtain ⟨place, hfind, htree⟩ := Workspace.look_eq_ok_iff.mp hroot
  have hfolder : (w.treeAt place).isFolder = true := by rw [htree]; rfl
  have hwf := Workspace.wellFormed_find hw hfind
  have hpath := path_ne_empty_of_find hfind
  have hstands := hwalk.exists_tree (request w options place) hwf
  have hfound {f : FoundFile} (hf : f ∈ loadedFound walk w options root place) :
      f.names ≠ [] ∧ (w.treeAt place).descend? f.names = some (.file f.content) := by
    obtain ⟨e, he, hfile⟩ := List.mem_filterMap.mp hf
    obtain ⟨file, hfate, rfl⟩ := foundFile?_eq_some_iff.mp hfile
    obtain ⟨hne, -, content, _, hcontent, -, -, -, rfl⟩ :=
      (fate_ok_eq_loaded_iff hpath hwf (hstands e he)).mp hfate
    exact ⟨hne, hcontent⟩
  have hfiles : List.Forall₂ (Represents root.label) (loadedFound walk w options root place)
      ((fatesOf walk w options root place).filterMap Fate.file?) :=
    forall₂_represents hpath hwf fun e he => hstands e (mem_entries_iff.mpr he)
  have hdistinct : ((loadedFound walk w options root place).map FoundFile.names).Nodup :=
    List.pairwise_map.mpr (loadedFound_pairwise
      (List.pairwise_map.mp (hwalk.nodup (request w options place) hwf)))
  have hnodup := nodup_id_iff hfiles fun f hf =>
    ⟨(hfound hf).1, hwf.isProper_of_descend? (hfound hf).2⟩
  refine ⟨_, loadedFound walk w options root place,
    loadWith_singleton_eq_ok_iff.mpr ⟨place, hfind, hfolder, rfl⟩,
    fun f hf => htree ▸ (hfound hf).2, hdistinct, hfiles, hnodup,
    fun hplain => hnodup.mpr ?_, fun settings => ?_⟩
  · -- a name without a backslash is its only part
    refine (List.pairwise_map.mp hdistinct).imp_of_mem fun {f g} hf hg hne hsame => hne ?_
    exact eq_of_partsOf_eq (hplain f hf) (hplain g hg) hsame
  · simp only [Detection.detect_eq_invalidRequest_iff, exists_and_left,
      Detection.checkRequest_eq_repeatedFile_iff, nodup_identity_iff hfiles]

/-- A folder `w` with a file `b.c` in a folder `a`, and a file of another name. -/
def twoFiles (name : String) : Workspace where
  tree := (FileTree.folder [])
    |>.put ["w", "a", "b.c"] (.file "x".toUTF8)
    |>.put ["w", name] (.file "y".toUTF8)
  current := ["w"]

theorem wellFormed_twoFiles {name : String} (h : (FileName.ofString name).IsProper) :
    (twoFiles name).tree.WellFormed := by
  refine (FileTree.WellFormed.emptyFolder.put (.file _) (by decide)).put (.file _) ?_
  exact List.forall_mem_cons.mpr ⟨by decide, List.forall_mem_singleton.mpr h⟩

/-- A backslash alone does no harm. -/
theorem load_ids_nodup_iff_backslash :
    ∃ loaded, load (twoFiles "a\\c.c") {} [⟨"/w", "w"⟩] = .ok loaded ∧
      loaded.files.map SourceFile.id = ["a/b.c", "a/c.c"] ∧
      ∀ settings id revision, detect settings loaded.files ≠
        .error (.invalidRequest (.repeatedFile id revision)) := by
  have hroot : (twoFiles "a\\c.c").look "/w" = .ok (.folder
      [("a", .folder [("b.c", .file "x".toUTF8)]), ("a\\c.c", .file "y".toUTF8)]) := by
    cbv
  have hids : (load (twoFiles "a\\c.c") {} [⟨"/w", "w"⟩]).map (·.files.map SourceFile.id) =
      .ok ["a/b.c", "a/c.c"] := by
    cbv
  obtain ⟨loaded, found, hload, -, -, -, -, -, hrepeated⟩ := load_ids_nodup_iff Walk.visit
    Walk.once_visit _ (wellFormed_twoFiles (by decide)) {} ⟨"/w", "w"⟩ _ hroot
  have hfiles : loaded.files.map SourceFile.id = ["a/b.c", "a/c.c"] := by
    rw [load, hload] at hids
    exact Except.ok.inj hids
  refine ⟨loaded, hload, hfiles, fun settings id revision hdetect => ?_⟩
  refine ((hrepeated settings).mp ⟨id, revision, hdetect⟩).2 ?_
  rw [hfiles]
  decide

/-- Two files with different names have the same identifier, and a detection is rejected. -/
theorem load_ids_clash :
    (twoFiles "a\\b.c").tree.WellFormed ∧
    ∃ loaded, load (twoFiles "a\\b.c") {} [⟨"/w", "w"⟩] = .ok loaded ∧
      loaded.files.map SourceFile.id = ["a/b.c", "a/b.c"] ∧
      detect {} loaded.files = .error (.invalidRequest (.repeatedFile "a/b.c" "w")) := by
  have h : (load (twoFiles "a\\b.c") {} [⟨"/w", "w"⟩]).map
      (fun l => (l.files.map SourceFile.id, Detection.checkRequest l.files)) =
        .ok (["a/b.c", "a/b.c"], .error (.repeatedFile "a/b.c" "w")) := by
    cbv
  obtain ⟨loaded, hload, hchecked⟩ := map_eq_ok_iff.mp h
  obtain ⟨hids, hrequest⟩ := Prod.mk.inj hchecked
  refine ⟨wellFormed_twoFiles (by decide), loaded, hload, hids, ?_⟩
  exact Detection.detect_eq_invalidRequest_iff.mpr ⟨rfl, hrequest⟩

end CloneDetection
