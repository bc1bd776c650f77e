import CloneDetection.Proofs.FileWalks
import CloneDetection.Proofs.PathsBelow
import CloneDetection.SourceTree.Load

/-!
# What is loaded

A file of a folder is eligible if names lead to it through no ignored folder, its extension is that
of a language, it is not too large and has no byte that is zero. What a walk visits with the consent
of `Load.admits` are the files that names lead to so (`Load.visits_file_iff`), and each of them is
loaded or counted by what is wrong with it (`Load.fateOfFile_eq`). Counts stop at the greatest one
(`Load.countAll_eq_min`).

So on any lawful walk, a loading takes exactly the eligible files, in the order of the walk, and its
counts add up (`load_eligible`).
-/

namespace CloneDetection

/-- A file below a folder: the names that lead to it, and its bytes. -/
structure FoundFile where
  names : List FileName
  content : ByteArray

/-- Whether a file comes before another one on a walk. -/
def FoundFile.Before (f g : FoundFile) : Prop :=
  List.Lex (· < ·) f.names g.names

/-- An item that is not the last one is followed by others. -/
theorem mem_dropLast_iff {α : Type} {x : α} {l : List α} :
    x ∈ l.dropLast ↔ ∃ front rest, rest ≠ [] ∧ l = front ++ x :: rest := by
  constructor
  · intro h
    obtain ⟨front, after, hsplit⟩ := List.append_of_mem h
    have hne : l ≠ [] := by
      rintro rfl
      cases h
    refine ⟨front, after ++ [l.getLast hne], by simp, ?_⟩
    rw [← List.cons_append, ← List.append_assoc, ← hsplit, List.dropLast_append_getLast]
  · rintro ⟨front, rest, hne, rfl⟩
    rw [List.dropLast_append_of_ne_nil (List.cons_ne_nil _ _), List.dropLast_cons_of_ne_nil hne]
    simp

namespace FileTree

variable {t inner : FileTree} {names : List FileName} {content : ByteArray}

/-- Whether names lead from a folder to a file, through folders none of which is ignored. -/
structure Reaches (ignored : List String) (t : FileTree) (names : List FileName)
    (content : ByteArray) : Prop where
  descend?_eq : t.descend? names = some (.file content)
  not_ignored : ∀ folder ∈ ignored, FileName.ofString folder ∉ names.dropLast

theorem descend?_append (t : FileTree) (front rest : List FileName) :
    t.descend? (front ++ rest) = (t.descend? front).bind fun inner => inner.descend? rest := by
  induction front generalizing t with
  | nil => rfl
  | cons name front ih =>
    rw [List.cons_append, descend?, descend?, Option.bind_assoc]
    exact congrArg _ (funext fun inner => ih inner)

theorem kind_eq_file_iff : t.kind = .file ↔ ∃ content, t = .file content := by
  cases t <;> simp [kind]

/-- Names lead on from a folder only. -/
theorem kind_eq_folder_of_descend? (hne : names ≠ []) (h : t.descend? names = some inner) :
    t.kind = .folder := by
  obtain ⟨name, rest, rfl⟩ := List.exists_cons_of_ne_nil hne
  obtain ⟨child, hchild, -⟩ := Option.bind_eq_some_iff.mp h
  exact isFolder_iff_kind.mp (isFolder_of_child? hchild)

theorem names_ne_nil_of_file (ht : t.isFolder = true) (h : t.descend? names = some (.file content)) :
    names ≠ [] := by
  rintro rfl
  rw [Option.some.inj h] at ht
  cases ht

end FileTree

namespace Load

variable {w : Workspace} {options : LoadOptions} {root : Root} {place : Place} {label id : String}
  {names : List FileName} {content : ByteArray} {language : Language} {file : SourceFile}
  {entry : WalkEntry}

/-! ## What is admitted -/

theorem admits_start (kind : EntryKind) : admits options ⟨[], kind⟩ = true := rfl

theorem admits_file (names : List FileName) : admits options ⟨names, .file⟩ = true := by
  rw [admits]
  cases names.getLast? <;> rfl

/-- A folder is admitted unless its name is one of the ignored. -/
theorem admits_folder_iff {front : List FileName} {name : FileName} :
    admits options ⟨front ++ [name], .folder⟩ = true ↔
      ∀ folder ∈ options.ignoredFolders, name ≠ .ofString folder := by
  simp only [admits, List.getLast?_concat]
  cases htext : name.text? with
  | none =>
    refine iff_of_true rfl fun folder _ heq => ?_
    rw [FileName.text?_eq_some_iff.mpr heq] at htext
    cases htext
  | some text =>
    rw [FileName.text?_eq_some_iff.mp htext]
    simp only [Option.all_some, Bool.not_eq_true', List.contains_eq_mem, decide_eq_false_iff_not]
    constructor
    · intro hmem folder hfolder heq
      have hsame := congrArg FileName.lossy heq
      rw [FileName.lossy_ofString, FileName.lossy_ofString] at hsame
      exact hmem (hsame ▸ hfolder)
    · exact fun h hmem => h text hmem rfl

/-- The files that are visited are those that names lead to through folders that are not ignored. -/
theorem visits_file_iff {r : WalkRequest} (hadmits : r.admits = admits options) :
    r.Visits ⟨names, .file⟩ ↔ ∃ content, r.tree.Reaches options.ignoredFolders names content := by
  constructor
  · rintro ⟨⟨t, ht, hkind⟩, hadmitted⟩
    obtain ⟨content, rfl⟩ := FileTree.kind_eq_file_iff.mp hkind
    refine ⟨content, ht, fun folder hfolder hmem => ?_⟩
    obtain ⟨front, rest, hne, rfl⟩ := mem_dropLast_iff.mp hmem
    rw [List.append_cons, FileTree.descend?_append] at ht
    obtain ⟨inner, hinner, hrest⟩ := Option.bind_eq_some_iff.mp ht
    have hadmit := hadmitted _ inner (by simp) hinner
    rw [hadmits, FileTree.kind_eq_folder_of_descend? hne hrest, admits_folder_iff] at hadmit
    exact hadmit folder hfolder rfl
  · rintro ⟨content, hfile, hignored⟩
    refine ⟨⟨_, hfile, rfl⟩, fun front t hfront ht => ?_⟩
    rw [hadmits]
    obtain ⟨rest, rfl⟩ := hfront
    rw [FileTree.descend?_append, ht] at hfile
    cases rest with
    | nil =>
      rw [Option.some.inj hfile]
      exact admits_file front
    | cons second rest =>
      rw [FileTree.kind_eq_folder_of_descend? (List.cons_ne_nil _ _) hfile]
      rcases List.eq_nil_or_concat front with rfl | ⟨before, name, rfl⟩
      · exact admits_start _
      · rw [List.concat_eq_append] at hignored ⊢
        refine admits_folder_iff.mpr fun folder hfolder heq => hignored folder hfolder ?_
        exact mem_dropLast_iff.mpr ⟨before, second :: rest, List.cons_ne_nil _ _, by simp [heq]⟩

/-! ## What becomes of a file -/

theorem hasZeroFrom_eq_true_iff {i : Nat} :
    hasZeroFrom content i = true ↔ ∃ k, i ≤ k ∧ ∃ h : k < content.size, content[k] = 0 := by
  fun_induction hasZeroFrom content i with
  | case1 i h hzero => exact iff_of_true rfl ⟨i, Nat.le_refl i, h, hzero⟩
  | case2 i h hzero ih =>
    rw [ih]
    constructor
    · rintro ⟨k, hk, hlt, hbyte⟩
      exact ⟨k, by omega, hlt, hbyte⟩
    · rintro ⟨k, hk, hlt, hbyte⟩
      have hne : i ≠ k := by
        rintro rfl
        exact hzero hbyte
      exact ⟨k, by omega, hlt, hbyte⟩
  | case3 i h =>
    refine iff_of_false Bool.false_ne_true ?_
    rintro ⟨k, hk, hlt, -⟩
    omega

theorem isBinary_eq_true_iff : isBinary content = true ↔ 0 ∈ content.data := by
  rw [isBinary, hasZeroFrom_eq_true_iff, Array.mem_iff_getElem]
  constructor
  · rintro ⟨k, -, h⟩
    exact ⟨k, h⟩
  · rintro ⟨k, h⟩
    exact ⟨k, Nat.zero_le k, h⟩

theorem exceeds_eq_true_iff {limit : Option Nat} :
    exceeds limit content = true ↔ ∃ most ∈ limit, most < content.size := by
  cases limit <;> simp [exceeds]

theorem fateOfContent_eq_loaded_iff :
    fateOfContent options label id language content = .loaded file ↔
      (∀ most ∈ options.maxFileSize, content.size ≤ most) ∧ 0 ∉ content.data ∧
        file = ⟨id, label, language.tag, content⟩ := by
  have hsize : (∀ most ∈ options.maxFileSize, content.size ≤ most) ↔
      ¬ exceeds options.maxFileSize content = true := by
    rw [exceeds_eq_true_iff]
    simp only [not_exists, not_and, Nat.not_lt]
  rw [hsize, ← isBinary_eq_true_iff, fateOfContent]
  cases exceeds options.maxFileSize content <;> cases isBinary content <;> simp [eq_comm]

/-- The identifier of a file: the names that lead to it, as texts, with a slash for each
backslash. -/
def fileId (names : List FileName) : String :=
  Path.withSlashes ("/".intercalate (names.map FileName.lossy))

/-- The identifier of a file is found below the path of its root. -/
theorem fileId?_pathOf (hpath : root.path ≠ "") (hne : names ≠ [])
    (hnames : ∀ name ∈ names, name.IsProper) :
    Path.fileId? root.path (pathOf root.path names) = some (fileId names) := by
  refine Path.fileId?_join_intercalate hpath (mt List.map_eq_nil_iff.mp hne) ?_ ?_
  · exact List.forall_mem_map.mpr fun name hname => (hnames name hname).slash_not_mem_lossy
  · exact List.forall_mem_map.mpr fun name hname => (hnames name hname).isIdle_lossy

/-- A file that names lead to has an identifier and is read. -/
theorem fateOfFile_eq (hpath : root.path ≠ "") (hwf : (w.treeAt place).WellFormed)
    (hne : names ≠ []) (hfile : (w.treeAt place).descend? names = some (.file content)) :
    fateOfFile w options root place names = (languageOf? names).elim .unknownLanguage
      fun language => fateOfContent options root.label (fileId names) language content := by
  rw [fateOfFile]
  cases languageOf? names with
  | none => rfl
  | some language =>
    simp only [fileId?_pathOf hpath hne (hwf.isProper_of_descend? hfile),
      Workspace.readFrom_of_descend? hwf hfile, Option.elim_some]

/-- Whether a source file is a found file under a label. -/
structure Represents (label : String) (f : FoundFile) (s : SourceFile) : Prop where
  id : s.id = fileId f.names
  revision : s.revision = label
  language : ∃ language, languageOf? f.names = some language ∧ s.language = language.tag
  content : s.content = f.content

/-- Whether a file below a folder is one to be loaded. -/
@[mk_iff]
structure Eligible (options : LoadOptions) (folder : FileTree) (f : FoundFile) : Prop where
  reaches : folder.Reaches options.ignoredFolders f.names f.content
  language : ∃ language, languageOf? f.names = some language
  size_le : ∀ most ∈ options.maxFileSize, f.content.size ≤ most
  zero_not_mem : 0 ∉ f.content.data

/-- Whether an entry of a walk is in a tree. -/
def Stands (t : FileTree) (e : WalkEntry) : Prop :=
  ∃ inner, t.descend? e.names = some inner ∧ inner.kind = e.kind

/-- What becomes of an entry that is there: it is passed over unless it is a file. -/
theorem fate_ok_cases (hpath : root.path ≠ "") (hwf : (w.treeAt place).WellFormed)
    (hentry : Stands (w.treeAt place) entry) :
    (fate w options root place (.ok entry) = .passed ∧ (entry.names = [] ∨ entry.kind ≠ .file)) ∨
      ∃ content, entry.names ≠ [] ∧ entry.kind = .file ∧
        (w.treeAt place).descend? entry.names = some (.file content) ∧
        fate w options root place (.ok entry) = (languageOf? entry.names).elim .unknownLanguage
          fun language => fateOfContent options root.label (fileId entry.names) language content := by
  obtain ⟨t, ht, hkind⟩ := hentry
  rw [fate]
  by_cases hfile : entry.names ≠ [] ∧ entry.kind = .file
  · obtain ⟨content, rfl⟩ := FileTree.kind_eq_file_iff.mp (hkind.trans hfile.2)
    refine .inr ⟨content, hfile.1, hfile.2, ht, ?_⟩
    rw [if_neg (by simp [hfile.1, hfile.2]), fateOfFile_eq hpath hwf hfile.1 ht]
  · refine .inl ⟨if_pos ?_, ?_⟩
    · simpa [Classical.or_iff_not_imp_left] using hfile
    · simpa [Classical.or_iff_not_imp_left] using hfile

/-- An entry is loaded if it is a file of a language that is not too large and has no zero. -/
theorem fate_ok_eq_loaded_iff (hpath : root.path ≠ "") (hwf : (w.treeAt place).WellFormed)
    (hentry : Stands (w.treeAt place) entry) :
    fate w options root place (.ok entry) = .loaded file ↔
      entry.names ≠ [] ∧ entry.kind = .file ∧ ∃ content language,
        (w.treeAt place).descend? entry.names = some (.file content) ∧
        languageOf? entry.names = some language ∧
        (∀ most ∈ options.maxFileSize, content.size ≤ most) ∧ 0 ∉ content.data ∧
        file = ⟨fileId entry.names, root.label, language.tag, content⟩ := by
  rcases fate_ok_cases hpath hwf hentry with ⟨hpassed, hno⟩ | ⟨content, hne, hkind, hfile, hfate⟩
  · rw [hpassed]
    refine iff_of_false (by simp) ?_
    rintro ⟨hne, hkind, -⟩
    exact hno.elim hne fun h => h hkind
  · rw [hfate]
    cases hlanguage : languageOf? entry.names with
    | none => simp
    | some language =>
      rw [Option.elim_some, fateOfContent_eq_loaded_iff]
      simp [hne, hkind, hfile]

/-! ## Loaded files -/

variable {results : List (Except ReadError WalkEntry)} {walk : Walker} {f : FoundFile}

/-- The file that an entry of a walk is, if it is loaded. -/
def foundFile? (w : Workspace) (options : LoadOptions) (root : Root) (place : Place)
    (entry : WalkEntry) : Option FoundFile :=
  (fate w options root place (.ok entry)).file?.map fun file => ⟨entry.names, file.content⟩

theorem file?_eq_some_iff {fate : Fate} : fate.file? = some file ↔ fate = .loaded file := by
  cases fate <;> simp [Fate.file?]

theorem foundFile?_eq_some_iff : foundFile? w options root place entry = some f ↔
    ∃ file, fate w options root place (.ok entry) = .loaded file ∧
      ⟨entry.names, file.content⟩ = f := by
  simp only [foundFile?, Option.map_eq_some_iff, file?_eq_some_iff]

theorem represents_of_fate (hpath : root.path ≠ "") (hwf : (w.treeAt place).WellFormed)
    (hentry : Stands (w.treeAt place) entry)
    (h : fate w options root place (.ok entry) = .loaded file) :
    Represents root.label ⟨entry.names, file.content⟩ file := by
  obtain ⟨-, -, content, language, -, hlanguage, -, -, rfl⟩ :=
    (fate_ok_eq_loaded_iff hpath hwf hentry).mp h
  exact ⟨rfl, rfl, ⟨language, hlanguage, rfl⟩, rfl⟩

/-- The loaded files stand for the entries that are loaded, one for one. -/
theorem forall₂_represents (hpath : root.path ≠ "") (hwf : (w.treeAt place).WellFormed)
    (h : ∀ e, .ok e ∈ results → Stands (w.treeAt place) e) :
    List.Forall₂ (Represents root.label)
      ((results.filterMap Except.toOption).filterMap (foundFile? w options root place))
      ((results.map (fate w options root place)).filterMap Fate.file?) := by
  induction results with
  | nil => exact .nil
  | cons result results ih =>
    have hrest := ih fun e he => h e (List.mem_cons_of_mem _ he)
    cases result with
    | error cause => exact hrest
    | ok entry =>
      change List.Forall₂ _ (List.filterMap _ (entry :: _)) (List.filterMap _ (_ :: _))
      cases hfile : (fate w options root place (.ok entry)).file? with
      | none =>
        rw [List.filterMap_cons_none (by rw [foundFile?, hfile]; rfl),
          List.filterMap_cons_none hfile]
        exact hrest
      | some file =>
        rw [List.filterMap_cons_some (by rw [foundFile?, hfile]; rfl),
          List.filterMap_cons_some hfile]
        exact .cons (represents_of_fate hpath hwf (h entry List.mem_cons_self)
          (file?_eq_some_iff.mp hfile)) hrest

/-- The files on the walk of a root that are loaded. -/
def loadedFound (walk : Walker) (w : Workspace) (options : LoadOptions) (root : Root)
    (place : Place) : List FoundFile :=
  (walk.entries (request w options place)).filterMap (foundFile? w options root place)

theorem mem_entries_iff {r : WalkRequest} : entry ∈ walk.entries r ↔ .ok entry ∈ walk r := by
  rw [Walker.entries, List.mem_filterMap]
  constructor
  · rintro ⟨result, hresult, hentry⟩
    cases result with
    | error cause => cases hentry
    | ok found => exact Option.some.inj hentry ▸ hresult
  · exact fun h => ⟨_, h, rfl⟩

theorem loadedFound_pairwise {R : List FileName → List FileName → Prop}
    (h : (walk.entries (request w options place)).Pairwise fun e f => R e.names f.names) :
    (loadedFound walk w options root place).Pairwise fun f g => R f.names g.names := by
  refine h.filterMap _ fun e e' he f hf g hg => ?_
  obtain ⟨file, -, rfl⟩ := foundFile?_eq_some_iff.mp hf
  obtain ⟨file', -, rfl⟩ := foundFile?_eq_some_iff.mp hg
  exact he

/-- On a lawful walk the files that are loaded are the eligible ones. -/
theorem mem_loadedFound_iff (hwalk : walk.Lawful) (hpath : root.path ≠ "")
    (hwf : (w.treeAt place).WellFormed) (hfolder : (w.treeAt place).isFolder = true)
    (hobey : options.obeyIgnoreFiles = false) :
    f ∈ loadedFound walk w options root place ↔ Eligible options (w.treeAt place) f := by
  have hvisits := hwalk.visits (request w options place) hwf
    ⟨hobey, by simp [request, hobey]⟩
  rw [loadedFound, List.mem_filterMap, eligible_iff]
  constructor
  · rintro ⟨entry, hentry, hfound⟩
    obtain ⟨file, hfate, rfl⟩ := foundFile?_eq_some_iff.mp hfound
    have hvisit := (hvisits entry).mp hentry
    obtain ⟨-, hkind, content, language, hfile, hlanguage, hsize, hzero, rfl⟩ :=
      (fate_ok_eq_loaded_iff hpath hwf hvisit.exists_tree).mp hfate
    obtain ⟨names, kind⟩ := entry
    obtain rfl : kind = .file := hkind
    obtain ⟨content', hreaches⟩ := (visits_file_iff rfl).mp hvisit
    obtain rfl : content' = content := by
      have hsame := hreaches.descend?_eq.symm.trans hfile
      exact FileTree.file.inj (Option.some.inj hsame)
    exact ⟨hreaches, ⟨language, hlanguage⟩, hsize, hzero⟩
  · rintro ⟨hreaches, ⟨language, hlanguage⟩, hsize, hzero⟩
    have hvisit : (request w options place).Visits ⟨f.names, .file⟩ :=
      (visits_file_iff rfl).mpr ⟨f.content, hreaches⟩
    refine ⟨⟨f.names, .file⟩, (hvisits _).mpr hvisit, foundFile?_eq_some_iff.mpr
      ⟨⟨fileId f.names, root.label, language.tag, f.content⟩, ?_, rfl⟩⟩
    exact (fate_ok_eq_loaded_iff hpath hwf hvisit.exists_tree).mpr
      ⟨FileTree.names_ne_nil_of_file hfolder hreaches.descend?_eq, rfl, f.content, language,
        hreaches.descend?_eq, hlanguage, hsize, hzero, rfl⟩

/-! ## Counts -/

variable {fates : List Fate}

theorem foldl_counterAdd {α : Type} (f : α → Nat) (l : List α) {n : Nat} (hn : n ≤ Counter.most) :
    l.foldl (fun m x => Counter.add m (f x)) n = min (n + sumBy f l) Counter.most := by
  induction l generalizing n with
  | nil => simp [hn]
  | cons x l ih =>
    have hadd : Counter.add n (f x) ≤ Counter.most := Nat.min_le_right _ _
    rw [List.foldl_cons, ih hadd, Counter.add, sumBy_cons]
    omega

/-- The counts of what becomes of the results of a walk. -/
def countAll (fates : List Fate) : LoadStatistics :=
  fates.foldl (fun s f => s.add f.counts) {}

/-- A count is that of all fates, or the greatest count. -/
theorem countAll_eq_min (field : LoadStatistics → Nat) (hzero : field {} = 0)
    (hadd : ∀ s t, field (s.add t) = Counter.add (field s) (field t)) (fates : List Fate) :
    field (countAll fates) = min (sumBy (fun f => field f.counts) fates) Counter.most := by
  have hfold (s : LoadStatistics) : field (fates.foldl (fun s f => s.add f.counts) s) =
      fates.foldl (fun n f => Counter.add n (field f.counts)) (field s) := by
    induction fates generalizing s with
    | nil => rfl
    | cons f fates ih => rw [List.foldl_cons, List.foldl_cons, ih, hadd]
  rw [countAll, hfold, hzero, foldl_counterAdd _ _ (Nat.zero_le _), Nat.zero_add]

theorem sumBy_filterMap {α β : Type} (p : α → Option β) (g : β → Nat) (l : List α) :
    sumBy g (l.filterMap p) = sumBy (fun x => ((p x).map g).getD 0) l := by
  induction l with
  | nil => rfl
  | cons x l ih => cases h : p x <;> simp [h, ih]

theorem sumBy_one {α : Type} (l : List α) : sumBy (fun _ => 1) l = l.length := by
  induction l with
  | nil => rfl
  | cons x l ih => rw [sumBy_cons, ih, List.length_cons, Nat.add_comm]

theorem loadedFiles_counts (fate : Fate) :
    fate.counts.loadedFiles = (fate.file?.map fun _ => 1).getD 0 := by
  cases fate with
  | failed cause | unreadable cause => cases cause <;> rfl
  | _ => rfl

theorem loadedBytes_counts (fate : Fate) :
    fate.counts.loadedBytes = (fate.file?.map (·.content.size)).getD 0 := by
  cases fate with
  | failed cause | unreadable cause => cases cause <;> rfl
  | _ => rfl

/-- Whether nothing went wrong. -/
def Fate.IsSound (fate : Fate) : Prop :=
  ∀ cause, fate ≠ .failed cause ∧ fate ≠ .unreadable cause

/-- A file of a language with which nothing went wrong is loaded, or skipped for its size or its
bytes. -/
theorem sumBy_candidateFiles (h : ∀ fate ∈ fates, fate.IsSound) :
    sumBy (·.counts.candidateFiles) fates = sumBy (·.counts.loadedFiles) fates +
      sumBy (·.counts.skippedTooLarge) fates + sumBy (·.counts.skippedBinary) fates := by
  induction fates with
  | nil => rfl
  | cons fate fates ih =>
    obtain ⟨hfate, hfates⟩ := List.forall_mem_cons.mp h
    have hone : fate.counts.candidateFiles = fate.counts.loadedFiles +
        fate.counts.skippedTooLarge + fate.counts.skippedBinary := by
      cases fate with
      | failed cause => exact absurd rfl (hfate cause).1
      | unreadable cause => exact absurd rfl (hfate cause).2
      | _ => rfl
    simp only [sumBy_cons, ih hfates, hone]
    omega

theorem sumBy_eq_zero {α : Type} {f : α → Nat} {l : List α} (h : ∀ x ∈ l, f x = 0) :
    sumBy f l = 0 := by
  induction l with
  | nil => rfl
  | cons x l ih =>
    obtain ⟨hx, hl⟩ := List.forall_mem_cons.mp h
    rw [sumBy_cons, hx, ih hl]

theorem Fate.IsSound.counts {fate : Fate} (h : fate.IsSound) :
    fate.counts.skippedNotFound = 0 ∧ fate.counts.skippedPermissionDenied = 0 ∧
      fate.counts.skippedWalkErrors = 0 := by
  cases fate with
  | failed cause => exact absurd rfl (h cause).1
  | unreadable cause => exact absurd rfl (h cause).2
  | _ => exact ⟨rfl, rfl, rfl⟩

/-- Whether counts are those of loaded files when nothing went wrong: every candidate is loaded or
skipped for its size or its bytes, and the files and their bytes are counted, each up to the greatest
count. -/
structure Accounts (statistics : LoadStatistics) (files : List SourceFile) : Prop where
  candidateFiles : statistics.candidateFiles = min
    (statistics.loadedFiles + statistics.skippedTooLarge + statistics.skippedBinary) Counter.most
  loadedFiles : statistics.loadedFiles = min files.length Counter.most
  loadedBytes : statistics.loadedBytes = min (sumBy (·.content.size) files) Counter.most
  errors : statistics.skippedNotFound = 0 ∧ statistics.skippedPermissionDenied = 0 ∧
    statistics.skippedWalkErrors = 0

theorem accounts_countAll (h : ∀ fate ∈ fates, fate.IsSound) :
    Accounts (countAll fates) (fates.filterMap Fate.file?) where
  candidateFiles := by
    have hsum := sumBy_candidateFiles h
    have hcandidates := countAll_eq_min (·.candidateFiles) rfl (fun _ _ => rfl) fates
    have hloaded := countAll_eq_min (·.loadedFiles) rfl (fun _ _ => rfl) fates
    have hlarge := countAll_eq_min (·.skippedTooLarge) rfl (fun _ _ => rfl) fates
    have hbinary := countAll_eq_min (·.skippedBinary) rfl (fun _ _ => rfl) fates
    omega
  loadedFiles := by
    rw [countAll_eq_min (·.loadedFiles) rfl (fun _ _ => rfl)]
    simp only [loadedFiles_counts, ← sumBy_filterMap, sumBy_one]
  loadedBytes := by
    rw [countAll_eq_min (·.loadedBytes) rfl (fun _ _ => rfl)]
    simp only [loadedBytes_counts, ← sumBy_filterMap]
  errors := by
    rw [countAll_eq_min (·.skippedNotFound) rfl (fun _ _ => rfl),
      countAll_eq_min (·.skippedPermissionDenied) rfl (fun _ _ => rfl),
      countAll_eq_min (·.skippedWalkErrors) rfl (fun _ _ => rfl),
      sumBy_eq_zero fun fate hfate => (h fate hfate).counts.1,
      sumBy_eq_zero fun fate hfate => (h fate hfate).counts.2.1,
      sumBy_eq_zero fun fate hfate => (h fate hfate).counts.2.2]
    exact ⟨rfl, rfl, rfl⟩

theorem isSound_fateOfContent :
    (fateOfContent options label id language content).IsSound := by
  intro cause
  rw [fateOfContent]
  split
  · simp
  · split <;> simp

/-- Nothing goes wrong with an entry that is there. -/
theorem isSound_fate_ok (hpath : root.path ≠ "") (hwf : (w.treeAt place).WellFormed)
    (hentry : Stands (w.treeAt place) entry) :
    (fate w options root place (.ok entry)).IsSound := by
  rcases fate_ok_cases hpath hwf hentry with ⟨hpassed, -⟩ | ⟨content, -, -, -, hfate⟩
  · rw [hpassed]
    exact fun cause => by simp
  · rw [hfate]
    cases languageOf? entry.names with
    | none => exact fun cause => by simp
    | some language => exact isSound_fateOfContent

/-! ## Loading a root -/

variable {loaded : Loaded}

theorem placeOf_eq_ok_iff : placeOf w root = .ok place ↔
    w.find root.path = .ok place ∧ (w.treeAt place).isFolder = true := by
  rw [placeOf]
  cases w.find root.path with
  | error e => simp
  | ok found =>
    by_cases h : (w.treeAt found).isFolder = true
    · simp only [h, if_true, Except.ok.injEq]
      exact ⟨fun heq => ⟨heq, heq ▸ h⟩, And.left⟩
    · simp only [h, if_false, Except.ok.injEq, reduceCtorEq, false_iff, not_and]
      rintro rfl
      exact h

/-- What becomes of the results of the walk of a root. -/
def fatesOf (walk : Walker) (w : Workspace) (options : LoadOptions) (root : Root) (place : Place) :
    List Fate :=
  (walk (request w options place)).map (fate w options root place)

theorem loadWith_singleton_eq_ok_iff : loadWith walk w options [root] = .ok loaded ↔
    ∃ place, w.find root.path = .ok place ∧ (w.treeAt place).isFolder = true ∧
      ⟨(fatesOf walk w options root place).filterMap Fate.file?,
        countAll (fatesOf walk w options root place)⟩ = loaded := by
  have hload : loadWith walk w options [root] = (placeOf w root).map fun place =>
      ⟨(fatesOf walk w options root place).filterMap Fate.file?,
        countAll (fatesOf walk w options root place)⟩ := by
    rw [loadWith, List.mapM_cons, List.mapM_nil]
    cases placeOf w root <;> rfl
  simp only [hload, map_eq_ok_iff, placeOf_eq_ok_iff, and_assoc]

theorem path_ne_empty_of_find (h : w.find root.path = .ok place) : root.path ≠ "" := by
  intro hempty
  rw [hempty, Workspace.find, if_neg (by decide), if_pos rfl] at h
  cases h

end Load

open Load

/-- Without ignore files, loading a folder on a lawful walk takes its eligible files, each once and
in the order of the walk, and the counts are those of the files. -/
theorem load_eligible (walk : Walker) (hwalk : walk.Lawful) (w : Workspace)
    (hw : w.tree.WellFormed) (options : LoadOptions) (hobey : options.obeyIgnoreFiles = false)
    (root : Root) (entries : List (FileName × FileTree))
    (hroot : w.look root.path = .ok (.folder entries)) :
    ∃ loaded, loadWith walk w options [root] = .ok loaded ∧
      (∃ eligible : List FoundFile, (∀ f, f ∈ eligible ↔ Eligible options (.folder entries) f) ∧
        eligible.Pairwise FoundFile.Before ∧
        List.Forall₂ (Represents root.label) eligible loaded.files) ∧
      Accounts loaded.statistics loaded.files := by
  obtain ⟨place, hfind, htree⟩ := Workspace.look_eq_ok_iff.mp hroot
  have hwf := Workspace.wellFormed_find hw hfind
  have hpath := path_ne_empty_of_find hfind
  have hfolder : (w.treeAt place).isFolder = true := by rw [htree]; rfl
  have hplain : (request w options place).IsPlain := ⟨hobey, by simp [request, hobey]⟩
  have hstands (e : WalkEntry) (he : .ok e ∈ walk (request w options place)) :
      Stands (w.treeAt place) e :=
    ((hwalk.visits (request w options place) hwf hplain e).mp (mem_entries_iff.mpr he)).exists_tree
  refine ⟨_, loadWith_singleton_eq_ok_iff.mpr ⟨place, hfind, hfolder, rfl⟩,
    ⟨loadedFound walk w options root place, fun f => ?_, ?_, ?_⟩, accounts_countAll ?_⟩
  · rw [← htree]
    exact mem_loadedFound_iff hwalk hpath hwf hfolder hobey
  · exact loadedFound_pairwise (hwalk.ordered (request w options place) hwf hplain)
  · exact forall₂_represents hpath hwf hstands
  · intro fate hfate
    obtain ⟨result, hresult, rfl⟩ := List.mem_map.mp hfate
    cases result with
    | error cause => cases hwalk.succeeds (request w options place) hwf hplain _ hresult
    | ok e => exact isSound_fate_ok hpath hwf (hstands e hresult)

/-- A name that is no text. -/
def brokenName : FileName := ⟨[0xff, 0x2e, 0x63]⟩

/-- A folder with two files to be loaded, one of them of a name that is no text. Of the others one is
too large, one has a zero, one has no language, one is in an ignored folder, one is a link and one is
a pipe. -/
def mixedFolder : Workspace where
  tree := (FileTree.folder [])
    |>.put ["src", "m.go"] (.file "x".toUTF8)
    |>.put [brokenName] (.file "y".toUTF8)
    |>.put ["large.c"] (.file "long".toUTF8)
    |>.put ["zero.c"] (.file ⟨#[0]⟩)
    |>.put ["notes"] (.file "x".toUTF8)
    |>.put ["dist", "d.c"] (.file "x".toUTF8)
    |>.put ["l.c"] (.link "src/m.go".toUTF8.data.toList)
    |>.put ["p.c"] (.special "x".toUTF8)

theorem wellFormed_mixedFolder : mixedFolder.tree.WellFormed := by
  have hempty := FileTree.WellFormed.emptyFolder
  refine (((((((hempty.put (.file _) ?_).put (.file _) ?_).put (.file _) ?_).put (.file _) ?_).put
    (.file _) ?_).put (.file _) ?_).put (.link _) ?_).put (.special _) ?_ <;> decide

/-- Options that leave out files of more than three bytes. -/
def smallFiles : LoadOptions where
  maxFileSize := some 3
  obeyIgnoreFiles := false

theorem load_eligible_mixedFolder :
    Eligible smallFiles mixedFolder.tree ⟨[brokenName], "y".toUTF8⟩ ∧
    fileId [brokenName] = "\ufffd.c" ∧
    ¬ Eligible smallFiles mixedFolder.tree ⟨["dist", "d.c"], "x".toUTF8⟩ ∧
    ∃ loaded, load mixedFolder smallFiles [⟨"/", "r"⟩] = .ok loaded ∧
      (∃ eligible : List FoundFile,
        (∀ f, f ∈ eligible ↔ Eligible smallFiles (.folder mixedFolder.tree.entries) f) ∧
        eligible.Pairwise FoundFile.Before ∧
        List.Forall₂ (Represents "r") eligible loaded.files) ∧
      Accounts loaded.statistics loaded.files := by
  refine ⟨⟨⟨rfl, by decide⟩, ⟨.c, by decide +kernel⟩, by decide, by decide +kernel⟩,
    by decide +kernel, ?_, ?_⟩
  · intro h
    exact absurd h.reaches.not_ignored (by decide)
  · exact load_eligible Walk.visit Walk.lawful_visit mixedFolder wellFormed_mixedFolder smallFiles
      rfl ⟨"/", "r"⟩ mixedFolder.tree.entries
      (Workspace.look_eq_ok_iff.mpr ⟨[], Workspace.find_slash rfl, rfl⟩)

end CloneDetection
