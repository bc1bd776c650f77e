import CloneDetection.Path.Roots
import Mathlib.Data.List.Induction
import Mathlib.Data.List.Nodup

/-!
# The labels of roots

A root is labelled by its name (`rootName`), and by its name with its number (`numbered`) where an
earlier label is that name. Two numbered labels differ, for the numbers do (`numbered_inj_right`),
and every name is a label (`mem_labels_of_mem_rootNames`). So labels clash exactly when the name of
a root is taken and its numbered name is the name of an earlier root (`nodup_labels_iff`), which
takes a directory with the sign `#` in its name (`nodup_labels_of_names`).

A plan has each of its paths once, and the label of its target is that of the root with the
target's path (`Plan.make_spec`).
-/

namespace CloneDetection

namespace Path

variable {name root : String} {roots : List String} {index : Nat}

/-! ## Names and numbered names -/

/-- The name of the root with a number. -/
def rootName (index : Nat) (root : String) : String :=
  (fileName? root).getD s!"rev{index}"

/-- The names of some roots, in their order. -/
def rootNames (roots : List String) : List String :=
  roots.mapIdx rootName

/-- A name with a number. -/
def numbered (name : String) (index : Nat) : String :=
  s!"{name}#{index}"

/-- The label of a root with a number, when some labels are in use. -/
def labelOf (used : List String) (index : Nat) (root : String) : String :=
  if used.contains (rootName index root) then numbered (rootName index root) index
  else rootName index root

theorem toList_numbered (name : String) (index : Nat) :
    (numbered name index).toList = name.toList ++ '#' :: Nat.toDigits 10 index := by
  have hname : (toString name).toList = name.toList := rfl
  have hsign : (toString "#").toList = ['#'] := rfl
  simp [numbered, hname, hsign]

theorem sign_not_mem_toDigits (index : Nat) : '#' ∉ Nat.toDigits 10 index := fun h =>
  absurd (Nat.isDigit_of_mem_toDigits (by decide) (by decide) h) (by decide)

/-- A numbered name ends with its number. -/
theorem numbered_inj_right {other : String} {number : Nat}
    (h : numbered name index = numbered other number) : index = number := by
  have hending : ∀ (name : String) (index : Nat),
      (numbered name index).toList.reverse.takeWhile (· != '#') =
        (Nat.toDigits 10 index).reverse := by
    intro name index
    have hdigits : ∀ c ∈ (Nat.toDigits 10 index).reverse, (c != '#') = true := by
      intro c hc
      rw [bne_iff_ne]
      rintro rfl
      exact sign_not_mem_toDigits index (List.mem_reverse.mp hc)
    rw [toList_numbered, List.reverse_append, List.reverse_cons, List.append_assoc,
      List.takeWhile_append_of_pos hdigits, List.singleton_append,
      List.takeWhile_cons_of_neg (by simp), List.append_nil]
  have hdigits : Nat.toDigits 10 index = Nat.toDigits 10 number :=
    List.reverse_injective (by rw [← hending name, h, hending other])
  simpa using congrArg (Nat.ofDigitChars 10 · 0) hdigits

theorem sign_mem_numbered (name : String) (index : Nat) : '#' ∈ (numbered name index).toList := by
  simp [toList_numbered]

theorem sign_not_mem_rootName (h : ∀ name ∈ fileName? root, '#' ∉ name.toList) (index : Nat) :
    '#' ∉ (rootName index root).toList := by
  unfold rootName
  cases hname : fileName? root with
  | some name => exact h name hname
  | none =>
    have hword : '#' ∉ (toString "rev").toList := by decide
    simpa using ⟨hword, sign_not_mem_toDigits index⟩

/-! ## Labels -/

theorem labelOf_of_mem {used : List String} (h : rootName index root ∈ used) :
    labelOf used index root = numbered (rootName index root) index :=
  if_pos (List.contains_iff_mem.mpr h)

theorem labelOf_of_not_mem {used : List String} (h : rootName index root ∉ used) :
    labelOf used index root = rootName index root :=
  if_neg (mt List.contains_iff_mem.mp h)

/-- It does not matter in which order the labels are. -/
theorem labelOf_congr {used others : List String} (h : ∀ label, label ∈ used ↔ label ∈ others)
    (index : Nat) (root : String) : labelOf used index root = labelOf others index root := by
  by_cases hname : rootName index root ∈ used
  · rw [labelOf_of_mem hname, labelOf_of_mem ((h _).mp hname)]
  · rw [labelOf_of_not_mem hname, labelOf_of_not_mem (mt (h _).mpr hname)]

theorem labelsFrom_cons (index : Nat) (used : List String) (root : String) (rest : List String) :
    labelsFrom index used (root :: rest) = labelOf used index root ::
      labelsFrom (index + 1) (labelOf used index root :: used) rest := rfl

theorem labelsFrom_concat (index : Nat) (used roots : List String) (root : String) :
    labelsFrom index used (roots ++ [root]) = labelsFrom index used roots ++
      [labelOf (labelsFrom index used roots ++ used) (index + roots.length) root] := by
  induction roots generalizing index used with
  | nil => exact labelsFrom_cons index used root []
  | cons first rest ih =>
    rw [List.cons_append, labelsFrom_cons, ih, labelsFrom_cons, List.cons_append,
      List.length_cons, Nat.add_assoc, Nat.add_comm 1]
    congr 3
    refine labelOf_congr (fun label => ?_) _ root
    simp only [List.mem_append, List.mem_cons]
    tauto

/-- The label of the last root depends on those before it. -/
theorem labels_concat (roots : List String) (root : String) :
    labels (roots ++ [root]) = labels roots ++ [labelOf (labels roots) roots.length root] := by
  rw [labels, labelsFrom_concat, List.append_nil, Nat.zero_add, labels]

/-- Every name is a label: a root that is not labelled by its name comes after one that is. -/
theorem mem_labels_of_mem_rootNames (h : name ∈ rootNames roots) : name ∈ labels roots := by
  induction roots using List.reverseRecOn with
  | nil => cases h
  | append_singleton roots root ih =>
    rw [rootNames, List.mapIdx_concat] at h
    rw [labels_concat, List.mem_append, List.mem_singleton]
    rcases List.mem_append.mp h with h | h
    · exact Or.inl (ih h)
    · obtain rfl := List.mem_singleton.mp h
      by_cases hused : rootName roots.length root ∈ labels roots
      · exact Or.inl hused
      · exact Or.inr (labelOf_of_not_mem hused).symm

theorem mem_labels (h : name ∈ labels roots) : name ∈ rootNames roots ∨
    ∃ other, ∃ index < roots.length, name = numbered other index := by
  induction roots using List.reverseRecOn with
  | nil => cases h
  | append_singleton roots root ih =>
    rw [labels_concat, List.mem_append, List.mem_singleton] at h
    rw [rootNames, List.mapIdx_concat, List.mem_append, List.length_append, List.length_singleton]
    rcases h with h | rfl
    · rcases ih h with hname | ⟨other, index, hindex, rfl⟩
      · exact Or.inl (Or.inl hname)
      · exact Or.inr ⟨other, index, by omega, rfl⟩
    · by_cases hused : rootName roots.length root ∈ labels roots
      · rw [labelOf_of_mem hused]
        exact Or.inr ⟨_, roots.length, by omega, rfl⟩
      · rw [labelOf_of_not_mem hused]
        exact Or.inl (Or.inr (List.mem_singleton_self _))

/-- The label of the last root is one that stands before it exactly when its name is taken, and its
numbered name is another's name. -/
theorem labelOf_mem_labels_iff (roots : List String) (root : String) :
    labelOf (labels roots) roots.length root ∈ labels roots ↔
      rootName roots.length root ∈ labels roots ∧
        numbered (rootName roots.length root) roots.length ∈ rootNames roots := by
  by_cases hused : rootName roots.length root ∈ labels roots
  · rw [labelOf_of_mem hused, and_iff_right hused]
    refine ⟨fun h => (mem_labels h).resolve_right ?_, mem_labels_of_mem_rootNames⟩
    -- a numbered label before it has a smaller number
    rintro ⟨other, index, hindex, heq⟩
    have hsame := numbered_inj_right heq
    omega
  · rw [labelOf_of_not_mem hused]
    exact iff_of_false hused fun h => hused h.1

/-- **When labels are distinct.** No root whose name is a label before it has a numbered name that
is the name of a root before it. -/
theorem nodup_labels_iff (roots : List String) : (labels roots).Nodup ↔
    ∀ before root after, roots = before ++ root :: after →
      rootName before.length root ∈ labels before →
        numbered (rootName before.length root) before.length ∉ rootNames before := by
  induction roots using List.reverseRecOn with
  | nil => simp [labels, labelsFrom]
  | append_singleton roots last ih =>
    have hnodup : (labels (roots ++ [last])).Nodup ↔ (labels roots).Nodup ∧
        labelOf (labels roots) roots.length last ∉ labels roots := by
      rw [labels_concat, List.nodup_append_comm, List.singleton_append, List.nodup_cons, and_comm]
    rw [hnodup, ih, labelOf_mem_labels_iff, not_and]
    constructor
    · rintro ⟨hbefore, hlast⟩ before root after hroots
      -- the last root is the one that is looked at, or stands behind it
      rcases List.eq_nil_or_concat after with rfl | ⟨after, other, rfl⟩
      · obtain ⟨rfl, rfl⟩ := List.append_singleton_inj.mp hroots
        exact hlast
      · rw [List.concat_eq_append, ← List.cons_append, ← List.append_assoc] at hroots
        exact hbefore before root after (List.append_singleton_inj.mp hroots).1
    · intro h
      refine ⟨fun before root after hroots => ?_, h roots last [] rfl⟩
      exact h before root (after ++ [last]) (by rw [hroots, List.append_assoc, List.cons_append])

/-- Labels are distinct if no directory has the sign `#` in its name. -/
theorem nodup_labels_of_names
    (h : ∀ root ∈ roots, ∀ name ∈ fileName? root, '#' ∉ name.toList) : (labels roots).Nodup := by
  rw [nodup_labels_iff]
  rintro before root after rfl - hmem
  obtain ⟨index, hindex, hname⟩ := List.mem_mapIdx.mp hmem
  have hother : '#' ∉ (rootName index before[index]).toList :=
    sign_not_mem_rootName (h _ (List.mem_append_left _ (List.getElem_mem hindex))) index
  rw [hname] at hother
  exact hother (sign_mem_numbered _ _)

theorem length_labels (roots : List String) : (labels roots).length = roots.length := by
  induction roots using List.reverseRecOn with
  | nil => rfl
  | append_singleton roots root ih =>
    rw [labels_concat, List.length_append, List.length_append, ih, List.length_singleton,
      List.length_singleton]

end Path

/-! ## Plans -/

namespace Plan

variable {path : String} {paths roots : List String} {base : String} {target : Option String}

theorem mem_addPath_iff {other : String} :
    path ∈ addPath paths other ↔ path ∈ paths ∨ path = other := by
  unfold addPath
  split
  case isTrue h =>
    refine ⟨Or.inl, fun hpath => hpath.elim id ?_⟩
    rintro rfl
    exact List.contains_iff_mem.mp h
  case isFalse => rw [List.mem_append, List.mem_singleton]

theorem nodup_addPath (h : paths.Nodup) (path : String) : (addPath paths path).Nodup := by
  unfold addPath
  split
  case isTrue => exact h
  case isFalse hnew =>
    rw [List.nodup_append_comm, List.singleton_append, List.nodup_cons]
    exact ⟨mt List.contains_iff_mem.mpr hnew, h⟩

theorem mem_foldl_addPath_iff {others : List String} :
    path ∈ others.foldl addPath paths ↔ path ∈ paths ∨ path ∈ others := by
  induction others generalizing paths with
  | nil => simp
  | cons other others ih => rw [List.foldl_cons, ih, mem_addPath_iff, List.mem_cons, or_assoc]

theorem nodup_foldl_addPath (h : paths.Nodup) (others : List String) :
    (others.foldl addPath paths).Nodup := by
  induction others generalizing paths with
  | nil => exact h
  | cons other others ih => exact ih (nodup_addPath h other)

theorem mem_paths_iff : path ∈ Plan.paths base roots target ↔
    ∃ root ∈ roots ++ target.toList, Path.resolve base root = path := by
  rw [Plan.paths, mem_foldl_addPath_iff, or_iff_right List.not_mem_nil, List.mem_map]

theorem map_path_make (base : String) (roots : List String) (target : Option String) :
    (make base roots target).roots.map Root.path = Plan.paths base roots target := by
  rw [make, ← List.map_uncurry_zip_eq_zipWith, List.map_map]
  exact List.map_fst_zip (Nat.le_of_eq (Path.length_labels _).symm)

theorem map_label_make (base : String) (roots : List String) (target : Option String) :
    (make base roots target).roots.map Root.label =
      Path.labels (Plan.paths base roots target) := by
  rw [make, ← List.map_uncurry_zip_eq_zipWith, List.map_map]
  exact List.map_snd_zip (Nat.le_of_eq (Path.length_labels _))

theorem nodup_map_path_make (base : String) (roots : List String) (target : Option String) :
    ((make base roots target).roots.map Root.path).Nodup := by
  rw [map_path_make]
  exact nodup_foldl_addPath List.nodup_nil _

/-- The label of the target is that of the root with its path. -/
theorem exists_target_root (base : String) (roots : List String) (given : String) :
    let plan := make base roots (some given)
    ∃ root ∈ plan.roots, root.path = Path.resolve base given ∧ plan.target = some root.label := by
  intro plan
  have hmem : Path.resolve base given ∈ plan.roots.map Root.path := by
    rw [map_path_make, mem_paths_iff]
    exact ⟨given, by simp, rfl⟩
  obtain ⟨root, hroot, hpath⟩ := List.mem_map.mp hmem
  cases hfound : plan.roots.find? (·.path == Path.resolve base given) with
  | none =>
    rw [List.find?_eq_none] at hfound
    exact absurd (beq_iff_eq.mpr hpath) (hfound root hroot)
  | some found =>
    refine ⟨found, List.mem_of_find?_eq_some hfound, by simpa using List.find?_some hfound, ?_⟩
    exact congrArg (Option.map Root.label) hfound

/-- One root has the path of the target, and if labels are distinct, one has its label. -/
theorem exists_unique_target_root (base : String) (roots : List String) (given : String) :
    let plan := make base roots (some given)
    ∃ root ∈ plan.roots, plan.target = some root.label ∧
      (∀ other ∈ plan.roots, other.path = Path.resolve base given ↔ other = root) ∧
      ((plan.roots.map Root.label).Nodup →
        ∀ other ∈ plan.roots, plan.target = some other.label ↔ other = root) := by
  intro plan
  obtain ⟨root, hroot, hpath, htarget⟩ := exists_target_root base roots given
  have hpaths : (plan.roots.map Root.path).Nodup := nodup_map_path_make ..
  refine ⟨root, hroot, htarget, fun other hother => ?_, fun hlabels other hother => ?_⟩
  · rw [← hpath]
    exact ⟨fun h => List.inj_on_of_nodup_map hpaths hother hroot h, fun h => h ▸ rfl⟩
  · rw [htarget, Option.some_inj]
    exact ⟨fun h => List.inj_on_of_nodup_map hlabels hother hroot h.symm, fun h => h ▸ rfl⟩

/-- **The roots of a plan.** Every path that is given stands there once. Their labels are distinct
exactly when no root whose name is taken has a numbered name that is the name of a root before it,
and so whenever no directory has the sign `#` in its name. The label of the target is that of the
one root with the target's path, and of no other root if the labels are distinct. -/
theorem make_spec (base : String) (roots : List String) (target : Option String) :
    let plan := make base roots target
    (plan.roots.map Root.path).Nodup ∧
    (∀ path, path ∈ plan.roots.map Root.path ↔
      ∃ root ∈ roots ++ target.toList, Path.resolve base root = path) ∧
    ((plan.roots.map Root.label).Nodup ↔
      ∀ before root after, plan.roots.map Root.path = before ++ root :: after →
        Path.rootName before.length root ∈ Path.labels before →
          Path.numbered (Path.rootName before.length root) before.length ∉ Path.rootNames before) ∧
    ((∀ root ∈ plan.roots, ∀ name ∈ Path.fileName? root.path, '#' ∉ name.toList) →
      (plan.roots.map Root.label).Nodup) ∧
    (target = none → plan.target = none) ∧
    ∀ given, target = some given → ∃ root ∈ plan.roots,
      plan.target = some root.label ∧
      (∀ other ∈ plan.roots, other.path = Path.resolve base given ↔ other = root) ∧
      ((plan.roots.map Root.label).Nodup →
        ∀ other ∈ plan.roots, plan.target = some other.label ↔ other = root) := by
  intro plan
  have hpaths : plan.roots.map Root.path = Plan.paths base roots target := map_path_make ..
  have hlabels : plan.roots.map Root.label = Path.labels (Plan.paths base roots target) :=
    map_label_make ..
  refine ⟨nodup_map_path_make .., fun path => ?_, ?_, fun hsigns => ?_, ?_, ?_⟩
  · rw [hpaths, mem_paths_iff]
  · rw [hlabels, hpaths, Path.nodup_labels_iff]
  · rw [hlabels]
    refine Path.nodup_labels_of_names fun path hpath => ?_
    rw [← hpaths] at hpath
    obtain ⟨root, hroot, rfl⟩ := List.mem_map.mp hpath
    exact hsigns root hroot
  · rintro rfl
    rfl
  · rintro given rfl
    exact exists_unique_target_root base roots given

/-- **Labels clash** where a directory is named like a label with a number. -/
theorem make_labels_clash :
    make "/" ["/a/x", "/b/x#2"] (some "/c/x") =
      ⟨[⟨"/a/x", "x"⟩, ⟨"/b/x#2", "x#2"⟩, ⟨"/c/x", "x#2"⟩], some "x#2"⟩ := by
  decide +kernel

end Plan

end CloneDetection
