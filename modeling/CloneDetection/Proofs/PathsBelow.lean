import CloneDetection.Proofs.NormalPaths

/-!
# Paths below a directory

A path that is a directory with some names after it has the steps of the directory first
(`stepsAfter_append`). What `below?` finds behind them is the names, whatever is idle at the end of
the directory, so the identifier of a file is made of the names that lead to it
(`fileId?_join_intercalate`).
-/

namespace CloneDetection.Path

variable {base : String} {l m names : List String} {absolute : Bool} {last : Component}
  {rest : List String}

/-! ## Steps of segments -/

/-- The steps of the segments of a path. -/
def stepsAfter (absolute : Bool) : List String → List (Component × List String)
  | [] => []
  | first :: rest =>
    if absolute then (.root, rest) :: stepsOf rest
    else if first == "." then (.here, rest) :: stepsOf rest
    else stepsOf (first :: rest)

theorem steps_eq (path : String) : steps path = stepsAfter (isAbsolute path) (segments path) := by
  rw [steps]
  cases segments path <;> rfl

/-- Steps with more segments after each. -/
def followedBy (m : List String) (steps : List (Component × List String)) :
    List (Component × List String) :=
  steps.map fun step => (step.1, step.2 ++ m)

@[simp]
theorem map_fst_followedBy (m : List String) (steps : List (Component × List String)) :
    (followedBy m steps).map (·.1) = steps.map (·.1) := by
  simp [followedBy]

theorem stepsOf_append (l m : List String) :
    stepsOf (l ++ m) = followedBy m (stepsOf l) ++ stepsOf m := by
  induction l with
  | nil => rfl
  | cons segment l ih =>
    rw [List.cons_append, stepsOf, stepsOf]
    split
    · exact ih
    · rw [ih]
      rfl

theorem stepsAfter_append (hl : l ≠ []) (m : List String) :
    stepsAfter absolute (l ++ m) = followedBy m (stepsAfter absolute l) ++ stepsOf m := by
  obtain ⟨first, rest, rfl⟩ := List.exists_cons_of_ne_nil hl
  rw [List.cons_append, stepsAfter, stepsAfter]
  split
  · rw [stepsOf_append]
    rfl
  · split
    · rw [stepsOf_append]
      rfl
    · rw [← List.cons_append, stepsOf_append]

theorem idle_of_stepsOf_eq_nil (h : stepsOf l = []) : ∀ segment ∈ l, isIdle segment = true := by
  rw [← List.map_eq_nil_iff (f := Prod.fst), map_stepsOf, List.map_eq_nil_iff,
    List.filter_eq_nil_iff] at h
  simpa using h

/-- Behind the last step only idle segments are left, if that is so after the first step. -/
theorem idle_of_getLast?_cons {first : Component}
    (hl : (stepsOf l).getLast? = some (last, rest) → ∀ segment ∈ rest, isIdle segment = true)
    (h : ((first, l) :: stepsOf l).getLast? = some (last, rest)) :
    ∀ segment ∈ rest, isIdle segment = true := by
  cases hsteps : stepsOf l with
  | cons step steps =>
    rw [hsteps, List.getLast?_cons_cons, ← hsteps] at h
    exact hl h
  | nil =>
    rw [hsteps, List.getLast?_singleton, Option.some.injEq, Prod.mk.injEq] at h
    rw [← h.2]
    exact idle_of_stepsOf_eq_nil hsteps

theorem idle_of_getLast?_stepsOf (h : (stepsOf l).getLast? = some (last, rest)) :
    ∀ segment ∈ rest, isIdle segment = true := by
  induction l with
  | nil => cases h
  | cons segment l ih =>
    rw [stepsOf] at h
    split at h
    · exact ih h
    · exact idle_of_getLast?_cons ih h

theorem idle_of_getLast?_stepsAfter (h : (stepsAfter absolute l).getLast? = some (last, rest)) :
    ∀ segment ∈ rest, isIdle segment = true := by
  cases l with
  | nil => cases h
  | cons first l =>
    rw [stepsAfter] at h
    split at h
    · exact idle_of_getLast?_cons idle_of_getLast?_stepsOf h
    · split at h
      · exact idle_of_getLast?_cons idle_of_getLast?_stepsOf h
      · exact idle_of_getLast?_stepsOf h

/-- What follows the steps of a directory, when these are followed by something. -/
theorem afterSteps?_followedBy {steps more : List (Component × List String)}
    (h : steps.getLast? = some (last, rest)) :
    afterSteps? (steps.map (·.1)) (followedBy m steps ++ more) = some (rest ++ m) := by
  induction steps with
  | nil => cases h
  | cons step steps ih =>
    cases steps with
    | nil =>
      rw [List.getLast?_singleton, Option.some.injEq] at h
      simp [followedBy, afterSteps?, h]
    | cons next steps =>
      rw [List.getLast?_cons_cons] at h
      simpa [followedBy, afterSteps?] using ih h

/-! ## Names after a directory -/

/-- The first segment starts with what is read already. -/
theorem exists_segmentsFrom_eq_cons (read cs : List Char) :
    ∃ more rest, segmentsFrom read cs = String.ofList (read.reverse ++ more) :: rest := by
  fun_induction segmentsFrom read cs with
  | case1 read => exact ⟨[], [], by rw [List.append_nil]⟩
  | case2 read rest ih => exact ⟨[], _, by rw [List.append_nil]⟩
  | case3 read c rest hc ih =>
    obtain ⟨more, others, h⟩ := ih
    exact ⟨c :: more, others, by simpa using h⟩

theorem segments_ne_nil (path : String) : segments path ≠ [] := by
  obtain ⟨more, rest, h⟩ := exists_segmentsFrom_eq_cons [] path.toList
  rw [segments, h]
  exact List.cons_ne_nil _ _

theorem isAbsolute_append_of_ne (hbase : base ≠ "") (more : String) :
    isAbsolute (base ++ more) = isAbsolute base := by
  obtain ⟨c, cs, hcs⟩ := List.exists_cons_of_ne_nil (mt String.toList_eq_nil_iff.mp hbase)
  simp [isAbsolute, hcs]

/-- A directory with a path after it has the segments of both, but for what is empty at the end of
the directory. -/
theorem exists_segments_join (hbase : base ≠ "") {path : String} (hpath : isAbsolute path = false) :
    isAbsolute (join base path) = isAbsolute base ∧ ∃ front idle, front ≠ [] ∧
      segments base = front ++ idle ∧ stepsOf idle = [] ∧
      segments (join base path) = front ++ segments path := by
  rw [join, if_neg (by simp [hpath])]
  split
  case isTrue hslash =>
    have hlast : base.toList.getLast? = some '/' := by simpa [hbase] using hslash
    obtain ⟨cs, hcs⟩ := List.getLast?_eq_some_iff.mp hlast
    have hsplit : base = String.ofList cs ++ "/" := by
      rw [← String.toList_inj, String.toList_append, hcs, String.toList_ofList]
      rfl
    refine ⟨isAbsolute_append_of_ne hbase path, segments (String.ofList cs), [""],
      segments_ne_nil _, ?_, by decide, ?_⟩
    · rw [hsplit, ← String.append_empty (s := String.ofList cs ++ "/"), segments_append_slash]
      rfl
    · rw [hsplit, segments_append_slash]
  case isFalse hslash =>
    refine ⟨?_, segments base, [], segments_ne_nil _, (List.append_nil _).symm, rfl,
      segments_append_slash base path⟩
    rw [String.append_assoc, isAbsolute_append_of_ne hbase]

/-- Every path but the empty one has a step. -/
theorem steps_ne_nil (hbase : base ≠ "") : steps base ≠ [] := by
  intro hnil
  have hcomponents : components base = [] := by rw [components, hnil, List.map_nil]
  rw [components_eq, List.append_eq_nil_iff, moves, List.map_eq_nil_iff,
    List.filter_eq_nil_iff] at hcomponents
  obtain ⟨hstart, hidle⟩ := hcomponents
  obtain ⟨c, cs, hcs⟩ := List.exists_cons_of_ne_nil (mt String.toList_eq_nil_iff.mp hbase)
  by_cases hc : c = '/'
  · simp [isAbsolute, hcs, hc] at hstart
  · -- the first segment starts with a character, so it is idle only if it is a dot
    obtain ⟨more, rest, hsegments⟩ := exists_segmentsFrom_eq_cons [c] cs
    rw [segments, hcs, segmentsFrom, if_neg hc, hsegments] at hidle hstart
    have hne : String.ofList ([c].reverse ++ more) ≠ "" := by simp [← String.toList_inj]
    have hdot : String.ofList ([c].reverse ++ more) = "." := by
      simpa [isIdle, hne] using hidle _ List.mem_cons_self
    have hrelative : isAbsolute base = false := by simp [isAbsolute, hcs, hc]
    rw [hdot, hrelative] at hstart
    simp at hstart

theorem isAbsolute_intercalate (hnames : ∀ name ∈ names, '/' ∉ name.toList)
    (hidle : ∀ name ∈ names, isIdle name = false) : isAbsolute ("/".intercalate names) = false := by
  cases names with
  | nil => rfl
  | cons name rest =>
    have hne : name ≠ "" := by
      rintro rfl
      cases hidle "" List.mem_cons_self
    obtain ⟨c, cs, hcs⟩ := List.exists_cons_of_ne_nil (mt String.toList_eq_nil_iff.mp hne)
    have hc : c ≠ '/' := by
      rintro rfl
      exact hnames name List.mem_cons_self (by simp [hcs])
    have hname : isAbsolute name = false := by simp [isAbsolute, hcs, hc]
    cases rest with
    | nil => rwa [String.intercalate_singleton]
    | cons second rest =>
      rw [String.intercalate_cons_cons, String.append_assoc, isAbsolute_append_of_ne hne, hname]

theorem trimEnd_of_not_idle (hidle : ∀ name ∈ names, isIdle name = false) :
    trimEnd names = names := by
  rw [trimEnd, List.reverse_eq_iff]
  cases hreverse : names.reverse with
  | nil => rfl
  | cons last before =>
    have hlast : isIdle last = false :=
      hidle last (List.mem_reverse.mp (hreverse ▸ List.mem_cons_self))
    rw [List.dropWhile_cons_of_neg (by simp [hlast])]

/-- Below a directory, a path that goes on with some names is these names. -/
theorem below?_join_intercalate (hbase : base ≠ "") (hne : names ≠ [])
    (hnames : ∀ name ∈ names, '/' ∉ name.toList) (hidle : ∀ name ∈ names, isIdle name = false) :
    below? base (join base ("/".intercalate names)) = some ("/".intercalate names) := by
  obtain ⟨habsolute, front, idle, hfront, hsegments, hnil, hjoined⟩ :=
    exists_segments_join hbase (isAbsolute_intercalate hnames hidle)
  rw [segments_intercalate hne hnames] at hjoined
  have hbases : steps base = followedBy idle (stepsAfter (isAbsolute base) front) := by
    rw [steps_eq, hsegments, stepsAfter_append hfront, hnil, List.append_nil]
  have hsteps : steps (join base ("/".intercalate names)) =
      followedBy names (stepsAfter (isAbsolute base) front) ++ stepsOf names := by
    rw [steps_eq, habsolute, hjoined, stepsAfter_append hfront]
  have hsome : stepsAfter (isAbsolute base) front ≠ [] := by
    intro hempty
    rw [hempty] at hbases
    exact steps_ne_nil hbase hbases
  obtain ⟨⟨last, rest⟩, hlast⟩ : ∃ step, (stepsAfter (isAbsolute base) front).getLast? = some step :=
    ⟨_, List.getLast?_eq_some_getLast hsome⟩
  have hafter : (rest ++ names).dropWhile isIdle = names := by
    obtain ⟨first, more, rfl⟩ := List.exists_cons_of_ne_nil hne
    rw [List.dropWhile_append_of_pos (idle_of_getLast?_stepsAfter hlast),
      List.dropWhile_cons_of_neg (by simp [hidle first List.mem_cons_self])]
  have hcomponents : components base = (stepsAfter (isAbsolute base) front).map (·.1) := by
    rw [components, hbases, map_fst_followedBy]
  rw [below?]
  split
  case h_1 hempty =>
    rw [hcomponents, List.map_eq_nil_iff] at hempty
    exact absurd hempty hsome
  case h_2 =>
    rw [hcomponents, hsteps, afterSteps?_followedBy hlast, Option.map_some, hafter,
      trimEnd_of_not_idle hidle]

theorem withSlashes_eq_empty_iff {text : String} : withSlashes text = "" ↔ text = "" := by
  rw [← String.toList_inj, withSlashes, String.toList_ofList, ← String.toList_inj]
  exact List.map_eq_nil_iff

/-- The identifier of a file that some names lead to from a directory is made of the names. -/
theorem fileId?_join_intercalate (hbase : base ≠ "") (hne : names ≠ [])
    (hnames : ∀ name ∈ names, '/' ∉ name.toList) (hidle : ∀ name ∈ names, isIdle name = false) :
    fileId? base (join base ("/".intercalate names)) =
      some (withSlashes ("/".intercalate names)) := by
  rw [fileId?, below?_join_intercalate hbase hne hnames hidle, Option.map_some,
    Option.filter_eq_some_iff]
  refine ⟨rfl, ?_⟩
  rw [bne_iff_ne, Ne, withSlashes_eq_empty_iff]
  intro hempty
  -- the only segment of the empty text is idle
  have hsegments := segments_intercalate hne hnames
  rw [hempty] at hsegments
  have hidle := hidle "" (hsegments ▸ by decide)
  cases hidle

end CloneDetection.Path
