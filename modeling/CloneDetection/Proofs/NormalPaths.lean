import CloneDetection.Path.Basic
import Mathlib.Data.List.Basic

/-!
# Paths in normal form

From a directory, the steps of a relative path lead up some number of times and then down some names
(`reach`). The normal form of a path is written out from there: behind the root nothing is left of
the way up (`normalizeStep_below`), and in front of a relative path only its parity
(`normalizeStep_kept`), because a `..` that is kept is itself a step that the next `..` takes back.

A path in normal form is read as it was written (`components_render`), so normal forms are stable
and free of idle steps. They lead where the path leads exactly when the path climbs at most once, or
the directory is too close to the root for the difference to show (`normalize_join_normalize_iff`).
-/

namespace CloneDetection.Path

variable {base path segment : String}

/-! ## Segments -/

theorem segmentsFrom_append_slash (read cs ds : List Char) :
    segmentsFrom read (cs ++ '/' :: ds) = segmentsFrom read cs ++ segmentsFrom [] ds := by
  fun_induction segmentsFrom read cs with
  | case1 read => rw [List.nil_append, segmentsFrom, if_pos rfl, List.singleton_append]
  | case2 read rest ih => rw [List.cons_append, segmentsFrom, if_pos rfl, ih, List.cons_append]
  | case3 read c rest hc ih => rw [List.cons_append, segmentsFrom, if_neg hc, ih]

theorem segmentsFrom_of_not_mem {cs : List Char} (h : '/' ∉ cs) (read : List Char) :
    segmentsFrom read cs = [String.ofList (read.reverse ++ cs)] := by
  induction cs generalizing read with
  | nil => rw [segmentsFrom, List.append_nil]
  | cons c cs ih =>
    obtain ⟨hc, hcs⟩ := not_or.mp (mt List.mem_cons.mpr h)
    rw [segmentsFrom, if_neg (Ne.symm hc), ih hcs, List.reverse_cons, List.append_assoc,
      List.singleton_append]

theorem not_mem_of_mem_segmentsFrom {read cs : List Char} (hread : '/' ∉ read)
    (h : segment ∈ segmentsFrom read cs) : '/' ∉ segment.toList := by
  fun_induction segmentsFrom read cs with
  | case1 read =>
    rw [List.mem_singleton.mp h]
    simpa using hread
  | case2 read rest ih =>
    rcases List.mem_cons.mp h with rfl | h
    · simpa using hread
    · exact ih List.not_mem_nil h
  | case3 read c rest hc ih => exact ih (by simp [Ne.symm hc, hread]) h

theorem segments_append_slash (before after : String) :
    segments (before ++ "/" ++ after) = segments before ++ segments after := by
  simp [segments, segmentsFrom_append_slash]

theorem segments_of_not_mem (h : '/' ∉ segment.toList) : segments segment = [segment] := by
  simp [segments, segmentsFrom_of_not_mem h]

/-- Segments that are written with slashes between them are read back. -/
theorem segments_intercalate {l : List String} (hl : l ≠ [])
    (h : ∀ segment ∈ l, '/' ∉ segment.toList) : segments ("/".intercalate l) = l := by
  induction l with
  | nil => exact absurd rfl hl
  | cons first rest ih =>
    have hfirst := segments_of_not_mem (h first List.mem_cons_self)
    cases rest with
    | nil => rw [String.intercalate_singleton, hfirst]
    | cons second rest =>
      rw [String.intercalate_cons_cons, segments_append_slash, hfirst,
        ih (List.cons_ne_nil _ _) fun segment hmem => h segment (List.mem_cons_of_mem _ hmem),
        List.singleton_append]

theorem exists_toList_of_isAbsolute (h : isAbsolute path = true) :
    ∃ cs, path.toList = '/' :: cs := by
  rw [isAbsolute, beq_iff_eq] at h
  exact List.head?_eq_some_iff.mp h

theorem segments_of_isAbsolute (h : isAbsolute path = true) :
    ∃ rest, segments path = "" :: rest := by
  obtain ⟨cs, hcs⟩ := exists_toList_of_isAbsolute h
  exact ⟨segmentsFrom [] cs, by rw [segments, hcs, segmentsFrom, if_pos rfl]; rfl⟩

/-! ## Moves -/

/-- The steps of a path that lead from one directory to the next. -/
def moves (path : String) : List Component :=
  ((segments path).filter fun segment => !isIdle segment).map .ofSegment

theorem map_stepsOf (l : List String) :
    (stepsOf l).map (·.1) = (l.filter fun segment => !isIdle segment).map .ofSegment := by
  fun_induction stepsOf l with
  | case1 => rfl
  | case2 segment rest hidle ih => rw [ih, List.filter_cons_of_neg (by simp [hidle])]
  | case3 segment rest hidle ih =>
    rw [List.map_cons, ih, List.filter_cons_of_pos (by simpa using hidle), List.map_cons]

/-- A path starts at the root, or with a `.`, and goes on with its moves. -/
theorem components_eq (path : String) : components path =
    (if isAbsolute path then [.root]
      else if (segments path).head? = some "." then [.here] else []) ++ moves path := by
  unfold components steps
  split
  case h_1 hsegments =>
    have habsolute : isAbsolute path = false := by
      rw [Bool.eq_false_iff]
      intro h
      obtain ⟨rest, hrest⟩ := segments_of_isAbsolute h
      rw [hrest] at hsegments
      cases hsegments
    simp [moves, hsegments, habsolute]
  case h_2 first rest hsegments =>
    by_cases habsolute : isAbsolute path = true
    · obtain ⟨rest', hrest⟩ := segments_of_isAbsolute habsolute
      obtain ⟨rfl, rfl⟩ := List.cons.inj (hsegments.symm.trans hrest)
      rw [if_pos habsolute, if_pos habsolute, List.map_cons, map_stepsOf, moves, hsegments]
      rfl
    · rw [if_neg habsolute, if_neg habsolute, hsegments, List.head?_cons, moves, hsegments]
      by_cases hfirst : first = "."
      · subst hfirst
        rw [if_pos (by rfl), if_pos rfl, List.map_cons, map_stepsOf]
        rfl
      · rw [if_neg (by simpa using hfirst), if_neg (by simpa using hfirst), map_stepsOf,
          List.nil_append]

theorem moves_append_slash (before after : String) :
    moves (before ++ "/" ++ after) = moves before ++ moves after := by
  simp [moves, segments_append_slash]

theorem isAbsolute_append (h : isAbsolute base = true) (rest : String) :
    isAbsolute (base ++ rest) = true := by
  obtain ⟨cs, hcs⟩ := exists_toList_of_isAbsolute h
  simp [isAbsolute, hcs]

theorem join_of_isAbsolute (h : isAbsolute path = true) (base : String) :
    join base path = path := by
  rw [join, if_pos h]

theorem isAbsolute_join (hbase : isAbsolute base = true) (path : String) :
    isAbsolute (join base path) = true := by
  unfold join
  split
  case isTrue h => exact h
  case isFalse =>
    split
    · exact isAbsolute_append hbase _
    · exact isAbsolute_append (isAbsolute_append hbase _) _

/-- A relative path goes on where the directory ends. -/
theorem moves_join (hbase : isAbsolute base = true) (hpath : isAbsolute path = false) :
    moves (join base path) = moves base ++ moves path := by
  obtain ⟨cs, hcs⟩ := exists_toList_of_isAbsolute hbase
  have hne : base ≠ "" := by
    rintro rfl
    cases hcs
  rw [join, hpath, if_neg Bool.false_ne_true]
  split
  case isTrue hslash =>
    -- the directory ends with a slash, and what is behind it is idle
    have hlast : base.toList.getLast? = some '/' := by simpa [hne] using hslash
    obtain ⟨ds, hds⟩ := List.getLast?_eq_some_iff.mp hlast
    have hbase : base = String.ofList ds ++ "/" := by
      rw [← String.toList_inj, hds]
      simp
    have hidle : moves base = moves (String.ofList ds) ++ moves "" := by
      rw [← moves_append_slash, hbase, String.append_empty]
    rw [hidle, hbase, moves_append_slash]
    simp [show moves "" = [] from rfl]
  case isFalse => exact moves_append_slash base path

/-! ## Where steps lead -/

/-- Where some steps lead from a directory: up a number of times, and then down some names, the last
name first. -/
structure Reach where
  up : Nat := 0
  down : List String := []
  deriving DecidableEq, Repr

namespace Reach

/-- One more step. -/
def step (r : Reach) : Component → Reach
  | .parent =>
    match r.down with
    | [] => { r with up := r.up + 1 }
    | _ :: before => { r with down := before }
  | .name segment => { r with down := segment :: r.down }
  | .root | .here => r

/-- The steps from the root to where `r` leads from a directory, the last step first; `names` are
those of the directory. -/
def below (names : List String) (r : Reach) : List Component :=
  (r.down ++ names.drop r.up).map .name ++ [.root]

/-- The steps that the normal form of a relative path keeps, the last step first. -/
def kept (r : Reach) : List Component :=
  r.down.map .name ++ List.replicate (r.up % 2) .parent

end Reach

/-- Where a list of steps leads. -/
def reach (steps : List Component) : Reach :=
  steps.foldl Reach.step {}

/-- The number of `..` in a path that take back no name of the path. -/
def climb (path : String) : Nat :=
  (reach (components path)).up

section Run

variable {step : Component} {steps : List Component}

theorem normalizeStep_below (hstep : step ≠ .root) (names : List String) (r : Reach) :
    normalizeStep (r.below names) step = (r.step step).below names := by
  cases step with
  | root => exact absurd rfl hstep
  | here => rfl
  | name segment => rfl
  | parent =>
    obtain ⟨up, down⟩ := r
    cases down with
    | cons last before => rfl
    | nil =>
      cases hnames : names.drop up with
      | nil =>
        have hmore : names.drop (up + 1) = [] := by
          rw [List.drop_eq_nil_iff] at hnames ⊢
          omega
        simp [Reach.below, Reach.step, hnames, hmore, normalizeStep]
      | cons last before =>
        have hmore : names.drop (up + 1) = before := by
          rw [← List.drop_drop, hnames, List.drop_one, List.tail_cons]
        simp only [Reach.below, Reach.step, hnames, hmore, List.nil_append, List.map_cons,
          List.cons_append]
        rfl

theorem normalizeStep_kept (hstep : step ≠ .root) (r : Reach) :
    normalizeStep r.kept step = (r.step step).kept := by
  cases step with
  | root => exact absurd rfl hstep
  | here => rfl
  | name segment => rfl
  | parent =>
    obtain ⟨up, down⟩ := r
    cases down with
    | cons last before => rfl
    | nil =>
      -- the second of two `..` takes back the first
      rcases Nat.mod_two_eq_zero_or_one up with h | h
      · simp [Reach.kept, Reach.step, h, Nat.add_mod, normalizeStep]
      · simp [Reach.kept, Reach.step, h, Nat.add_mod, normalizeStep]

/-- What every step keeps in view, all steps keep in view. -/
theorem foldl_normalizeStep {view : Reach → List Component}
    (hview : ∀ {step}, step ≠ .root → ∀ r, normalizeStep (view r) step = view (r.step step))
    (h : .root ∉ steps) (r : Reach) :
    steps.foldl normalizeStep (view r) = view (steps.foldl Reach.step r) := by
  induction steps generalizing r with
  | nil => rfl
  | cons step steps ih =>
    obtain ⟨hstep, hsteps⟩ := not_or.mp (mt List.mem_cons.mpr h)
    rw [List.foldl_cons, List.foldl_cons, hview (Ne.symm hstep), ih hsteps]

theorem reach_root_cons (steps : List Component) : reach (.root :: steps) = reach steps :=
  rfl

/-- Steps that are in normal form are carried out as they stand. -/
theorem reach_normal (up : Nat) (names : List String) :
    reach (List.replicate up .parent ++ names.map .name) = ⟨up, names.reverse⟩ := by
  have hup : (List.replicate up Component.parent).foldl Reach.step {} = ⟨up, []⟩ := by
    induction up with
    | zero => rfl
    | succ up ih => rw [List.replicate_succ', List.foldl_append, ih]; rfl
  have hdown : ∀ down, (names.map Component.name).foldl Reach.step ⟨up, down⟩ =
      ⟨up, names.reverse ++ down⟩ := by
    induction names with
    | nil => exact fun down => rfl
    | cons first rest ih =>
      intro down
      rw [List.map_cons, List.foldl_cons, List.reverse_cons, List.append_assoc]
      exact ih (first :: down)
  rw [reach, List.foldl_append, hup, hdown, List.append_nil]

theorem mem_down_step {r : Reach} (h : segment ∈ (r.step step).down) :
    segment ∈ r.down ∨ step = .name segment := by
  cases step with
  | root | here => exact Or.inl h
  | name other => simpa [Reach.step, eq_comm, or_comm] using h
  | parent =>
    unfold Reach.step at h
    dsimp only at h
    split at h
    case h_1 => exact Or.inl h
    case h_2 hdown => exact Or.inl (hdown ▸ List.mem_cons_of_mem _ h)

theorem mem_down_foldl {r : Reach} (h : segment ∈ (steps.foldl Reach.step r).down) :
    segment ∈ r.down ∨ .name segment ∈ steps := by
  induction steps generalizing r with
  | nil => exact Or.inl h
  | cons step steps ih =>
    rcases ih h with hmem | hmem
    · rcases mem_down_step hmem with hmem | rfl
      · exact Or.inl hmem
      · exact Or.inr List.mem_cons_self
    · exact Or.inr (List.mem_cons_of_mem _ hmem)

end Run

/-! ## Writing and reading back -/

/-- A step that a path can have between two slashes. -/
structure Component.IsMove (step : Component) : Prop where
  slash : '/' ∉ step.segment.toList
  idle : isIdle step.segment = false
  same : ofSegment step.segment = step

theorem isMove_parent : Component.parent.IsMove where
  slash := by decide
  idle := by decide
  same := rfl

theorem isMove_of_mem_moves {step : Component} (h : step ∈ moves path) : step.IsMove := by
  obtain ⟨segment, hmem, rfl⟩ := List.mem_map.mp h
  rw [List.mem_filter, Bool.not_eq_true'] at hmem
  have hsame : (Component.ofSegment segment).segment = segment := by
    unfold Component.ofSegment
    split
    case isTrue h => exact h.symm
    case isFalse => rfl
  refine ⟨?_, ?_, ?_⟩
  · rw [hsame]
    exact not_mem_of_mem_segmentsFrom List.not_mem_nil hmem.1
  · rw [hsame, hmem.2]
  · rw [hsame]

theorem root_not_mem_moves (path : String) : .root ∉ moves path := fun h =>
  absurd (isMove_of_mem_moves h).idle (by decide)

theorem isMove_of_mem_down (h : segment ∈ (reach (moves path)).down) :
    (Component.name segment).IsMove :=
  isMove_of_mem_moves ((mem_down_foldl h).resolve_left List.not_mem_nil)

section Render

variable {steps : List Component}

theorem segments_render (h : ∀ step ∈ steps, step.IsMove) (hne : steps ≠ []) :
    render steps = "/".intercalate (steps.map Component.segment) ∧
      segments (render steps) = steps.map Component.segment := by
  have hrender : render steps = "/".intercalate (steps.map Component.segment) := by
    unfold render
    split
    · exact absurd (h .root (by simp)).idle (by decide)
    · rfl
  refine ⟨hrender, ?_⟩
  rw [hrender, segments_intercalate (by simpa using hne)]
  intro segment hmem
  obtain ⟨step, hstep, rfl⟩ := List.mem_map.mp hmem
  exact (h step hstep).slash

/-- Moves that are written as a path are read back. -/
theorem moves_render (h : ∀ step ∈ steps, step.IsMove) : moves (render steps) = steps := by
  by_cases hne : steps = []
  · subst hne
    rfl
  · have hidle : (steps.map Component.segment).filter (fun segment => !isIdle segment) =
        steps.map Component.segment := by
      rw [List.filter_eq_self]
      intro segment hmem
      obtain ⟨step, hstep, rfl⟩ := List.mem_map.mp hmem
      rw [(h step hstep).idle]
      rfl
    rw [moves, (segments_render h hne).2, hidle, List.map_map]
    exact (List.map_congr_left fun step hstep => (h step hstep).same).trans (List.map_id' steps)

theorem components_render (h : ∀ step ∈ steps, step.IsMove) :
    isAbsolute (render steps) = false ∧ components (render steps) = steps := by
  cases steps with
  | nil => exact ⟨rfl, rfl⟩
  | cons first rest =>
    have hsegments := (segments_render h (List.cons_ne_nil _ _)).2
    have hidle := (h first List.mem_cons_self).idle
    have habsolute : isAbsolute (render (first :: rest)) = false := by
      rw [Bool.eq_false_iff]
      intro habsolute
      obtain ⟨others, hothers⟩ := segments_of_isAbsolute habsolute
      have hfirst := (List.cons.inj (hsegments.symm.trans hothers)).1
      rw [hfirst] at hidle
      cases hidle
    have hhere : (segments (render (first :: rest))).head? ≠ some "." := by
      rw [hsegments]
      intro hhead
      rw [Option.some.inj hhead] at hidle
      cases hidle
    refine ⟨habsolute, ?_⟩
    rw [components_eq, habsolute, if_neg Bool.false_ne_true, if_neg hhere, moves_render h,
      List.nil_append]

/-- Moves that are written behind the root are read back. -/
theorem components_render_root (h : ∀ step ∈ steps, step.IsMove) :
    isAbsolute (render (.root :: steps)) = true ∧
      components (render (.root :: steps)) = .root :: steps := by
  have hrender : isAbsolute (render (.root :: steps)) = true ∧
      moves (render (.root :: steps)) = steps := by
    cases steps with
    | nil => exact ⟨rfl, by decide⟩
    | cons first rest =>
      have hslash : render (.root :: first :: rest) = "" ++ "/" ++ render (first :: rest) := by
        rw [(segments_render h (List.cons_ne_nil _ _)).1]
        exact String.intercalate_cons_cons
      rw [hslash, moves_append_slash, moves_render h]
      exact ⟨isAbsolute_append rfl _, rfl⟩
  refine ⟨hrender.1, ?_⟩
  rw [components_eq, if_pos hrender.1, hrender.2, List.singleton_append]

end Render

/-! ## Normal forms -/

theorem reach_components (path : String) : reach (components path) = reach (moves path) := by
  rw [components_eq]
  split
  · rfl
  · split <;> rfl

theorem normalizeSteps_of_isAbsolute (h : isAbsolute path = true) :
    normalizeSteps (components path) = .root :: (reach (moves path)).down.reverse.map .name := by
  have hrun := foldl_normalizeStep (fun hstep r => normalizeStep_below hstep [] r)
    (root_not_mem_moves path) {}
  rw [normalizeSteps, components_eq, if_pos h, List.singleton_append, List.foldl_cons]
  change ((moves path).foldl normalizeStep (Reach.below [] {})).reverse = _
  rw [hrun]
  simp [Reach.below, reach]

theorem normalizeSteps_of_relative (h : isAbsolute path = false) :
    normalizeSteps (components path) = List.replicate (climb path % 2) .parent ++
      (reach (moves path)).down.reverse.map .name := by
  have hrun := foldl_normalizeStep normalizeStep_kept (root_not_mem_moves path) {}
  have hopening : (components path).foldl normalizeStep [] =
      (moves path).foldl normalizeStep (Reach.kept {}) := by
    rw [components_eq, h, if_neg Bool.false_ne_true]
    split <;> rfl
  rw [normalizeSteps, hopening, hrun, climb, reach_components]
  simp [Reach.kept, reach]

/-- The normal form of an absolute path is the root with names behind it. -/
theorem components_normalize_of_isAbsolute (h : isAbsolute path = true) :
    isAbsolute (normalize path) = true ∧
      components (normalize path) = .root :: (reach (moves path)).down.reverse.map .name := by
  rw [normalize, normalizeSteps_of_isAbsolute h]
  refine components_render_root fun step hstep => ?_
  obtain ⟨segment, hmem, rfl⟩ := List.mem_map.mp hstep
  exact isMove_of_mem_down (List.mem_reverse.mp hmem)

/-- The normal form of a relative path is a `..`, or none, with names behind it. -/
theorem components_normalize_of_relative (h : isAbsolute path = false) :
    isAbsolute (normalize path) = false ∧
      components (normalize path) = List.replicate (climb path % 2) .parent ++
        (reach (moves path)).down.reverse.map .name := by
  rw [normalize, normalizeSteps_of_relative h]
  refine components_render fun step hstep => ?_
  rcases List.mem_append.mp hstep with hstep | hstep
  · rw [List.eq_of_mem_replicate hstep]
    exact isMove_parent
  · obtain ⟨segment, hmem, rfl⟩ := List.mem_map.mp hstep
    exact isMove_of_mem_down (List.mem_reverse.mp hmem)

theorem isAbsolute_normalize (path : String) : isAbsolute (normalize path) = isAbsolute path := by
  cases h : isAbsolute path with
  | true => exact (components_normalize_of_isAbsolute h).1
  | false => exact (components_normalize_of_relative h).1

theorem reach_normalize_of_isAbsolute (h : isAbsolute path = true) :
    reach (moves (normalize path)) = ⟨0, (reach (moves path)).down⟩ := by
  have hnormal := reach_normal 0 (reach (moves path)).down.reverse
  rw [List.replicate_zero, List.nil_append, List.reverse_reverse] at hnormal
  rw [← reach_components, (components_normalize_of_isAbsolute h).2, reach_root_cons, hnormal]

theorem reach_normalize_of_relative (h : isAbsolute path = false) :
    reach (moves (normalize path)) = ⟨climb path % 2, (reach (moves path)).down⟩ := by
  rw [← reach_components, (components_normalize_of_relative h).2, reach_normal,
    List.reverse_reverse]

theorem normalize_normalize (path : String) : normalize (normalize path) = normalize path := by
  cases h : isAbsolute path with
  | true =>
    have h' : isAbsolute (normalize path) = true := (isAbsolute_normalize path).trans h
    rw [normalize, normalizeSteps_of_isAbsolute h', reach_normalize_of_isAbsolute h, normalize,
      normalizeSteps_of_isAbsolute h]
  | false =>
    have h' : isAbsolute (normalize path) = false := (isAbsolute_normalize path).trans h
    rw [normalize, normalizeSteps_of_relative h', reach_normalize_of_relative h, climb,
      reach_components, reach_normalize_of_relative h, Nat.mod_mod, normalize,
      normalizeSteps_of_relative h]

/-- In a normal form nothing is idle, and a `..` stands only behind others. -/
theorem components_normalize_normal (path : String) :
    .here ∉ components (normalize path) ∧
      (components (normalize path)).Pairwise fun before step =>
        step = .parent → before = .parent := by
  have hnames : ∀ names : List String, (names.map Component.name).Pairwise fun before step =>
      step = .parent → before = .parent := by
    intro names
    rw [List.pairwise_map]
    exact List.pairwise_of_forall_mem_list fun _ _ _ _ h => by cases h
  cases h : isAbsolute path with
  | true =>
    rw [(components_normalize_of_isAbsolute h).2]
    exact ⟨by simp, List.pairwise_cons.mpr ⟨by simp, hnames _⟩⟩
  | false =>
    rw [(components_normalize_of_relative h).2]
    exact ⟨by simp, List.pairwise_append.mpr ⟨by simp, hnames _, by simp⟩⟩

/-! ## Normal forms in a directory -/

theorem Component.name_injective : Function.Injective Component.name := fun _ _ h =>
  Component.name.inj h

/-- Absolute paths have one normal form if the same names are left of them. -/
theorem normalize_eq_normalize_iff {other : String} (h : isAbsolute path = true)
    (hother : isAbsolute other = true) : normalize path = normalize other ↔
      (reach (moves path)).down = (reach (moves other)).down := by
  constructor
  · intro heq
    have hcomponents := congrArg components heq
    rw [(components_normalize_of_isAbsolute h).2,
      (components_normalize_of_isAbsolute hother).2] at hcomponents
    exact List.reverse_injective (Component.name_injective.list_map (List.cons.inj hcomponents).2)
  · intro heq
    rw [normalize, normalize, normalizeSteps_of_isAbsolute h, normalizeSteps_of_isAbsolute hother,
      heq]

/-- A relative path leads up from its directory as far as the path climbs, and then down. -/
theorem reach_moves_join (hbase : isAbsolute base = true) (hpath : isAbsolute path = false) :
    (reach (moves (join base path))).down =
      (reach (moves path)).down ++ (reach (moves base)).down.drop (climb path) := by
  have hroot := root_not_mem_moves path
  -- the names of the directory are those that its own steps lead down
  have hsame : (reach (moves base)).below [] = Reach.below (reach (moves base)).down {} := by
    simp [Reach.below]
  have hrun : ((moves path).foldl Reach.step (reach (moves base))).below [] =
      (reach (moves path)).below (reach (moves base)).down := by
    have hbelow : ∀ names r, (moves path).foldl normalizeStep (Reach.below names r) =
        ((moves path).foldl Reach.step r).below names := fun names =>
      foldl_normalizeStep (fun hstep r => normalizeStep_below hstep names r) hroot
    rw [← hbelow, hsame, hbelow]
    rfl
  have hnames := Component.name_injective.list_map (List.append_cancel_right hrun)
  rw [List.drop_nil, List.append_nil] at hnames
  rw [moves_join hbase hpath, reach, List.foldl_append, climb, reach_components]
  exact hnames

/-- **The normal form of a path leads where the path leads**, from an absolute directory, exactly
when the path is absolute, takes back at most one name that is not its own, or the directory has no
more names than the normal form takes back. Normal forms are stable, start at the root if the path
does, have no idle step, and have no `..` behind a name or the root. -/
theorem normalize_join_normalize_iff (hbase : isAbsolute base = true) (path : String) :
    (normalize (join base (normalize path)) = normalize (join base path) ↔
      isAbsolute path = true ∨ climb path ≤ 1 ∨
        (components (normalize base)).length ≤ climb path % 2 + 1) ∧
    normalize (normalize path) = normalize path ∧
    isAbsolute (normalize path) = isAbsolute path ∧
    .here ∉ components (normalize path) ∧
    (components (normalize path)).Pairwise fun before step =>
      step = .parent → before = .parent := by
  refine ⟨?_, normalize_normalize path, isAbsolute_normalize path, components_normalize_normal path⟩
  cases h : isAbsolute path with
  | true =>
    have h' : isAbsolute (normalize path) = true := (isAbsolute_normalize path).trans h
    rw [join_of_isAbsolute h', join_of_isAbsolute h, normalize_normalize]
    simp
  | false =>
    have h' : isAbsolute (normalize path) = false := (isAbsolute_normalize path).trans h
    have hclimb : climb (normalize path) = climb path % 2 := by
      rw [climb, reach_components, reach_normalize_of_relative h]
    rw [normalize_eq_normalize_iff (isAbsolute_join hbase _) (isAbsolute_join hbase _),
      reach_moves_join hbase h', reach_moves_join hbase h, reach_normalize_of_relative h, hclimb,
      List.append_cancel_left_eq, List.drop_eq_drop_iff,
      (components_normalize_of_isAbsolute hbase).2, List.length_cons, List.length_map, List.length_reverse]
    simp only [Bool.false_eq_true, false_or]
    omega

/-- From a directory with one name, a path that climbs once is normalized to where it leads. -/
theorem normalize_join_normalize_sibling :
    normalize (join "/a" (normalize ".././b/")) = normalize (join "/a" ".././b/") :=
  (normalize_join_normalize_iff (by decide) _).1.mpr (Or.inr (Or.inl (by decide)))

/-- **Two parents cancel out.** From two levels below the root, `../..` leads to the root, and its
normal form nowhere. -/
theorem normalize_join_normalize_parents :
    normalize "../.." = "" ∧ normalize (join "/a/b" "../..") = "/" ∧
      normalize (join "/a/b" (normalize "../..")) = "/a/b" := by
  decide +kernel

end CloneDetection.Path
