import CloneDetection.Proofs.Intake
import CloneDetection.Proofs.LineEndings
import CloneDetection.Proofs.Phrases

/-!
# The order of arguments

What arguments select can be told from their phrases at once (`Selection.ofPhrases`): a flag is set
if it occurs, an option has its last value, and roots and ignored folders stand in their order. Each
phrase changes its own part of it (`Selection.apply_ofPhrases`), so phrases of different kinds can
change places (`Command.parse_reordered`), and options come before the settings file wherever they
stand.
-/

namespace CloneDetection

/-! ## What phrases select -/

namespace Phrase

/-- The value that a phrase gives to an option. -/
def value? (option : Parameter) : Phrase → Option String
  | .parameter other value => if other = option then some value else none
  | _ => none

/-- The root that a phrase is. -/
def root? : Phrase → Option String
  | .root path => some path
  | _ => none

/-- The values of an option, in their order. -/
def values (option : Parameter) (phrases : List Phrase) : List String :=
  phrases.filterMap (value? option)

/-- The last value of an option. -/
def lastValue? (option : Parameter) (phrases : List Phrase) : Option String :=
  (values option phrases).getLast?

theorem value?_eq_some_iff {option : Parameter} {value : String} {p : Phrase} :
    p.value? option = some value ↔ p = .parameter option value := by
  cases p with
  | flag | root => simp [value?]
  | parameter other v => simp [value?]

end Phrase

/-- Whether a text is a value of an option. -/
def Parameter.Takes : Parameter → String → Prop
  | .normalization, value => ∃ level, Normalization.parse? value = some level
  | .index, value => ∃ strategy, Strategy.parse? value = some strategy
  | .minTokens, value => ∃ n, Decimal.natural? value = some n ∧ n ≠ 0
  | .maxBucket, value => ∃ n, Decimal.natural? value = some n ∧ n ≠ 0
  | .workers, value => ∃ n, Decimal.natural? value = some n ∧ n ≠ 0
  | .maxGap, value => ∃ n, Decimal.natural? value = some n
  | .maxFileSize, value => ∃ n, Decimal.natural? value = some n
  | .containment, value => ∃ x, Decimal.float? value = some x ∧ Settings.isShare x = true
  | _, _ => True

/-- Whether a phrase can be used: an option has a value that it takes. -/
def Phrase.IsUsable : Phrase → Prop
  | .parameter option value => option.Takes value
  | _ => True

namespace Selection

open Phrase (values lastValue?)

/-- What phrases select. -/
def ofPhrases (phrases : List Phrase) : Selection where
  json := phrases.contains (.flag .json)
  stats := phrases.contains (.flag .stats)
  strict := phrases.contains (.flag .strict)
  includeComments := phrases.contains (.flag .includeComments)
  dropNoise := phrases.contains (.flag .dropNoise)
  obeyIgnoreFiles := !phrases.contains (.flag .noIgnoreFiles)
  roots := phrases.filterMap Phrase.root?
  targetRoot := lastValue? .targetRoot phrases
  config := lastValue? .config phrases
  normalization := (lastValue? .normalization phrases).bind Normalization.parse?
  index := (lastValue? .index phrases).bind Strategy.parse?
  minTokens := (lastValue? .minTokens phrases).bind Decimal.natural?
  maxGap := (lastValue? .maxGap phrases).bind Decimal.natural?
  containment := (lastValue? .containment phrases).bind Decimal.float?
  maxBucket := (lastValue? .maxBucket phrases).bind Decimal.natural?
  workers := (lastValue? .workers phrases).bind Decimal.natural?
  maxFileSize := (lastValue? .maxFileSize phrases).bind Decimal.natural?
  ignoredFolders := values .ignoreFolder phrases

variable {s t : Selection} {args tail : List String} {p : Phrase} {phrases : List Phrase}

@[simp]
theorem values_concat (option : Parameter) (phrases : List Phrase) (p : Phrase) :
    values option (phrases ++ [p]) = values option phrases ++ (p.value? option).toList := by
  rw [values, List.filterMap_append, List.filterMap_cons, List.filterMap_nil]
  cases p.value? option <;> rfl

@[simp]
theorem lastValue?_concat (option : Parameter) (phrases : List Phrase) (p : Phrase) :
    lastValue? option (phrases ++ [p]) = (p.value? option).or (lastValue? option phrases) := by
  rw [lastValue?, values_concat]
  cases p.value? option <;> simp [lastValue?]

theorem natural_eq_ok_iff {option : Parameter} {value : String} {n : Nat} :
    natural option value = .ok n ↔ Decimal.natural? value = some n := by
  unfold natural
  cases Decimal.natural? value <;> simp

theorem positive_eq_ok_iff {option : Parameter} {value : String} {n : Nat} :
    positive option value = .ok n ↔ Decimal.natural? value = some n ∧ n ≠ 0 := by
  simp only [positive, bind_eq_ok_iff, natural_eq_ok_iff]
  constructor
  · rintro ⟨m, hm, h⟩
    split at h
    · cases h
    · cases h
      exact ⟨hm, ‹_›⟩
  · rintro ⟨hn, hne⟩
    exact ⟨n, hn, if_neg hne⟩

theorem share_eq_ok_iff {option : Parameter} {value : String} {x : Float} :
    share option value = .ok x ↔
      Decimal.float? value = some x ∧ Settings.isShare x = true := by
  unfold share
  cases Decimal.float? value with
  | none => simp
  | some y =>
    simp only [Option.some.injEq]
    constructor
    · intro h
      split at h
      · cases h
        exact ⟨rfl, ‹_›⟩
      · cases h
    · rintro ⟨rfl, hshare⟩
      exact if_pos hshare

/-- A phrase that changes a selection can be used. -/
theorem isUsable_of_apply (h : s.apply p = .ok t) : p.IsUsable := by
  cases p with
  | flag | root => trivial
  | parameter option value =>
    cases option with
    | targetRoot | config | ignoreFolder => trivial
    | normalization | index =>
      simp only [apply, setParameter] at h
      split at h
      · exact ⟨_, ‹_›⟩
      · cases h
    | minTokens | maxBucket | workers =>
      obtain ⟨n, hn, -⟩ := bind_eq_ok_iff.mp h
      exact ⟨n, positive_eq_ok_iff.mp hn⟩
    | maxGap | maxFileSize =>
      obtain ⟨n, hn, -⟩ := bind_eq_ok_iff.mp h
      exact ⟨n, natural_eq_ok_iff.mp hn⟩
    | containment =>
      obtain ⟨x, hx, -⟩ := bind_eq_ok_iff.mp h
      exact ⟨x, share_eq_ok_iff.mp hx⟩

/-- What is selected after one phrase more. -/
theorem apply_ofPhrases (hp : p.IsUsable) (phrases : List Phrase) :
    (ofPhrases phrases).apply p = .ok (ofPhrases (phrases ++ [p])) := by
  cases p with
  | flag f => cases f <;> simp [apply, setFlag, ofPhrases, Phrase.value?, Phrase.root?]
  | root path => simp [apply, addRoots, ofPhrases, Phrase.value?, Phrase.root?]
  | parameter option value =>
    cases option with
    | targetRoot | config | ignoreFolder =>
      simp [apply, setParameter, ofPhrases, Phrase.value?, Phrase.root?]
    | normalization | index =>
      obtain ⟨x, hx⟩ := hp
      simp [apply, setParameter, hx, ofPhrases, Phrase.value?, Phrase.root?]
    | minTokens | maxBucket | workers =>
      obtain ⟨n, hn⟩ := hp
      simp [apply, setParameter, positive_eq_ok_iff.mpr hn, hn.1, ofPhrases, Phrase.value?,
        Phrase.root?]
    | maxGap | maxFileSize =>
      obtain ⟨n, hn⟩ := hp
      simp [apply, setParameter, natural_eq_ok_iff.mpr hn, hn, ofPhrases, Phrase.value?,
        Phrase.root?]
    | containment =>
      obtain ⟨x, hx⟩ := hp
      simp [apply, setParameter, share_eq_ok_iff.mpr hx, hx.1, ofPhrases, Phrase.value?,
        Phrase.root?]

/-- Phrases are applied one after the other if each can be used, and then select what they say. -/
theorem foldlM_apply_eq_ok_iff (done : List Phrase) :
    phrases.foldlM apply (ofPhrases done) = .ok s ↔
      (∀ p ∈ phrases, p.IsUsable) ∧ s = ofPhrases (done ++ phrases) := by
  induction phrases generalizing done with
  | nil =>
    rw [List.foldlM_nil, List.append_nil, and_iff_right (fun _ hp => absurd hp List.not_mem_nil)]
    exact ⟨fun h => (Except.ok.inj h).symm, fun h => congrArg _ h.symm⟩
  | cons p phrases ih =>
    rw [List.foldlM_cons, bind_eq_ok_iff, List.forall_mem_cons, List.append_cons]
    constructor
    · rintro ⟨t, ht, h⟩
      have hp := isUsable_of_apply ht
      rw [apply_ofPhrases hp] at ht
      cases ht
      obtain ⟨hphrases, rfl⟩ := (ih _).mp h
      exact ⟨⟨hp, hphrases⟩, rfl⟩
    · rintro ⟨⟨hp, hphrases⟩, rfl⟩
      exact ⟨_, apply_ofPhrases hp done, (ih _).mpr ⟨hphrases, rfl⟩⟩

end Selection

/-! ## Other orders -/

namespace Phrase

/-- Phrases in another order, in which those of each kind keep theirs. -/
structure Reordered (phrases phrases' : List Phrase) : Prop where
  perm : phrases'.Perm phrases
  order : ∀ kind, phrases'.filter (·.kind = kind) = phrases.filter (·.kind = kind)

namespace Reordered

variable {phrases phrases' : List Phrase}

theorem contains_eq (h : Reordered phrases phrases') (p : Phrase) :
    phrases'.contains p = phrases.contains p := by
  rw [Bool.eq_iff_iff, List.contains_iff_mem, List.contains_iff_mem, h.perm.mem_iff]

/-- What is taken from the phrases of one kind is the same, and in the same order. -/
theorem filterMap_eq (h : Reordered phrases phrases') {α : Type} {f : Phrase → Option α}
    (kind : Kind) (hf : ∀ p : Phrase, p.kind ≠ kind → f p = none) :
    phrases'.filterMap f = phrases.filterMap f := by
  have hfilter : ∀ l : List Phrase, l.filterMap f = (l.filter (·.kind = kind)).filterMap f := by
    intro l
    rw [List.filterMap_filter]
    refine List.filterMap_congr fun p _ => ?_
    by_cases hp : p.kind = kind
    · simp [hp]
    · simp [hp, hf p hp]
  rw [hfilter phrases', hfilter phrases, h.order]

theorem values_eq (h : Reordered phrases phrases') (option : Parameter) :
    values option phrases' = values option phrases := by
  refine h.filterMap_eq (.parameter option) fun p hp => ?_
  cases p with
  | parameter other value => exact if_neg fun h => hp (congrArg Kind.parameter h)
  | flag | root => rfl

/-- Phrases in another order select the same. -/
theorem ofPhrases_eq (h : Reordered phrases phrases') :
    Selection.ofPhrases phrases' = Selection.ofPhrases phrases := by
  have hroots : phrases'.filterMap root? = phrases.filterMap root? := by
    refine h.filterMap_eq .root fun p hp => ?_
    cases p with
    | flag | parameter => rfl
    | root path => exact absurd rfl hp
  simp only [Selection.ofPhrases, lastValue?, h.contains_eq, h.values_eq, hroots]

end Reordered

end Phrase

namespace Invocation

variable {w : Workspace} {s : Selection} {i : Invocation}

/-- A selection can be carried out when its settings can be read and are in their ranges. -/
theorem ofSelection_eq_ok_iff : ofSelection w s = .ok i ↔ ∃ base, s.baseSettings w = .ok base ∧
    (s.override base).validate = .ok () ∧ i = {
      json := s.json
      stats := s.stats
      roots := if s.roots.isEmpty && s.targetRoot.isNone then [w.currentPath] else s.roots
      targetRoot := s.targetRoot
      settings := s.override base
      load := s.loadOptions } := by
  simp only [ofSelection, bind_eq_ok_iff, mapError_eq_ok_iff]
  constructor
  · rintro ⟨base, hbase, _, hvalid, h⟩
    exact ⟨base, hbase, hvalid, (Except.ok.inj h).symm⟩
  · rintro ⟨base, hbase, hvalid, rfl⟩
    exact ⟨base, hbase, _, hvalid, rfl⟩

end Invocation

/-! ## Options and the settings file -/

/-- Whether settings are those of the file at a path, or without a path the usual ones. -/
def Settings.Named (w : Workspace) (path : Option String) (settings : Settings) : Prop :=
  match path with
  | none => settings = {}
  | some path => ∃ text, w.readText path = .ok text ∧ Settings.parse? text = some settings

/-- Whether a setting is the one that a value stands for, or without a value the one of the file. -/
def Chosen {α : Type} (read : String → Option α) (value : Option String) (base chosen : α) : Prop :=
  match value with
  | none => chosen = base
  | some value => read value = some chosen

/-- Whether settings are those of a file, with the options and flags of phrases put over them. -/
structure Settings.Overridden (phrases : List Phrase) (base settings : Settings) : Prop where
  normalization : Chosen Normalization.parse? (Phrase.lastValue? .normalization phrases)
    base.normalization settings.normalization
  minTokens : Chosen Decimal.natural? (Phrase.lastValue? .minTokens phrases)
    base.minTokens settings.minTokens
  maxGap : Chosen Decimal.natural? (Phrase.lastValue? .maxGap phrases) base.maxGap settings.maxGap
  strategy : Chosen Strategy.parse? (Phrase.lastValue? .index phrases)
    base.strategy settings.strategy
  containment : Chosen Decimal.float? (Phrase.lastValue? .containment phrases)
    base.containment settings.containment
  maxBucket : Chosen Decimal.natural? (Phrase.lastValue? .maxBucket phrases)
    base.maxBucket settings.maxBucket
  maxWorkers : Chosen (fun value => (Decimal.natural? value).map some)
    (Phrase.lastValue? .workers phrases) base.maxWorkers settings.maxWorkers
  includeComments : settings.includeComments =
    (base.includeComments || phrases.contains (.flag .includeComments))
  dropNoise : settings.dropNoise = (base.dropNoise || phrases.contains (.flag .dropNoise))
  strict : settings.strict = (base.strict || phrases.contains (.flag .strict))
  targetRevision : settings.targetRevision = base.targetRevision

theorem chosen_getD {α : Type} {read : String → Option α} {value : Option String}
    (h : ∀ v ∈ value, ∃ x, read v = some x) (base : α) :
    Chosen read value base ((value.bind read).getD base) := by
  cases value with
  | none => rfl
  | some v =>
    obtain ⟨x, hx⟩ := h v rfl
    simp [Chosen, hx]

theorem chosen_or {α : Type} {read : String → Option α} {value : Option String}
    (h : ∀ v ∈ value, ∃ x, read v = some x) (base : Option α) :
    Chosen (fun v => (read v).map some) value base ((value.bind read).or base) := by
  cases value with
  | none => rfl
  | some v =>
    obtain ⟨x, hx⟩ := h v rfl
    simp [Chosen, hx]

namespace Phrase

variable {phrases : List Phrase} {option : Parameter} {value : String}

/-- The last value of an option is one that it takes. -/
theorem takes_of_lastValue? (h : ∀ p ∈ phrases, p.IsUsable)
    (hvalue : value ∈ lastValue? option phrases) : option.Takes value := by
  obtain ⟨p, hp, hpvalue⟩ := List.mem_filterMap.mp (List.mem_of_getLast? hvalue)
  obtain rfl := value?_eq_some_iff.mp hpvalue
  exact h _ hp

/-- Options come before the settings that they are put over. -/
theorem overridden_override (h : ∀ p ∈ phrases, p.IsUsable) (base : Settings)
    (roots : List String) :
    base.Overridden phrases (((Selection.ofPhrases phrases).addRoots roots).override base) := by
  have htakes (option : Parameter) : ∀ value ∈ lastValue? option phrases, option.Takes value :=
    fun _ => takes_of_lastValue? h
  have hpositive {option : Parameter} (htakes : ∀ value ∈ lastValue? option phrases,
      ∃ n, Decimal.natural? value = some n ∧ n ≠ 0) :
      ∀ value ∈ lastValue? option phrases, ∃ n, Decimal.natural? value = some n :=
    fun value hvalue => (htakes value hvalue).imp fun _ hn => hn.1
  exact {
    normalization := chosen_getD (htakes .normalization) _
    minTokens := chosen_getD (hpositive (htakes .minTokens)) _
    maxGap := chosen_getD (htakes .maxGap) _
    strategy := chosen_getD (htakes .index) _
    containment :=
      chosen_getD (fun v hv => (htakes .containment v hv).imp fun _ hx => hx.1) _
    maxBucket := chosen_getD (hpositive (htakes .maxBucket)) _
    maxWorkers := chosen_or (hpositive (htakes .workers)) _
    includeComments := rfl
    dropNoise := rfl
    strict := rfl
    targetRevision := rfl }

end Phrase

theorem Selection.named_of_baseSettings {w : Workspace} {s : Selection} {base : Settings}
    (h : s.baseSettings w = .ok base) : base.Named w s.config := by
  unfold baseSettings at h
  unfold Settings.Named
  cases hpath : s.config with
  | none =>
    rw [hpath] at h
    exact (Except.ok.inj h).symm
  | some path =>
    rw [hpath] at h
    dsimp only at h ⊢
    split at h
    · cases h
    · split at h
      · cases h
      · cases h
        exact ⟨_, ‹_›, ‹_›⟩

namespace Command

open Phrase (Splits)

variable {w : Workspace} {i : Invocation} {args tail : List String} {phrases : List Phrase}

theorem parse_eq_detect_iff : parse w args = .ok (.detect i) ↔
    ∃ s, Selection.read {} args = .ok (.detect s) ∧ Invocation.ofSelection w s = .ok i := by
  rw [parse, bind_eq_ok_iff]
  constructor
  · rintro ⟨request, hread, h⟩
    cases request with
    | help | version => cases h
    | detect s =>
      obtain ⟨i', hi, h⟩ := bind_eq_ok_iff.mp h
      cases h
      exact ⟨s, hread, hi⟩
  · rintro ⟨s, hread, h⟩
    exact ⟨_, hread, bind_eq_ok_iff.mpr ⟨i, h, rfl⟩⟩

/-- Arguments ask for a detection when every phrase of them can be used and what the phrases select
can be carried out. -/
theorem parse_eq_detect_iff_of_splits (h : Splits args phrases tail) :
    parse w args = .ok (.detect i) ↔ (∀ p ∈ phrases, p.IsUsable) ∧
      Invocation.ofSelection w ((Selection.ofPhrases phrases).addRoots tail.tail) = .ok i := by
  simp only [parse_eq_detect_iff, Selection.read_of_splits h, bind_eq_ok_iff]
  constructor
  · rintro ⟨s, ⟨t, hfold, hs⟩, hi⟩
    obtain ⟨husable, rfl⟩ := (Selection.foldlM_apply_eq_ok_iff []).mp hfold
    cases hs
    exact ⟨husable, hi⟩
  · rintro ⟨husable, hi⟩
    exact ⟨_, ⟨_, (Selection.foldlM_apply_eq_ok_iff []).mpr ⟨husable, rfl⟩, rfl⟩, hi⟩

/-- **The order of arguments.** Arguments that ask for a detection split into phrases and a tail, in
one way only. Phrases of different kinds can change places: whenever those of each kind keep their
order, the same detection is asked for. Its settings are those of the file that is named last, with
the last value of each option and every flag put over them wherever they stand, and they are in
their ranges. -/
theorem parse_reordered (w : Workspace) (args : List String) (invocation : Invocation)
    (h : parse w args = .ok (.detect invocation)) :
    ∃ phrases tail, Splits args phrases tail ∧
      (∀ phrases' tail', Splits args phrases' tail' → phrases' = phrases ∧ tail' = tail) ∧
      (∀ phrases', Phrase.Reordered phrases phrases' →
        parse w (phrases'.flatMap Phrase.args ++ tail) = .ok (.detect invocation)) ∧
      (∃ base : Settings, base.Named w (Phrase.lastValue? .config phrases) ∧
        base.Overridden phrases invocation.settings) ∧
      invocation.settings.validate = .ok () := by
  obtain ⟨s, hread, -⟩ := parse_eq_detect_iff.mp h
  obtain ⟨phrases, tail, hsplits⟩ := Selection.exists_splits hread
  obtain ⟨husable, hselection⟩ := (parse_eq_detect_iff_of_splits hsplits).mp h
  obtain ⟨base, hbase, hvalid, rfl⟩ := Invocation.ofSelection_eq_ok_iff.mp hselection
  refine ⟨phrases, tail, hsplits, fun _ _ => hsplits.unique, fun phrases' hreordered => ?_,
    ⟨base, Selection.named_of_baseSettings hbase, Phrase.overridden_override husable base _⟩,
    hvalid⟩
  have hmem := fun p => hreordered.perm.mem_iff (a := p)
  rw [parse_eq_detect_iff_of_splits ⟨rfl, fun p hp => hsplits.isPlain p ((hmem p).mp hp),
    hsplits.tail_eq⟩, hreordered.ofPhrases_eq]
  exact ⟨fun p hp => husable p ((hmem p).mp hp), hselection⟩

/-- A folder with a file of settings. -/
def settingsFolder : Workspace where
  tree := .folder [("s.json", .file "[\"raw\"]".toUTF8)]

theorem readText_settingsFolder : settingsFolder.readText "s.json" = .ok "[\"raw\"]" := by
  have hcurrent : settingsFolder.currentPlace = [] := by
    simp [Workspace.currentPlace, settingsFolder, Workspace.follow]
  have hchild : FileTree.child? "s.json" (settingsFolder.treeAt []) =
      some (.file "[\"raw\"]".toUTF8) := by
    rfl
  have hfind : settingsFolder.find "s.json" = .ok [("s.json", .file "[\"raw\"]".toUTF8)] := by
    rw [Workspace.find, if_neg (by decide), if_neg (by decide),
      if_neg (by simp [Workspace.maxPath]; decide)]
    dsimp only
    rw [hcurrent, show Workspace.startOf "s.json".toUTF8.data.toList [] = [] by decide,
      show FileName.split "s.json".toUTF8.data.toList = [.ofString "s.json"] by decide,
      Workspace.follow, if_neg (by decide), if_neg (by decide), if_neg (by decide),
      if_neg (by decide), hchild]
    exact Workspace.follow.eq_1 ..
  have hbytes : settingsFolder.readBytes "s.json" = .ok "[\"raw\"]".toUTF8 := by
    rw [Workspace.readBytes, Workspace.look, hfind]
    rfl
  rw [Workspace.readText, hbytes, bind_eq_ok_iff]
  exact ⟨_, rfl, by rw [Text.decode_toUTF8]⟩

/-- A detection with the level of a flag, and not the one of the file. -/
def overridingInvocation : Invocation where
  json := false
  stats := false
  roots := ["a", "b", "--json"]
  targetRoot := none
  settings := { normalization := .full, strict := true }
  load := { ignoredFolders := ({} : LoadOptions).ignoredFolders ++ ["--"] }

/-- An option stands before the file or after it, and a value is spelled like the end of options. -/
theorem parse_reordered_settingsFolder :
    parse settingsFolder ["--normalization", "full", "a", "--config", "s.json", "--ignore-dir",
      "--", "--strict", "b", "--", "--json"] = .ok (.detect overridingInvocation) ∧
    parse settingsFolder ["--strict", "a", "--config", "s.json", "--normalization", "full", "b",
      "--ignore-dir", "--", "--", "--json"] = .ok (.detect overridingInvocation) := by
  have hsplits : Splits ["--normalization", "full", "a", "--config", "s.json", "--ignore-dir", "--",
      "--strict", "b", "--", "--json"] [.parameter .normalization "full", .root "a",
        .parameter .config "s.json", .parameter .ignoreFolder "--", .flag .strict, .root "b"]
      ["--", "--json"] :=
    ⟨rfl, by simp [Phrase.IsPlain], .inr rfl⟩
  have hfull : Normalization.parse? "full" = some .full := by decide +kernel
  have hjson : Json.parse? "[\"raw\"]" = some (.array [.string (some "raw")]) := by cbv
  have hsettings : Settings.parse? "[\"raw\"]" = some { normalization := .raw } := by
    rw [Settings.parse?, hjson]
    rfl
  have hparse : parse settingsFolder ["--normalization", "full", "a", "--config", "s.json",
      "--ignore-dir", "--", "--strict", "b", "--", "--json"] =
        .ok (.detect overridingInvocation) := by
    rw [parse_eq_detect_iff_of_splits hsplits,
      show Selection.addRoots _ _ =
        { strict := true
          roots := ["a", "b", "--json"]
          config := some "s.json"
          normalization := Normalization.parse? "full"
          ignoredFolders := ["--"] } by rfl, hfull, Invocation.ofSelection_eq_ok_iff]
    refine ⟨by simp [Phrase.IsUsable, Parameter.Takes, hfull], { normalization := .raw }, ?_, rfl,
      rfl⟩
    simp only [Selection.baseSettings, readText_settingsFolder, hsettings]
  refine ⟨hparse, ?_⟩
  obtain ⟨phrases, tail, -, hunique, hreordered, -⟩ := parse_reordered _ _ _ hparse
  obtain ⟨rfl, rfl⟩ := hunique _ _ hsplits
  refine hreordered [.flag .strict, .root "a", .parameter .config "s.json",
    .parameter .normalization "full", .root "b", .parameter .ignoreFolder "--"] ⟨by decide, ?_⟩
  rintro (f | option | _)
  · cases f <;> rfl
  · cases option <;> rfl
  · rfl

end Command

end CloneDetection
