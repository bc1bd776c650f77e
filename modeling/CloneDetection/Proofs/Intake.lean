import CloneDetection.Proofs.Matching
import CloneDetection.Proofs.Resolution
import CloneDetection.Session.Basic
import Mathlib.Data.List.Nodup

/-!
# The stages of a detection

A detection that succeeds has valid settings and a request in which no two files share their
identity (`detect_eq_ok_iff`). Its documents are the files of the request that have a token stream
(`mem_documents_iff`), and what it reports comes from the search of an index of these documents
(`compare_eq_ok_iff`).
-/

namespace CloneDetection

/-! ## Settings -/

namespace Settings

variable {s : Settings}

theorem validate_eq_ok_iff : s.validate = .ok () ↔ 1 ≤ s.minTokens ∧
    isShare s.containment = true ∧ 1 ≤ s.maxBucket ∧ s.maxWorkers ≠ some 0 ∧
    s.targetRevision ≠ some "" := by
  rw [validate]
  split
  · simp_all
  · rename_i hmin
    split
    · simp_all
    · rename_i hshare
      split
      · simp_all
      · rename_i hbucket
        split
        · simp_all
        · split
          · simp_all
          · simp only [Bool.not_eq_eq_eq_not, Bool.not_true, Bool.not_eq_false] at hshare
            simp [*, Nat.one_le_iff_ne_zero]

theorem one_le_seedTokens (h : 1 ≤ s.minTokens) : 1 ≤ s.seedTokens := by
  rw [seedTokens]
  split
  · exact h
  · omega

theorem seedTokens_le_minTokens (h : 1 ≤ s.minTokens) : s.seedTokens ≤ s.minTokens := by
  rw [seedTokens]
  split
  · exact Nat.le_refl _
  · omega

theorem seedTokens_of_maxGap_eq_zero (h : s.maxGap = 0) : s.seedTokens = s.minTokens := by
  rw [seedTokens, if_pos h]

end Settings

namespace Detection

variable {settings : Settings} {files : List SourceFile} {intake : Intake} {outcome : Outcome}

theorem one_le_minLength_query (h : 1 ≤ settings.minTokens) : 1 ≤ (query settings).minLength :=
  Settings.one_le_seedTokens h

/-! ## The request -/

theorem firstRepeated?_eq_none_iff {seen : List (String × String)} :
    firstRepeated? seen files = none ↔
      (files.map SourceFile.identity).Nodup ∧ ∀ f ∈ files, f.identity ∉ seen := by
  induction files generalizing seen with
  | nil => simp [firstRepeated?]
  | cons file rest ih =>
    rw [firstRepeated?, List.map_cons, List.nodup_cons, List.forall_mem_cons]
    split
    · rename_i hseen
      simp only [List.contains_iff_mem] at hseen
      simp [hseen]
    · rename_i hseen
      simp only [List.contains_iff_mem] at hseen
      simp only [ih, List.mem_cons, not_or, List.mem_map, not_exists, not_and]
      constructor
      · rintro ⟨hnodup, hnew⟩
        exact ⟨⟨fun f hf => (hnew f hf).1, hnodup⟩, hseen, fun f hf => (hnew f hf).2⟩
      · rintro ⟨⟨hne, hnodup⟩, -, hnew⟩
        exact ⟨hnodup, fun f hf => ⟨hne f hf, hnew f hf⟩⟩

theorem checkRequest_eq_ok_iff : checkRequest files = .ok () ↔
    2 ≤ files.length ∧ (files.map SourceFile.identity).Nodup := by
  rw [checkRequest]
  split
  · rename_i hlen
    simp only [reduceCtorEq, false_iff, not_and]
    omega
  · rename_i hlen
    have hnone := @firstRepeated?_eq_none_iff files []
    simp only [List.not_mem_nil, not_false_eq_true, implies_true, and_true] at hnone
    split
    · rename_i file hfile
      simp [← hnone, hfile]
    · rename_i hfile
      simp only [hnone.mp hfile, and_true, true_iff]
      omega

theorem mem_inOrder {f : SourceFile} : f ∈ inOrder files ↔ f ∈ files :=
  List.mem_mergeSort

/-! ## Documents -/

/-- A document of a request: one of its files, with the token stream of that file. -/
structure IsDocument (settings : Settings) (files : List SourceFile) (doc : Document) : Prop where
  mem : doc.file ∈ files
  tokenize_eq : tokenize doc.file.content doc.file.language settings.tokenizeOptions =
    .ok doc.tokens

/-- The document of a file, if it has a token stream. -/
def document? (settings : Settings) (file : SourceFile) : Option Document :=
  match tokenize file.content file.language settings.tokenizeOptions with
  | .ok tokens => some ⟨file, tokens⟩
  | .error _ => none

theorem document?_eq_some_iff {f : SourceFile} {doc : Document} :
    document? settings f = some doc ↔ doc.file = f ∧
      tokenize f.content f.language settings.tokenizeOptions = .ok doc.tokens := by
  obtain ⟨file, tokens⟩ := doc
  rw [document?]
  cases tokenize f.content f.language settings.tokenizeOptions with
  | ok tokens' => simp [eq_comm]
  | error reason => simp

/-- The file that is set aside for want of a token stream, if there is none. -/
def failure? (settings : Settings) (f : SourceFile) : Option SkippedFile :=
  match tokenize f.content f.language settings.tokenizeOptions with
  | .ok _ => none
  | .error reason => some ⟨f.id, f.revision, reason⟩

/-- The files that have a token stream are the documents and the others are set aside, all in their
order, if none of the others stops a strict detection. -/
theorem tokenizeFrom_eq_ok_iff {done : Intake} :
    tokenizeFrom settings done files = .ok intake ↔
      (settings.strict = true → ∀ f ∈ files, ∃ doc, document? settings f = some doc) ∧
      intake = ⟨done.documents.reverse ++ files.filterMap (document? settings),
        done.skipped.reverse ++ files.filterMap (failure? settings)⟩ := by
  induction files generalizing done with
  | nil =>
    rw [tokenizeFrom, Except.ok.injEq, eq_comm]
    simp
  | cons file rest ih =>
    rw [tokenizeFrom]
    split
    · rename_i tokens htokens
      simp [ih, document?, failure?, htokens]
    · rename_i reason hreason
      split
      · rename_i hstrict
        simp [hstrict, document?, hreason]
      · rename_i hstrict
        simp [ih, hstrict, document?, failure?, hreason]

/-- Reading files fails with the first one that has no token stream, in a strict detection. -/
theorem tokenizeFrom_eq_error_iff {done : Intake} {e : DetectError} :
    tokenizeFrom settings done files = .error e ↔ settings.strict = true ∧
      ∃ s, (files.filterMap (failure? settings)).head? = some s ∧
        e = .tokenize s.file s.revision s.reason := by
  induction files generalizing done with
  | nil => simp [tokenizeFrom]
  | cons file rest ih =>
    rw [tokenizeFrom]
    split
    · rename_i tokens htokens
      simp [ih, failure?, htokens]
    · rename_i reason hreason
      split
      · rename_i hstrict
        simp [hstrict, failure?, hreason, eq_comm]
      · rename_i hstrict
        simp [ih, hstrict]

theorem tokenizeAll_eq_ok_iff : tokenizeAll settings files = .ok intake ↔
    (settings.strict = true → ∀ f ∈ files, ∃ doc, document? settings f = some doc) ∧
    intake = ⟨files.filterMap (document? settings), files.filterMap (failure? settings)⟩ := by
  rw [tokenizeAll, tokenizeFrom_eq_ok_iff]
  rfl

/-- Files are read as tokens unless one of them stops a strict detection. -/
theorem exists_tokenizeAll_eq_ok_iff : (∃ intake, tokenizeAll settings files = .ok intake) ↔
    (settings.strict = true → ∀ f ∈ files, ∃ doc, document? settings f = some doc) := by
  simp only [tokenizeAll_eq_ok_iff, exists_and_left, exists_eq, and_true]

theorem tokenizeAll_eq_error_iff {e : DetectError} :
    tokenizeAll settings files = .error e ↔ settings.strict = true ∧
      ∃ s, (files.filterMap (failure? settings)).head? = some s ∧
        e = .tokenize s.file s.revision s.reason :=
  tokenizeFrom_eq_error_iff

/-- The documents are in the order of the files. -/
theorem documents_tokenizeAll (h : tokenizeAll settings files = .ok intake) :
    intake.documents = files.filterMap (document? settings) := by
  rw [(tokenizeAll_eq_ok_iff.mp h).2]

/-- The documents are the files that have a token stream, each with that stream. -/
theorem mem_documents_iff (h : tokenizeAll settings (inOrder files) = .ok intake)
    {doc : Document} : doc ∈ intake.documents ↔ IsDocument settings files doc := by
  simp only [documents_tokenizeAll h, List.mem_filterMap, mem_inOrder, document?_eq_some_iff]
  constructor
  · rintro ⟨f, hmem, rfl, htokens⟩
    exact ⟨hmem, htokens⟩
  · rintro ⟨hmem, htokens⟩
    exact ⟨doc.file, hmem, rfl, htokens⟩

/-- Two documents of a request with distinct identities are told apart by their identities. -/
theorem IsDocument.eq_of_identity_eq {d e : Document} (hd : IsDocument settings files d)
    (he : IsDocument settings files e) (hfiles : (files.map SourceFile.identity).Nodup)
    (h : d.file.identity = e.file.identity) : d = e := by
  obtain ⟨f, x⟩ := d
  obtain ⟨g, y⟩ := e
  obtain rfl : f = g := List.inj_on_of_nodup_map hfiles hd.mem he.mem h
  obtain rfl : x = y := Except.ok.inj (hd.tokenize_eq.symm.trans he.tokenize_eq)
  rfl

section MapFile

variable {docs : List Document} (h : ∀ doc ∈ docs,
  tokenize doc.file.content doc.file.language settings.tokenizeOptions = .ok doc.tokens)

include h

theorem filterMap_document?_map_file :
    (docs.map (·.file)).filterMap (document? settings) = docs := by
  rw [List.filterMap_map]
  refine (List.filterMap_congr fun doc hdoc => ?_).trans List.filterMap_some
  exact document?_eq_some_iff.mpr ⟨rfl, h doc hdoc⟩

/-- When every file has a token stream, all are documents, in the same order. -/
theorem tokenizeAll_map_file : tokenizeAll settings (docs.map (·.file)) = .ok ⟨docs, []⟩ := by
  have hread : ∀ f ∈ docs.map (·.file), ∃ doc, document? settings f = some doc := by
    simp only [List.forall_mem_map]
    exact fun doc hdoc => ⟨doc, document?_eq_some_iff.mpr ⟨rfl, h doc hdoc⟩⟩
  have hfailures : (docs.map (·.file)).filterMap (failure? settings) = [] := by
    simp only [List.filterMap_eq_nil_iff, List.forall_mem_map]
    exact fun doc hdoc => by rw [failure?, h doc hdoc]
  rw [tokenizeAll_eq_ok_iff, filterMap_document?_map_file h, hfailures]
  exact ⟨fun _ => hread, rfl⟩

end MapFile

/-- Two documents are in different groups exactly when they are in different revisions. -/
theorem revisionGroups_ne_iff {docs : List Document} {s t : Nat} {d e : Document}
    (hd : docs[s]? = some d) (he : docs[t]? = some e) :
    (revisionGroups docs)[s]? ≠ (revisionGroups docs)[t]? ↔
      d.file.revision ≠ e.file.revision := by
  have label {r : Nat} {doc : Document} (h : docs[r]? = some doc) :
      doc.file.revision ∈ (docs.map (·.file.revision)).mergeSort.eraseReps := by
    rw [mem_eraseReps, List.mem_mergeSort]
    exact List.mem_map_of_mem (List.mem_of_getElem? h)
  simp only [revisionGroups, List.getElem?_map, hd, he, Option.map_some, ne_eq,
    Option.some.injEq, List.idxOf_inj (label hd)]

/-! ## The run -/

theorem matchDocuments_eq_ok_iff {docs : List Document} {found : Match.Matches} {tokens : Nat} :
    matchDocuments settings docs = .ok (found, tokens) ↔ ∃ index,
      TokenIndex.build (docs.map (·.tokens)) (revisionGroups docs) settings.strategy
        settings.seedTokens settings.maxBucket = .ok index ∧
      found = Match.find index (query settings) ∧ tokens = index.tokenCount := by
  rw [matchDocuments, bind_eq_ok_iff]
  refine exists_congr fun index => and_congr_right fun _ => ?_
  constructor
  · intro h
    cases h
    exact ⟨rfl, rfl⟩
  · rintro ⟨rfl, rfl⟩
    rfl

/-- What a comparison of at least two documents reports. -/
theorem compare_eq_ok_iff {ordered : List SourceFile} (hdocs : 2 ≤ intake.documents.length) :
    compare settings ordered intake = .ok outcome ↔ ∃ index pairs,
      TokenIndex.build (intake.documents.map (·.tokens)) (revisionGroups intake.documents)
        settings.strategy settings.seedTokens settings.maxBucket = .ok index ∧
      resolve (Match.find index (query settings)).candidates intake.documents.toArray
        (resolveOptions settings) = .ok pairs ∧
      outcome = ⟨pairs, intake.skipped, { fileCounts ordered intake with
        tokensIndexed := index.tokenCount
        candidatesFound := (Match.find index (query settings)).candidates.length
        gapMerges := (Match.find index (query settings)).gapMerges
        skippedBucketTruncated := (Match.find index (query settings)).truncated
        pairsReported := pairs.length }⟩ := by
  rw [compare, if_neg (by omega), bind_eq_ok_iff]
  constructor
  · rintro ⟨⟨found, tokens⟩, hfound, h⟩
    obtain ⟨index, hindex, rfl, rfl⟩ := matchDocuments_eq_ok_iff.mp hfound
    obtain ⟨pairs, hpairs, h⟩ := bind_eq_ok_iff.mp h
    cases h
    exact ⟨index, pairs, hindex, hpairs, rfl⟩
  · rintro ⟨index, pairs, hindex, hpairs, rfl⟩
    exact ⟨_, matchDocuments_eq_ok_iff.mpr ⟨index, hindex, rfl, rfl⟩,
      bind_eq_ok_iff.mpr ⟨pairs, hpairs, rfl⟩⟩

theorem clonePairs_of_length_lt_two {ordered : List SourceFile}
    (hdocs : intake.documents.length < 2) (h : compare settings ordered intake = .ok outcome) :
    outcome.clonePairs = [] := by
  rw [compare, if_pos hdocs] at h
  cases h
  rfl

end Detection

theorem mapError_eq_ok_iff {ε ε' α : Type} {x : Except ε α} {f : ε → ε'} {a : α} :
    x.mapError f = .ok a ↔ x = .ok a := by
  cases x <;> simp [Except.mapError]

/-- A detection succeeds when its settings and its request are in order and none of its stages
fails. -/
theorem detect_eq_ok_iff {settings : Settings} {files : List SourceFile} {outcome : Outcome} :
    detect settings files = .ok outcome ↔ settings.validate = .ok () ∧
      Detection.checkRequest files = .ok () ∧ ∃ intake,
        Detection.tokenizeAll settings (Detection.inOrder files) = .ok intake ∧
        Detection.compare settings (Detection.inOrder files) intake = .ok outcome := by
  simp only [detect, Detection.run, bind_eq_ok_iff, mapError_eq_ok_iff, Bool.false_eq_true,
    if_false]
  exact ⟨fun ⟨(), hvalid, (), h⟩ => ⟨hvalid, h⟩, fun ⟨hvalid, h⟩ => ⟨(), hvalid, (), h⟩⟩

end CloneDetection
