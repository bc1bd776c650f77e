import CloneDetection.Proofs.Locality

/-!
# Which files of a request matter

The documents of a request are the files that have a token stream, in the order of their identities.
So they depend on which such files there are, not on the order in which the files are given nor on
the files that were set aside (`documents_eq_of_isDocument_iff`), and with them all that is found.
The files that were set aside are listed in the same order, each once, and the counts add up
(`accounts_of_detect`). A strict detection stops at the least of them
(`exists_detect_eq_error_of_strict`).
-/

namespace CloneDetection

/-- The identity of the file that was set aside. -/
def SkippedFile.identity (s : SkippedFile) : String × String :=
  (s.file, s.revision)

/-- Two outcomes have the same pairs and the same counts of the search. -/
structure Outcome.Agrees (o o' : Outcome) : Prop where
  clonePairs : o.clonePairs = o'.clonePairs
  tokensIndexed : o.statistics.tokensIndexed = o'.statistics.tokensIndexed
  candidatesFound : o.statistics.candidatesFound = o'.statistics.candidatesFound
  gapMerges : o.statistics.gapMerges = o'.statistics.gapMerges
  skippedBucketTruncated :
    o.statistics.skippedBucketTruncated = o'.statistics.skippedBucketTruncated

namespace Detection

variable {settings : Settings} {files files' : List SourceFile} {intake intake' : Intake}
  {outcome : Outcome}

/-- A file has no token stream, for the given reason. -/
def Fails (settings : Settings) (f : SourceFile) (reason : TokenizeError) : Prop :=
  tokenize f.content f.language settings.tokenizeOptions = .error reason

/-- An outcome accounts for every file of a request: each is counted once, and those without a token
stream are listed once each, in the order of their identities. -/
structure Accounts (settings : Settings) (files : List SourceFile) (outcome : Outcome) : Prop where
  received : outcome.statistics.filesReceived = files.length
  counts : outcome.statistics.filesReceived = outcome.statistics.filesTokenized +
    outcome.statistics.skippedUnsupportedLanguage + outcome.statistics.skippedMalformed
  skipped : ∀ s, s ∈ outcome.skippedFiles ↔
    ∃ f ∈ files, s.identity = f.identity ∧ Fails settings f s.reason
  ordered : outcome.skippedFiles.Pairwise fun s t => toLex s.identity < toLex t.identity

/-! ## Files in order -/

theorem pairwise_lt_inOrder (h : (files.map SourceFile.identity).Nodup) :
    (inOrder files).Pairwise fun f g => toLex f.identity < toLex g.identity := by
  have hnodup : (inOrder files).Pairwise fun f g => f.identity ≠ g.identity := by
    rw [← List.pairwise_map]
    exact ((List.mergeSort_perm files identityLE).map _).nodup_iff.mpr h
  refine ((pairwise_inOrder files).and hnodup).imp fun {f g} hfg => ?_
  exact lt_of_le_of_ne (identityLE_iff.mp hfg.1) fun heq => hfg.2 (toLex.injective heq)

theorem failure?_eq_some_iff {f : SourceFile} {s : SkippedFile} :
    failure? settings f = some s ↔ s.identity = f.identity ∧ Fails settings f s.reason := by
  obtain ⟨file, revision, reason⟩ := s
  rw [failure?, Fails]
  cases tokenize f.content f.language settings.tokenizeOptions with
  | ok tokens => simp
  | error cause =>
    simp only [Option.some.injEq, SkippedFile.mk.injEq, SkippedFile.identity,
      SourceFile.identity, Prod.mk.injEq, Except.error.injEq, and_assoc, eq_comm]

/-- Documents are in the order of their identities. -/
theorem pairwise_lt_documents (hrequest : checkRequest files = .ok ())
    (h : tokenizeAll settings (inOrder files) = .ok intake) :
    intake.documents.Pairwise fun d e => toLex d.file.identity < toLex e.file.identity := by
  rw [documents_tokenizeAll h]
  refine (pairwise_lt_inOrder (checkRequest_eq_ok_iff.mp hrequest).2).filterMap _
    fun f g hfg d hd e he => ?_
  rw [(document?_eq_some_iff.mp hd).1, (document?_eq_some_iff.mp he).1]
  exact hfg

/-- Files are set aside in the order of their identities. -/
theorem pairwise_lt_failures (settings : Settings) (hrequest : checkRequest files = .ok ()) :
    ((inOrder files).filterMap (failure? settings)).Pairwise
      fun s t => toLex s.identity < toLex t.identity := by
  refine (pairwise_lt_inOrder (checkRequest_eq_ok_iff.mp hrequest).2).filterMap _
    fun f g hfg s hs t ht => ?_
  rw [(failure?_eq_some_iff.mp hs).1, (failure?_eq_some_iff.mp ht).1]
  exact hfg

theorem mem_failures_iff {s : SkippedFile} :
    s ∈ (inOrder files).filterMap (failure? settings) ↔
      ∃ f ∈ files, s.identity = f.identity ∧ Fails settings f s.reason := by
  simp only [List.mem_filterMap, mem_inOrder, failure?_eq_some_iff]

/-- Every file is a document or set aside. -/
theorem length_documents_add_length_failures (settings : Settings) (files : List SourceFile) :
    (files.filterMap (document? settings)).length + (files.filterMap (failure? settings)).length =
      files.length := by
  induction files with
  | nil => rfl
  | cons file rest ih =>
    rw [List.length_cons, ← ih, List.filterMap_cons, List.filterMap_cons, document?, failure?]
    cases tokenize file.content file.language settings.tokenizeOptions with
    | ok tokens =>
      simp only [List.length_cons]
      omega
    | error reason =>
      simp only [List.length_cons]
      omega

/-- A file is set aside for its language or for its text. -/
theorem fileCounts_skipped (ordered : List SourceFile) (intake : Intake) :
    (fileCounts ordered intake).skippedUnsupportedLanguage +
      (fileCounts ordered intake).skippedMalformed = intake.skipped.length := by
  obtain ⟨documents, skipped⟩ := intake
  induction skipped with
  | nil => rfl
  | cons s rest ih =>
    obtain ⟨file, revision, reason⟩ := s
    simp only [fileCounts] at ih
    cases reason with
    | unsupportedLanguage tag =>
      simp [fileCounts, ← ih]
      omega
    | malformedSource offset reason =>
      simp [fileCounts, ← ih]
      omega

/-! ## Accounts -/

theorem fileCounts_of_compare {ordered : List SourceFile}
    (h : compare settings ordered intake = .ok outcome) :
    outcome.skippedFiles = intake.skipped ∧
      outcome.statistics.filesReceived = (fileCounts ordered intake).filesReceived ∧
      outcome.statistics.filesTokenized = (fileCounts ordered intake).filesTokenized ∧
      outcome.statistics.skippedUnsupportedLanguage =
        (fileCounts ordered intake).skippedUnsupportedLanguage ∧
      outcome.statistics.skippedMalformed = (fileCounts ordered intake).skippedMalformed := by
  rcases Nat.lt_or_ge intake.documents.length 2 with hfew | htwo
  · rw [compare, if_pos hfew] at h
    cases h
    exact ⟨rfl, rfl, rfl, rfl, rfl⟩
  · obtain ⟨index, pairs, -, -, rfl⟩ := (compare_eq_ok_iff htwo).mp h
    exact ⟨rfl, rfl, rfl, rfl, rfl⟩

/-- Every outcome accounts for the files of its request. -/
theorem accounts_of_detect (h : detect settings files = .ok outcome) :
    Accounts settings files outcome := by
  obtain ⟨-, hrequest, intake, hintake, hcompare⟩ := detect_eq_ok_iff.mp h
  obtain ⟨hskipped, hreceived, htokenized, hlanguage, htext⟩ := fileCounts_of_compare hcompare
  have hlength : (inOrder files).length = files.length :=
    (List.mergeSort_perm files identityLE).length_eq
  obtain ⟨-, rfl⟩ := tokenizeAll_eq_ok_iff.mp hintake
  refine ⟨hreceived.trans hlength, ?_, fun s => ?_, ?_⟩
  · rw [hreceived, htokenized, hlanguage, htext, Nat.add_assoc, fileCounts_skipped]
    exact (length_documents_add_length_failures settings (inOrder files)).symm
  · rw [hskipped, mem_failures_iff]
  · rw [hskipped]
    exact pairwise_lt_failures settings hrequest

/-! ## The same documents -/

/-- The documents of a request depend on which files with a token stream there are only. -/
theorem documents_eq_of_isDocument_iff (hrequest : checkRequest files = .ok ())
    (hrequest' : checkRequest files' = .ok ())
    (h : tokenizeAll settings (inOrder files) = .ok intake)
    (h' : tokenizeAll settings (inOrder files') = .ok intake')
    (hsame : ∀ d, IsDocument settings files d ↔ IsDocument settings files' d) :
    intake.documents = intake'.documents := by
  have nodup {docs : List Document}
      (h : docs.Pairwise fun d e => toLex d.file.identity < toLex e.file.identity) :
      docs.Nodup := by
    refine h.imp fun {d e} hlt => ?_
    rintro rfl
    exact lt_irrefl _ hlt
  have hsorted := pairwise_lt_documents hrequest h
  have hsorted' := pairwise_lt_documents hrequest' h'
  refine List.Perm.eq_of_pairwise (fun d e _ _ hde hed => ?_) hsorted hsorted' ?_
  · exact absurd hde hed.not_gt
  · rw [List.perm_ext_iff_of_nodup (nodup hsorted) (nodup hsorted')]
    intro d
    rw [mem_documents_iff h, mem_documents_iff h', hsame]

/-- A comparison depends on its documents only. -/
theorem exists_compare_agrees {ordered ordered' : List SourceFile}
    (hdocs : intake.documents = intake'.documents)
    (h : compare settings ordered intake = .ok outcome) :
    ∃ outcome', compare settings ordered' intake' = .ok outcome' ∧ outcome.Agrees outcome' := by
  rcases Nat.lt_or_ge intake.documents.length 2 with hfew | htwo
  · rw [compare, if_pos hfew] at h
    cases h
    refine ⟨⟨[], intake'.skipped, fileCounts ordered' intake'⟩, ?_, ⟨rfl, rfl, rfl, rfl, rfl⟩⟩
    rw [compare, if_pos (hdocs ▸ hfew)]
  · obtain ⟨index, pairs, hindex, hpairs, rfl⟩ := (compare_eq_ok_iff htwo).mp h
    rw [hdocs] at hindex hpairs htwo
    exact ⟨_, (compare_eq_ok_iff htwo).mpr ⟨index, pairs, hindex, hpairs, rfl⟩,
      ⟨rfl, rfl, rfl, rfl, rfl⟩⟩

/-- A detection that is not strict gives the same results for every request with the same files that
have a token stream. -/
theorem exists_detect_agrees (hstrict : settings.strict = false)
    (hrequest' : checkRequest files' = .ok ())
    (hsame : ∀ d, IsDocument settings files d ↔ IsDocument settings files' d)
    (h : detect settings files = .ok outcome) :
    ∃ outcome', detect settings files' = .ok outcome' ∧ outcome.Agrees outcome' := by
  obtain ⟨hvalid, hrequest, intake, hintake, hcompare⟩ := detect_eq_ok_iff.mp h
  obtain ⟨intake', hintake'⟩ : ∃ intake', tokenizeAll settings (inOrder files') = .ok intake' :=
    exists_tokenizeAll_eq_ok_iff.mpr fun hs => absurd hs (by simp [hstrict])
  have hdocs := documents_eq_of_isDocument_iff hrequest hrequest' hintake hintake' hsame
  obtain ⟨outcome', hcompare', hagrees⟩ := exists_compare_agrees hdocs hcompare
  exact ⟨outcome', detect_eq_ok_iff.mpr ⟨hvalid, hrequest', intake', hintake', hcompare'⟩, hagrees⟩

/-! ## Strict detections -/

/-- The first file that is set aside is the least one without a token stream. -/
theorem exists_head?_failures (hrequest : checkRequest files = .ok ())
    (hfails : ∃ f ∈ files, ∃ reason, Fails settings f reason) :
    ∃ f ∈ files, ∃ reason, Fails settings f reason ∧
      (∀ g ∈ files, ∀ cause, Fails settings g cause → toLex f.identity ≤ toLex g.identity) ∧
      ((inOrder files).filterMap (failure? settings)).head? =
        some ⟨f.id, f.revision, reason⟩ := by
  have hmem {g : SourceFile} {cause : TokenizeError} (hg : g ∈ files)
      (hcause : Fails settings g cause) :
      ⟨g.id, g.revision, cause⟩ ∈ (inOrder files).filterMap (failure? settings) :=
    mem_failures_iff.mpr ⟨g, hg, rfl, hcause⟩
  obtain ⟨k, hk, cause, hcause⟩ := hfails
  obtain ⟨s, rest, hlist⟩ := List.exists_cons_of_ne_nil (List.ne_nil_of_mem (hmem hk hcause))
  obtain ⟨f, hf, hidentity, hreason⟩ := mem_failures_iff.mp (hlist ▸ List.mem_cons_self)
  have hsorted := pairwise_lt_failures settings hrequest
  rw [hlist, List.pairwise_cons] at hsorted
  refine ⟨f, hf, s.reason, hreason, fun g hg cause hcause => ?_, ?_⟩
  · rw [← hidentity]
    rcases List.mem_cons.mp (hlist ▸ hmem hg hcause) with rfl | hlater
    · exact le_refl _
    · exact (hsorted.1 _ hlater).le
  · obtain ⟨hid, hrevision⟩ := Prod.mk.inj hidentity
    rw [hlist, List.head?_cons, ← hid, ← hrevision]

/-- A strict detection of a request with a file that has no token stream fails because of the least
such file. -/
theorem exists_detect_eq_error_of_strict (hvalid : settings.validate = .ok ())
    (hrequest : checkRequest files = .ok ()) (hstrict : settings.strict = true)
    (hfails : ∃ f ∈ files, ∃ reason, Fails settings f reason) :
    ∃ f ∈ files, ∃ reason, Fails settings f reason ∧
      (∀ g ∈ files, ∀ cause, Fails settings g cause → toLex f.identity ≤ toLex g.identity) ∧
      detect settings files = .error (.tokenize f.id f.revision reason) := by
  obtain ⟨f, hf, reason, hreason, hleast, hfirst⟩ := exists_head?_failures hrequest hfails
  refine ⟨f, hf, reason, hreason, hleast, ?_⟩
  refine bind_eq_error_iff.mpr (.inr ⟨(), mapError_eq_ok_iff.mpr hvalid, ?_⟩)
  refine bind_eq_error_iff.mpr (.inr ⟨(), mapError_eq_ok_iff.mpr hrequest, ?_⟩)
  exact bind_eq_error_iff.mpr (.inl (tokenizeAll_eq_error_iff.mpr ⟨hstrict, _, hfirst, rfl⟩))

/-! ## Whole requests -/

/-- Two requests whose files with a token stream are the same have the same pairs and counts of the
search, and both outcomes account for their files, unless the detection is strict. A strict
detection of a request with a file that has no token stream names the least such file. -/
theorem detect_of_same_files (hvalid : settings.validate = .ok ()) (hlen : 2 ≤ files.length)
    (hnodup : (files.map SourceFile.identity).Nodup) (hlen' : 2 ≤ files'.length)
    (hnodup' : (files'.map SourceFile.identity).Nodup)
    (hsame : ∀ f x, tokenize f.content f.language settings.tokenizeOptions = .ok x →
      (f ∈ files ↔ f ∈ files')) :
    (settings.strict = false → ∀ outcome, detect settings files = .ok outcome →
      Accounts settings files outcome ∧ ∃ outcome', detect settings files' = .ok outcome' ∧
        Accounts settings files' outcome' ∧ outcome.Agrees outcome') ∧
    (settings.strict = true → (∃ f ∈ files, ∃ reason, Fails settings f reason) →
      ∃ f ∈ files, ∃ reason, Fails settings f reason ∧
        (∀ g ∈ files, ∀ cause, Fails settings g cause → toLex f.identity ≤ toLex g.identity) ∧
        detect settings files = .error (.tokenize f.id f.revision reason)) := by
  have hrequest := checkRequest_eq_ok_iff.mpr ⟨hlen, hnodup⟩
  have hrequest' := checkRequest_eq_ok_iff.mpr ⟨hlen', hnodup'⟩
  refine ⟨fun hstrict outcome h => ?_, exists_detect_eq_error_of_strict hvalid hrequest⟩
  have hdocs (d : Document) : IsDocument settings files d ↔ IsDocument settings files' d := by
    constructor
    · exact fun hd => ⟨(hsame _ _ hd.tokenize_eq).mp hd.mem, hd.tokenize_eq⟩
    · exact fun hd => ⟨(hsame _ _ hd.tokenize_eq).mpr hd.mem, hd.tokenize_eq⟩
  obtain ⟨outcome', h', hagrees⟩ := exists_detect_agrees hstrict hrequest' hdocs h
  exact ⟨accounts_of_detect h, outcome', h', accounts_of_detect h', hagrees⟩

/-- A file in a language without a grammar. -/
def unknownFile : SourceFile :=
  ⟨"none", "old", "abc", "a b".toUTF8⟩

/-- A file with a literal that does not end. -/
def brokenFile : SourceFile :=
  ⟨"half", "new", "c", "a \"b".toUTF8⟩

/-- Settings for requests with such files. -/
def mixedSettings (strict : Bool) : Settings :=
  { normalization := .raw, minTokens := 2, strict := strict }

theorem fails_unknownFile (strict : Bool) :
    Fails (mixedSettings strict) unknownFile (.unsupportedLanguage "abc") :=
  show tokenize _ _ ⟨.raw, false, false⟩ = _ by decide +kernel

theorem fails_brokenFile (strict : Bool) : Fails (mixedSettings strict) brokenFile
    (.malformedSource 2 "unterminated string literal") :=
  show tokenize _ _ ⟨.raw, false, false⟩ = _ by decide +kernel

theorem detect_mixedFiles : (∃ outcome outcome',
    detect (mixedSettings false) (unknownFile :: threeFiles) = .ok outcome ∧
      detect (mixedSettings false) (threeFiles.reverse ++ [brokenFile]) = .ok outcome' ∧
      outcome.Agrees outcome') ∧
    ∃ (f : SourceFile) (reason : TokenizeError), toLex f.identity ≤ toLex brokenFile.identity ∧
      detect (mixedSettings true) (unknownFile :: brokenFile :: threeFiles) =
        .error (.tokenize f.id f.revision reason) := by
  have hvalid (strict : Bool) : (mixedSettings strict).validate = .ok () := by
    cases strict <;> rfl
  constructor
  · obtain ⟨outcome, h⟩ : ∃ outcome,
        detect (mixedSettings false) (unknownFile :: threeFiles) = .ok outcome :=
      exists_detect_eq_ok (hvalid false) (by decide +kernel) nofun (by decide +kernel)
    have hsame (f : SourceFile) (x : TokenStream)
        (hx : tokenize f.content f.language (mixedSettings false).tokenizeOptions = .ok x) :
        f ∈ unknownFile :: threeFiles ↔ f ∈ threeFiles.reverse ++ [brokenFile] := by
      have hunknown : f ≠ unknownFile := by
        rintro rfl
        cases (fails_unknownFile false).symm.trans hx
      have hbroken : f ≠ brokenFile := by
        rintro rfl
        cases (fails_brokenFile false).symm.trans hx
      simp [hunknown, hbroken]
    obtain ⟨-, outcome', h', -, hagrees⟩ := (detect_of_same_files (hvalid false) (by decide)
      (by decide) (by decide) (by decide) hsame).1 rfl outcome h
    exact ⟨outcome, outcome', h, h', hagrees⟩
  · have hlen : 2 ≤ (unknownFile :: brokenFile :: threeFiles).length := by
      decide
    have hnodup : ((unknownFile :: brokenFile :: threeFiles).map SourceFile.identity).Nodup := by
      decide
    obtain ⟨f, -, reason, -, hleast, h⟩ := (detect_of_same_files (hvalid true) hlen hnodup hlen
      hnodup fun f x _ => Iff.rfl).2 rfl ⟨unknownFile, by simp, _, fails_unknownFile true⟩
    exact ⟨f, reason, hleast brokenFile (by simp) _ (fails_brokenFile true), h⟩

end Detection

end CloneDetection
