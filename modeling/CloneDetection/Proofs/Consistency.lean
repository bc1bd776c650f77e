import CloneDetection.Proofs.Bridging
import CloneDetection.Proofs.Intake
import CloneDetection.Proofs.Offsets

/-!
# The stages of a detection fit together

A detection can fail because of its settings, its request or a file that cannot be read. It does not
fail because one stage hands over what another one cannot use: the sides of every candidate are
ranges of tokens of some document whose bytes can be quoted (`quotable_of_mem_candidates`), and
candidates with such sides are resolved (`Resolve.exists_resolve_eq_ok_of_quotable`). So a request
whose tokens fit the index has an outcome as soon as its files can be read (`exists_detect_eq_ok`),
and `detect_ne_internalInconsistency` holds of every request.
-/

namespace CloneDetection

/-! ## Ranges that can be quoted -/

/-- A range of tokens of a document, with the bytes from its first to its last token: it is not
empty, and the bytes are a well-formed part of the file. -/
structure Document.Quotes (doc : Document) (r : TokenRange) (start stop : Nat) : Prop where
  nonempty : r.start < r.stop
  inside : r.stop ≤ doc.tokens.size
  bytes : doc.tokens.byteRange r.start r.stop = some (start, stop)
  start_le : start ≤ stop
  stop_le : stop ≤ doc.file.content.size
  valid : (doc.file.content.extract start stop).IsValidUTF8

/-- A range of tokens of one of some documents that can be quoted. -/
def Quotable (docs : Array Document) (r : TokenRange) : Prop :=
  ∃ doc start stop, docs[r.stream]? = some doc ∧ doc.Quotes r start stop

/-- Every step of an alignment goes forward, so it has no more pairs than items on a side. -/
theorem length_le_of_isChain {gap : Nat} {pairs : List (Nat × Nat)} {p q : Nat × Nat}
    (h : pairs.IsChain (Step gap)) (hp : pairs.head? = some p) (hq : pairs.getLast? = some q) :
    p.1 + pairs.length ≤ q.1 + 1 := by
  induction pairs generalizing p with
  | nil => cases hp
  | cons p' rest ih =>
    cases hp
    cases rest with
    | nil =>
      cases hq
      exact Nat.le_refl _
    | cons next rest =>
      obtain ⟨hstep, hrest⟩ := List.isChain_cons_cons.mp h
      have hnext := hstep.1
      rw [List.getLast?_cons_cons] at hq
      have := ih hrest rfl hq
      simp only [List.length_cons] at this ⊢
      omega

namespace Alignment

variable {α : Type} {x y : Array α} {gap : Nat} {r s : TokenRange} {pairs : List (Nat × Nat)}

theorem length_le (h : Alignment x y gap r s pairs) : pairs.length ≤ r.length := by
  obtain ⟨q, hq, hstop, -⟩ := h.last
  have hle := length_le_of_isChain h.steps h.first hq
  rw [TokenRange.length]
  simp only at hle
  omega

/-- The sides of an alignment are not empty and end inside the arrays. -/
theorem bounds (h : Alignment x y gap r s pairs) : r.start < r.stop ∧ r.stop ≤ x.size := by
  obtain ⟨q, hq, hstop, -⟩ := h.last
  have hmem := List.mem_of_getLast? hq
  have hlen := h.length_le
  have hpos := List.length_pos_of_mem hmem
  have hlt := (h.equal q hmem).1
  rw [TokenRange.length] at hlen
  omega

end Alignment

theorem exists_bind_eq_ok {ε α β : Type} {x : Except ε α} {f : α → Except ε β} {a : α}
    (hx : x = .ok a) (hf : ∃ b, f a = .ok b) : ∃ b, x >>= f = .ok b := by
  obtain ⟨b, hb⟩ := hf
  exact ⟨b, bind_eq_ok_iff.mpr ⟨a, hx, hb⟩⟩

theorem bind_eq_error_iff {ε α β : Type} {x : Except ε α} {f : α → Except ε β} {e : ε} :
    x >>= f = .error e ↔ x = .error e ∨ ∃ a, x = .ok a ∧ f a = .error e := by
  cases x <;> simp [bind, Except.bind]

theorem mapError_eq_error_iff {ε ε' α : Type} {x : Except ε α} {f : ε → ε'} {e : ε'} :
    x.mapError f = .error e ↔ ∃ d, x = .error d ∧ f d = e := by
  cases x <;> simp [Except.mapError]

namespace Resolve

variable {docs : Array Document} {lines : Array (List Nat)} {options : ResolveOptions}
  {candidates : List Candidate} {c : Candidate} {m : Oriented} {r : TokenRange}

theorem exists_document_eq_ok (h : Quotable docs r) :
    ∃ doc start stop, document docs r.stream = .ok doc ∧ doc.Quotes r start stop := by
  obtain ⟨doc, start, stop, hdoc, hquotes⟩ := h
  exact ⟨doc, start, stop, document_eq_ok_iff.mpr hdoc, hquotes⟩

theorem exists_locate_eq_ok (lines : Array (List Nat)) (h : Quotable docs r) :
    ∃ l, locate docs lines r = .ok l := by
  obtain ⟨doc, start, stop, hdoc, hquotes⟩ := exists_document_eq_ok h
  have hslice : slice? doc.file.content start stop =
      some (String.fromUTF8 (doc.file.content.extract start stop) hquotes.valid) := by
    rw [slice?, if_pos ⟨hquotes.start_le, hquotes.stop_le⟩, String.fromUTF8?,
      dif_pos hquotes.valid]
  refine exists_bind_eq_ok hdoc (exists_bind_eq_ok (byteSpan_eq_ok_iff.mpr hquotes.bytes) ?_)
  simp only [hslice]
  exact ⟨_, rfl⟩

theorem exists_pairOf_eq_ok (ht : Quotable docs m.target) (hs : Quotable docs m.source) :
    ∃ p, pairOf docs lines m = .ok p := by
  obtain ⟨target, htarget⟩ := exists_locate_eq_ok lines ht
  obtain ⟨source, hsource⟩ := exists_locate_eq_ok lines hs
  exact exists_bind_eq_ok htarget (exists_bind_eq_ok hsource ⟨_, rfl⟩)

theorem exists_orient_eq_ok (target : Option String) (ha : Quotable docs c.a)
    (hb : Quotable docs c.b) : ∃ o, orient docs target c = .ok o := by
  cases target with
  | none => exact ⟨_, rfl⟩
  | some revision =>
    obtain ⟨d, -, -, hd, -⟩ := exists_document_eq_ok ha
    obtain ⟨e, -, -, he, -⟩ := exists_document_eq_ok hb
    refine exists_bind_eq_ok hd (exists_bind_eq_ok he ?_)
    split <;> exact ⟨_, rfl⟩

theorem exists_isSelfPair_eq_ok (ht : Quotable docs m.target) (hs : Quotable docs m.source) :
    ∃ b, isSelfPair docs m = .ok b := by
  obtain ⟨d, start, stop, hd, hquotes⟩ := exists_document_eq_ok ht
  obtain ⟨e, start', stop', he, hquotes'⟩ := exists_document_eq_ok hs
  refine exists_bind_eq_ok hd (exists_bind_eq_ok he ?_)
  split
  · exact exists_bind_eq_ok (byteSpan_eq_ok_iff.mpr hquotes.bytes)
      (exists_bind_eq_ok (byteSpan_eq_ok_iff.mpr hquotes'.bytes) ⟨_, rfl⟩)
  · exact ⟨_, rfl⟩

/-- The sides of a match are those of its candidate. -/
theorem Sides.quotable (h : Sides c m) (ha : Quotable docs c.a) (hb : Quotable docs c.b) :
    Quotable docs m.target ∧ Quotable docs m.source := by
  rcases h with rfl | rfl
  · exact ⟨ha, hb⟩
  · exact ⟨hb, ha⟩

theorem exists_orientDistinct_eq_ok (options : ResolveOptions) (ha : Quotable docs c.a)
    (hb : Quotable docs c.b) : ∃ o, orientDistinct docs options c = .ok o := by
  rw [orientDistinct]
  split
  · exact ⟨none, rfl⟩
  · obtain ⟨o, ho⟩ := exists_orient_eq_ok options.targetRevision ha hb
    refine exists_bind_eq_ok ho ?_
    cases o with
    | none => exact ⟨none, rfl⟩
    | some m =>
      obtain ⟨ht, hs⟩ := (sides_of_orient ho).quotable ha hb
      obtain ⟨self, hself⟩ := exists_isSelfPair_eq_ok ht hs
      refine exists_bind_eq_ok hself ?_
      cases self <;> exact ⟨_, rfl⟩

theorem exists_orientAll_eq_ok (options : ResolveOptions) (done : List Oriented)
    (h : ∀ c ∈ candidates, Quotable docs c.a ∧ Quotable docs c.b) :
    ∃ matches_, orientAll docs options done candidates = .ok matches_ := by
  induction candidates generalizing done with
  | nil => exact ⟨_, rfl⟩
  | cons c rest ih =>
    obtain ⟨⟨ha, hb⟩, hrest⟩ := List.forall_mem_cons.mp h
    obtain ⟨o, ho⟩ := exists_orientDistinct_eq_ok options ha hb
    rw [orientAll, ho]
    cases o with
    | none => exact ih done hrest
    | some m => exact ih (m :: done) hrest

/-- Candidates with sides that can be quoted are resolved. -/
theorem exists_resolve_eq_ok_of_quotable (options : ResolveOptions)
    (h : ∀ c ∈ candidates, Quotable docs c.a ∧ Quotable docs c.b) :
    ∃ pairs, resolve candidates docs options = .ok pairs := by
  obtain ⟨matches_, hmatches⟩ := exists_orientAll_eq_ok options [] h
  refine exists_resolve_eq_ok hmatches fun m hm => ?_
  obtain ⟨c, hc, ho⟩ := (mem_orientAll_iff hmatches).mp hm
  obtain ⟨ha, hb⟩ := h c hc
  obtain ⟨ht, hs⟩ := (sides_of_orientDistinct ho).2.quotable ha hb
  exact exists_pairOf_eq_ok ht hs

end Resolve

theorem TokenIndex.exists_build_eq_ok {streams : List TokenStream} {revisions : List Nat}
    (strategy : Strategy) (minLength maxBucket : Nat) (hlen : streams.length = revisions.length)
    (hsize : sumBy (·.size + 1) streams < positionLimit) :
    ∃ index, build streams revisions strategy minLength maxBucket = .ok index := by
  rw [build, if_neg (not_not_intro hlen), if_neg (Nat.not_le_of_lt hsize)]
  cases strategy <;> exact ⟨_, rfl⟩

theorem sumBy_perm {α : Type} (f : α → Nat) {l m : List α} (h : l.Perm m) :
    sumBy f l = sumBy f m := by
  induction h with
  | nil => rfl
  | cons x _ ih => rw [sumBy_cons, sumBy_cons, ih]
  | swap x y l => simp only [sumBy_cons, Nat.add_left_comm]
  | trans _ _ ih ih' => exact ih.trans ih'

theorem sumBy_le_of_sublist {α : Type} (f : α → Nat) {l m : List α} (h : l.Sublist m) :
    sumBy f l ≤ sumBy f m := by
  induction h with
  | slnil => exact Nat.le_refl 0
  | cons x _ ih =>
    rw [sumBy_cons]
    omega
  | cons_cons x _ ih =>
    rw [sumBy_cons, sumBy_cons]
    omega

namespace Detection

variable {settings : Settings} {files : List SourceFile} {intake : Intake}

/-! ## Candidates of documents -/

/-- The number of positions of an index of the files that have a token stream: one for each token and
one for the end of each file. -/
def positions (settings : Settings) (files : List SourceFile) : Nat :=
  sumBy (·.tokens.size + 1) (files.filterMap (document? settings))

/-- The sides of every candidate can be quoted. -/
theorem quotable_of_mem_candidates {docs : List Document} {index : TokenIndex} {c : Candidate}
    (hdocs : ∀ doc ∈ docs, doc.tokens.Placed doc.file.content) (hmin : 1 ≤ settings.minTokens)
    (hindex : TokenIndex.build (docs.map (·.tokens)) (revisionGroups docs) settings.strategy
      settings.seedTokens settings.maxBucket = .ok index)
    (hc : c ∈ (Match.find index (query settings)).candidates) :
    Quotable docs.toArray c.a ∧ Quotable docs.toArray c.b := by
  obtain ⟨x, y, pairs, hx, hy, halign, -⟩ := Match.aligned_of_mem_candidates
    (one_le_minLength_query hmin) hindex hc
  have quotable {r : TokenRange} {x : TokenStream}
      (hx : (docs.map (·.tokens))[r.stream]? = some x)
      (hbounds : r.start < r.stop ∧ r.stop ≤ x.texts.size) : Quotable docs.toArray r := by
    rw [List.getElem?_map, Option.map_eq_some_iff] at hx
    obtain ⟨doc, hdoc, rfl⟩ := hx
    rw [TokenStream.size_texts] at hbounds
    obtain ⟨start, stop, hbytes, hle, hstop, hvalid⟩ :=
      (hdocs doc (List.mem_of_getElem? hdoc)).exists_byteRange hbounds.1 hbounds.2
    exact ⟨doc, start, stop, by rwa [List.getElem?_toArray],
      hbounds.1, hbounds.2, hbytes, hle, hstop, hvalid⟩
  exact ⟨quotable hx halign.bounds, quotable hy halign.symm.bounds⟩

/-- Documents whose tokens fit the index are searched, and what is found can be quoted. -/
theorem exists_matchDocuments_eq_ok {docs : List Document}
    (hdocs : ∀ doc ∈ docs, doc.tokens.Placed doc.file.content) (hmin : 1 ≤ settings.minTokens)
    (hsize : sumBy (·.tokens.size + 1) docs < TokenIndex.positionLimit) :
    ∃ found tokens, matchDocuments settings docs = .ok (found, tokens) ∧
      ∀ c ∈ found.candidates, Quotable docs.toArray c.a ∧ Quotable docs.toArray c.b := by
  have hlen : (docs.map (·.tokens)).length = (revisionGroups docs).length := by
    simp [revisionGroups]
  rw [← sumBy_map (fun tokens : TokenStream => tokens.size + 1) Document.tokens] at hsize
  obtain ⟨index, hindex⟩ := TokenIndex.exists_build_eq_ok settings.strategy settings.seedTokens
    settings.maxBucket hlen hsize
  exact ⟨_, _, matchDocuments_eq_ok_iff.mpr ⟨index, hindex, rfl, rfl⟩,
    fun c hc => quotable_of_mem_candidates hdocs hmin hindex hc⟩

/-! ## A whole detection -/

theorem placed_of_mem_documents (h : tokenizeAll settings (inOrder files) = .ok intake)
    {doc : Document} (hdoc : doc ∈ intake.documents) : doc.tokens.Placed doc.file.content :=
  placed_of_tokenize ((mem_documents_iff h).mp hdoc).tokenize_eq

theorem sumBy_documents (h : tokenizeAll settings (inOrder files) = .ok intake) :
    sumBy (·.tokens.size + 1) intake.documents = positions settings files := by
  rw [documents_tokenizeAll h, positions]
  exact sumBy_perm _ ((List.mergeSort_perm files identityLE).filterMap _)

theorem size_lt_positions {doc : Document} (hdoc : IsDocument settings files doc) :
    doc.tokens.size < positions settings files := by
  have hmem : doc ∈ files.filterMap (document? settings) :=
    List.mem_filterMap.mpr
      ⟨doc.file, hdoc.mem, document?_eq_some_iff.mpr ⟨rfl, hdoc.tokenize_eq⟩⟩
  have hle := sumBy_le_of_sublist (fun doc : Document => doc.tokens.size + 1)
    (List.singleton_sublist.mpr hmem)
  rw [sumBy_cons, sumBy_nil] at hle
  rw [positions]
  omega

/-- Files that were read are compared if their tokens fit the index. -/
theorem exists_compare_eq_ok {ordered : List SourceFile} (hmin : 1 ≤ settings.minTokens)
    (hsize : positions settings files < TokenIndex.positionLimit)
    (h : tokenizeAll settings (inOrder files) = .ok intake) :
    ∃ outcome, compare settings ordered intake = .ok outcome := by
  rw [compare]
  split
  · exact ⟨_, rfl⟩
  · obtain ⟨found, tokens, hfound, hquotable⟩ := exists_matchDocuments_eq_ok
      (fun doc => placed_of_mem_documents h) hmin (by rwa [sumBy_documents h])
    obtain ⟨pairs, hpairs⟩ := Resolve.exists_resolve_eq_ok_of_quotable (resolveOptions settings)
      hquotable
    exact exists_bind_eq_ok hfound (exists_bind_eq_ok hpairs ⟨_, rfl⟩)

/-- A request has an outcome if its files can be read, or do not have to be, and their tokens fit the
index. -/
theorem exists_detect_eq_ok (hvalid : settings.validate = .ok ())
    (hrequest : checkRequest files = .ok ())
    (hread : settings.strict = true → ∀ f ∈ files, ∃ doc, document? settings f = some doc)
    (hsize : positions settings files < TokenIndex.positionLimit) :
    ∃ outcome, detect settings files = .ok outcome := by
  obtain ⟨intake, hintake⟩ : ∃ intake, tokenizeAll settings (inOrder files) = .ok intake :=
    exists_tokenizeAll_eq_ok_iff.mpr fun hstrict f hf => hread hstrict f (mem_inOrder.mp hf)
  obtain ⟨outcome, houtcome⟩ :=
    exists_compare_eq_ok (Settings.validate_eq_ok_iff.mp hvalid).1 hsize hintake
  exact ⟨outcome, detect_eq_ok_iff.mpr ⟨hvalid, hrequest, intake, hintake, houtcome⟩⟩

/-- An internal inconsistency comes from the comparison of files that were read. -/
theorem detect_eq_internalInconsistency {cause : InternalError}
    (h : detect settings files = .error (.internalInconsistency cause)) : ∃ intake,
      tokenizeAll settings (inOrder files) = .ok intake ∧
        compare settings (inOrder files) intake = .error cause := by
  rcases bind_eq_error_iff.mp h with h | ⟨-, -, h⟩
  · obtain ⟨_, -, h⟩ := mapError_eq_error_iff.mp h
    cases h
  rcases bind_eq_error_iff.mp h with h | ⟨-, -, h⟩
  · obtain ⟨_, -, h⟩ := mapError_eq_error_iff.mp h
    cases h
  rcases bind_eq_error_iff.mp h with h | ⟨intake, hintake, h⟩
  · obtain ⟨-, _, -, h⟩ := tokenizeAll_eq_error_iff.mp h
    cases h
  obtain ⟨_, hcompare, h⟩ := mapError_eq_error_iff.mp h
  cases h
  exact ⟨intake, hintake, hcompare⟩

/-- No detection whose tokens fit the index ends with an internal inconsistency. Both sides of every
candidate that is resolved name a document and some of its tokens, from the first to the last of
which the bytes of the file are well-formed. -/
theorem detect_ne_internalInconsistency (hvalid : settings.validate = .ok ())
    (hsize : positions settings files < 2 ^ 32) :
    (∀ cause, detect settings files ≠ .error (.internalInconsistency cause)) ∧
      ∀ intake, tokenizeAll settings (inOrder files) = .ok intake → ∃ found tokens,
        matchDocuments settings intake.documents = .ok (found, tokens) ∧
        ∀ c ∈ found.candidates, Quotable intake.documents.toArray c.a ∧
          Quotable intake.documents.toArray c.b := by
  have hmin := (Settings.validate_eq_ok_iff.mp hvalid).1
  refine ⟨fun cause h => ?_, fun intake hintake => ?_⟩
  · obtain ⟨intake, hintake, hcompare⟩ := detect_eq_internalInconsistency h
    obtain ⟨outcome, houtcome⟩ := exists_compare_eq_ok hmin hsize hintake
    rw [houtcome] at hcompare
    cases hcompare
  · exact exists_matchDocuments_eq_ok (fun doc => placed_of_mem_documents hintake) hmin
      (by rwa [sumBy_documents hintake])

/-- Two files with characters of several bytes in a pattern, a literal and a comment. -/
def accentedFiles : List SourceFile :=
  [⟨"one", "new", "javascript", "x = /[é/]ü/g; // ß".toUTF8⟩,
    ⟨"two", "old", "javascript", "y = \"ö\" + /[é/]ü/g;".toUTF8⟩]

theorem detect_accentedFiles : positions { minTokens := 2, maxGap := 1 } accentedFiles = 12 ∧
    ∀ cause, detect { minTokens := 2, maxGap := 1 } accentedFiles ≠
      .error (.internalInconsistency cause) := by
  have hsize : positions { minTokens := 2, maxGap := 1 } accentedFiles = 12 := by
    decide +kernel
  exact ⟨hsize, (detect_ne_internalInconsistency (by rfl) (by rw [hsize]; decide)).1⟩

end Detection

end CloneDetection
