import CloneDetection.ClonePair.Resolve
import CloneDetection.Proofs.SortedLists
import Mathlib.Data.List.Forall2

/-!
# From candidates to pairs and back

Every reported pair locates the two sides of a candidate that is long enough
(`exists_candidate_of_mem_resolve`). In the other direction a candidate may give way to another one,
but not without a pair of the same two documents, as the first match of two streams is always kept
(`exists_pair_of_candidate`).
-/

namespace CloneDetection

/-! ## Computations that may fail -/

section Except

variable {ε α β : Type}

theorem bind_eq_ok_iff {x : Except ε α} {f : α → Except ε β} {b : β} :
    x >>= f = .ok b ↔ ∃ a, x = .ok a ∧ f a = .ok b := by
  cases x <;> simp [bind, Except.bind]

theorem exists_eq_ok_of_isOk {x : Except ε α} (h : x.isOk = true) : ∃ a, x = .ok a := by
  cases x with
  | error e => cases h
  | ok a => exact ⟨a, rfl⟩

theorem mapM_eq_ok_iff {f : α → Except ε β} {l : List α} {out : List β} :
    l.mapM f = .ok out ↔ List.Forall₂ (fun a b => f a = .ok b) l out := by
  induction l generalizing out with
  | nil =>
    rw [List.mapM_nil, List.forall₂_nil_left_iff]
    exact ⟨fun h => (Except.ok.inj h).symm, fun h => h ▸ rfl⟩
  | cons a l ih =>
    rw [List.mapM_cons, bind_eq_ok_iff, List.forall₂_cons_left_iff]
    refine exists_congr fun b => ?_
    rw [bind_eq_ok_iff]
    constructor
    · rintro ⟨hb, bs, hbs, hout⟩
      exact ⟨bs, hb, ih.mp hbs, (Except.ok.inj hout).symm⟩
    · rintro ⟨bs, hb, hbs, rfl⟩
      exact ⟨hb, bs, ih.mpr hbs, rfl⟩

theorem exists_of_forall₂ {R : α → β → Prop} {l : List α} {out : List β}
    (h : List.Forall₂ R l out) {a : α} (ha : a ∈ l) : ∃ b ∈ out, R a b := by
  induction h with
  | nil => cases ha
  | @cons a b _ _ hab _ ih =>
    rcases List.mem_cons.mp ha with rfl | ha
    · exact ⟨b, List.mem_cons_self, hab⟩
    · obtain ⟨b, hb, h⟩ := ih ha
      exact ⟨b, List.mem_cons_of_mem _ hb, h⟩

theorem exists_mapM_eq_ok {f : α → Except ε β} {l : List α} (h : ∀ a ∈ l, ∃ b, f a = .ok b) :
    ∃ out, l.mapM f = .ok out := by
  induction l with
  | nil => exact ⟨[], rfl⟩
  | cons a l ih =>
    obtain ⟨b, hb⟩ := h a List.mem_cons_self
    obtain ⟨bs, hbs⟩ := ih fun a ha => h a (List.mem_cons_of_mem _ ha)
    refine ⟨b :: bs, ?_⟩
    rw [List.mapM_cons]
    exact bind_eq_ok_iff.mpr ⟨b, hb, bind_eq_ok_iff.mpr ⟨bs, hbs, rfl⟩⟩

end Except

/-! ## Suppression -/

namespace Oriented

variable {threshold : Float}

theorem mem_keep_of_mem {kept l : List Oriented} {m : Oriented} (h : m ∈ kept) :
    m ∈ keep threshold kept l := by
  induction l generalizing kept with
  | nil => exact List.mem_reverse.mpr h
  | cons n l ih =>
    rw [keep]
    split
    · exact ih h
    · exact ih (List.mem_cons_of_mem n h)

theorem mem_of_mem_keep {kept l : List Oriented} {m : Oriented}
    (h : m ∈ keep threshold kept l) : m ∈ kept ∨ m ∈ l := by
  induction l generalizing kept with
  | nil => exact .inl (List.mem_reverse.mp h)
  | cons n l ih =>
    rw [keep] at h
    split at h
    · exact (ih h).imp_right (List.mem_cons_of_mem n)
    · rcases ih h with hm | hm
      · exact (List.mem_cons.mp hm).elim (fun e => .inr (e ▸ List.mem_cons_self)) .inl
      · exact .inr (List.mem_cons_of_mem n hm)

/-- The groups of matches that are cut down separately. -/
theorem mem_suppress_iff {l : List Oriented} {m : Oriented} :
    m ∈ suppress threshold l ↔ ∃ group ∈ (l.mergeSort fun m n => m.visitKey.le n.visitKey).splitBy
      fun m n => m.streamPair == n.streamPair, m ∈ keep threshold [] group := by
  simp only [suppress, List.mem_mergeSort, List.mem_flatMap]

theorem mem_of_mem_suppress {l : List Oriented} {m : Oriented} (h : m ∈ suppress threshold l) :
    m ∈ l := by
  obtain ⟨group, hgroup, hm⟩ := mem_suppress_iff.mp h
  have hm : m ∈ group := (mem_of_mem_keep hm).resolve_left List.not_mem_nil
  have hflat := List.mem_flatten_of_mem hgroup hm
  rwa [List.flatten_splitBy, List.mem_mergeSort] at hflat

/-- Of the matches of two streams at least one is kept. -/
theorem exists_mem_suppress {l : List Oriented} {m : Oriented} (h : m ∈ l) :
    ∃ n ∈ suppress threshold l, n.streamPair = m.streamPair := by
  have hm : m ∈ l.mergeSort fun m n => m.visitKey.le n.visitKey := List.mem_mergeSort.mpr h
  rw [← List.flatten_splitBy (fun m n => m.streamPair == n.streamPair) (List.mergeSort _ _),
    List.mem_flatten] at hm
  obtain ⟨group, hgroup, hm⟩ := hm
  obtain ⟨first, rest, rfl⟩ := List.exists_cons_of_ne_nil (List.ne_nil_of_mem hm)
  refine ⟨first, mem_suppress_iff.mpr ⟨_, hgroup, ?_⟩, ?_⟩
  · rw [keep, List.any_nil]
    exact mem_keep_of_mem List.mem_cons_self
  · exact key_eq_of_mem_splitBy hgroup List.mem_cons_self hm

end Oriented

/-! ## Locations -/

/-- A location names a document and bounds the bytes of a range of its tokens. -/
structure Location.Spans (l : Location) (doc : Document) (range : TokenRange) : Prop where
  file : l.file = doc.file.id
  revision : l.revision = doc.file.revision
  bytes : doc.tokens.byteRange range.start range.stop = some (l.startOffset, l.endOffset)

/-- A pair locates the sides of a match. -/
structure ClonePair.Locates (p : ClonePair) (docs : Array Document) (m : Oriented) : Prop where
  matched : p.matchedTokens = m.matched
  target : ∃ doc, docs[m.target.stream]? = some doc ∧ p.target.Spans doc m.target
  source : ∃ doc, docs[m.source.stream]? = some doc ∧ p.source.Spans doc m.source

namespace Resolve

variable {docs : Array Document} {lines : Array (List Nat)} {options : ResolveOptions}
  {candidates : List Candidate} {c : Candidate} {m : Oriented} {pairs : List ClonePair}
  {p : ClonePair}

theorem document_eq_ok_iff {s : Nat} {doc : Document} :
    document docs s = .ok doc ↔ docs[s]? = some doc := by
  rw [document]
  split <;> simp_all

theorem byteSpan_eq_ok_iff {doc : Document} {range : TokenRange} {span : Nat × Nat} :
    byteSpan doc range = .ok span ↔ doc.tokens.byteRange range.start range.stop = some span := by
  rw [byteSpan]
  split <;> simp_all

/-- A location spans the range of tokens, and has the text and the lines of its bytes. -/
theorem locate_eq_ok {range : TokenRange} {l : Location} (h : locate docs lines range = .ok l) :
    ∃ doc, docs[range.stream]? = some doc ∧ l.Spans doc range ∧
      slice? doc.file.content l.startOffset l.endOffset = some l.content ∧
      l.startLine = Text.lineOf (lines[range.stream]?.getD []) l.startOffset ∧
      l.endLine = Text.lineOf (lines[range.stream]?.getD [])
        (max (l.endOffset - 1) l.startOffset) := by
  obtain ⟨doc, hdoc, h⟩ := bind_eq_ok_iff.mp h
  obtain ⟨⟨start, stop⟩, hspan, h⟩ := bind_eq_ok_iff.mp h
  simp only at h
  split at h
  · contradiction
  · rename_i content hcontent
    cases h
    exact ⟨doc, document_eq_ok_iff.mp hdoc, ⟨rfl, rfl, byteSpan_eq_ok_iff.mp hspan⟩, hcontent, rfl,
      rfl⟩

theorem locate_spans {range : TokenRange} {l : Location} (h : locate docs lines range = .ok l) :
    ∃ doc, docs[range.stream]? = some doc ∧ l.Spans doc range := by
  obtain ⟨doc, hdoc, hspans, -⟩ := locate_eq_ok h
  exact ⟨doc, hdoc, hspans⟩

theorem pairOf_eq_ok (h : pairOf docs lines m = .ok p) : p.matchedTokens = m.matched ∧
    locate docs lines m.target = .ok p.target ∧ locate docs lines m.source = .ok p.source := by
  obtain ⟨target, ht, h⟩ := bind_eq_ok_iff.mp h
  obtain ⟨source, hs, h⟩ := bind_eq_ok_iff.mp h
  cases h
  exact ⟨rfl, ht, hs⟩

theorem pairOf_locates (h : pairOf docs lines m = .ok p) : p.Locates docs m := by
  obtain ⟨hmatched, ht, hs⟩ := pairOf_eq_ok h
  exact ⟨hmatched, locate_spans ht, locate_spans hs⟩

/-! ## Orientation -/

/-- A match has the two sides of a candidate, in either order. -/
def Sides (c : Candidate) (m : Oriented) : Prop :=
  m = ⟨c.a, c.b, c.matched⟩ ∨ m = ⟨c.b, c.a, c.matched⟩

theorem sides_of_orient {target : Option String} (h : orient docs target c = .ok (some m)) :
    Sides c m := by
  cases target with
  | none =>
    cases h
    exact .inl rfl
  | some revision =>
    obtain ⟨first, -, h⟩ := bind_eq_ok_iff.mp h
    obtain ⟨second, -, h⟩ := bind_eq_ok_iff.mp h
    split at h
    · cases h
      exact .inl rfl
    · cases h
      exact .inr rfl
    · cases h

/-- A candidate stands for the match that it is oriented to when it is long enough and its sides are
apart. -/
theorem orientDistinct_eq_some_iff : orientDistinct docs options c = .ok (some m) ↔
    options.minLength ≤ c.matched ∧ orient docs options.targetRevision c = .ok (some m) ∧
      isSelfPair docs m = .ok false := by
  rw [orientDistinct]
  split
  · rename_i hlen
    simp [Nat.not_le_of_lt hlen]
  · rename_i hlen
    simp only [Nat.le_of_not_lt hlen, true_and]
    constructor
    · intro h
      obtain ⟨oriented, ho, h⟩ := bind_eq_ok_iff.mp h
      split at h
      · cases h
      · obtain ⟨self, hself, h⟩ := bind_eq_ok_iff.mp h
        split at h
        · cases h
        · rename_i hfalse
          cases h
          rw [Bool.not_eq_true] at hfalse
          exact ⟨ho, hfalse ▸ hself⟩
    · rintro ⟨ho, hself⟩
      exact bind_eq_ok_iff.mpr ⟨some m, ho, bind_eq_ok_iff.mpr ⟨false, hself, rfl⟩⟩

theorem sides_of_orientDistinct (h : orientDistinct docs options c = .ok (some m)) :
    options.minLength ≤ c.matched ∧ Sides c m := by
  obtain ⟨hlen, ho, -⟩ := orientDistinct_eq_some_iff.mp h
  exact ⟨hlen, sides_of_orient ho⟩

/-- A long candidate of two files with different names stands for a match, unless a target revision
has both of them or neither. -/
theorem orientDistinct_of_id_ne {d e : Document} (hlen : options.minLength ≤ c.matched)
    (hd : docs[c.a.stream]? = some d) (he : docs[c.b.stream]? = some e)
    (hid : d.file.id ≠ e.file.id)
    (htarget : ∀ r, options.targetRevision = some r → (d.file.revision = r ↔ e.file.revision ≠ r)) :
    ∃ m, orientDistinct docs options c = .ok (some m) := by
  have hd' := document_eq_ok_iff.mpr hd
  have he' := document_eq_ok_iff.mpr he
  obtain ⟨m, hm⟩ : ∃ m, orient docs options.targetRevision c = .ok (some m) := by
    cases hr : options.targetRevision with
    | none => exact ⟨_, rfl⟩
    | some r =>
      have hone : (d.file.revision == r) = !(e.file.revision == r) := by
        rw [Bool.eq_iff_iff]
        simpa using htarget r hr
      cases hb : e.file.revision == r with
      | false =>
        refine ⟨⟨c.a, c.b, c.matched⟩, bind_eq_ok_iff.mpr ⟨d, hd', bind_eq_ok_iff.mpr ⟨e, he', ?_⟩⟩⟩
        rw [hone, hb]
        rfl
      | true =>
        refine ⟨⟨c.b, c.a, c.matched⟩, bind_eq_ok_iff.mpr ⟨d, hd', bind_eq_ok_iff.mpr ⟨e, he', ?_⟩⟩⟩
        rw [hone, hb]
        rfl
  have hself : isSelfPair docs m = .ok false := by
    rcases sides_of_orient hm with rfl | rfl
    · refine bind_eq_ok_iff.mpr ⟨d, hd', bind_eq_ok_iff.mpr ⟨e, he', ?_⟩⟩
      rw [if_neg hid]
      rfl
    · refine bind_eq_ok_iff.mpr ⟨e, he', bind_eq_ok_iff.mpr ⟨d, hd', ?_⟩⟩
      rw [if_neg hid.symm]
      rfl
  exact ⟨m, orientDistinct_eq_some_iff.mpr ⟨hlen, hm, hself⟩⟩

/-- The match that a candidate stands for, none when there is none or it cannot be told. -/
def orientation? (docs : Array Document) (options : ResolveOptions) (c : Candidate) :
    Option Oriented :=
  (orientDistinct docs options c).toOption.join

theorem orientation?_eq_some_iff :
    orientation? docs options c = some m ↔ orientDistinct docs options c = .ok (some m) := by
  unfold orientation?
  cases orientDistinct docs options c with
  | error e => simp [Except.toOption]
  | ok o => simp [Except.toOption]

/-- The matches are in the order of the candidates that they stand for. -/
theorem orientAll_eq_filterMap {done matches_ : List Oriented}
    (h : orientAll docs options done candidates = .ok matches_) :
    matches_ = done.reverse ++ candidates.filterMap (orientation? docs options) := by
  induction candidates generalizing done with
  | nil =>
    cases h
    simp
  | cons c rest ih =>
    rw [orientAll] at h
    split at h
    · contradiction
    · rename_i hc
      rw [ih h, List.filterMap_cons_none]
      simp [orientation?, hc, Except.toOption]
    · rename_i m hc
      rw [ih h, List.filterMap_cons_some (orientation?_eq_some_iff.mpr hc)]
      simp

/-- The matches are those that the candidates stand for. -/
theorem mem_orientAll_iff {matches_ : List Oriented}
    (h : orientAll docs options [] candidates = .ok matches_) :
    m ∈ matches_ ↔ ∃ c ∈ candidates, orientDistinct docs options c = .ok (some m) := by
  simp only [orientAll_eq_filterMap h, List.reverse_nil, List.nil_append, List.mem_filterMap,
    orientation?_eq_some_iff]

/-! ## Pairs -/

/-- Every pair locates a candidate that is long enough. -/
theorem exists_candidate_of_mem_resolve (h : resolve candidates docs options = .ok pairs)
    (hp : p ∈ pairs) : ∃ c ∈ candidates, ∃ m, Sides c m ∧ options.minLength ≤ p.matchedTokens ∧
      p.Locates docs m := by
  obtain ⟨matches_, hmatches, h⟩ := bind_eq_ok_iff.mp h
  obtain ⟨m, hm, hpair⟩ := exists_of_forall₂ (mapM_eq_ok_iff.mp h).flip hp
  obtain ⟨c, hc, ho⟩ := (mem_orientAll_iff hmatches).mp (Oriented.mem_of_mem_suppress hm)
  obtain ⟨hlen, hsides⟩ := sides_of_orientDistinct ho
  have hlocates := pairOf_locates hpair
  refine ⟨c, hc, m, hsides, ?_, hlocates⟩
  rw [hlocates.matched]
  rcases hsides with rfl | rfl <;> exact hlen

/-- A candidate of two files with different names leads to a pair of these files. -/
theorem exists_pair_of_candidate (h : resolve candidates docs options = .ok pairs)
    (hc : c ∈ candidates) {d e : Document} (hlen : options.minLength ≤ c.matched)
    (hd : docs[c.a.stream]? = some d) (he : docs[c.b.stream]? = some e)
    (hid : d.file.id ≠ e.file.id)
    (htarget : ∀ r, options.targetRevision = some r → (d.file.revision = r ↔ e.file.revision ≠ r)) :
    ∃ p ∈ pairs, ∃ m, p.Locates docs m ∧ (m.streamPair = (c.a.stream, c.b.stream) ∨
      m.streamPair = (c.b.stream, c.a.stream)) := by
  obtain ⟨matches_, hmatches, h⟩ := bind_eq_ok_iff.mp h
  obtain ⟨m, ho⟩ := orientDistinct_of_id_ne hlen hd he hid htarget
  have hm := (mem_orientAll_iff hmatches).mpr ⟨c, hc, ho⟩
  obtain ⟨n, hn, hstreams⟩ := Oriented.exists_mem_suppress hm
  obtain ⟨p, hp, hpair⟩ := exists_of_forall₂ (mapM_eq_ok_iff.mp h) hn
  refine ⟨p, hp, n, pairOf_locates hpair, ?_⟩
  rw [hstreams]
  rcases (sides_of_orientDistinct ho).2 with rfl | rfl
  · exact .inl rfl
  · exact .inr rfl

/-- There are pairs when each match has one, whichever are kept. -/
theorem exists_resolve_eq_ok {matches_ : List Oriented}
    (h : orientAll docs options [] candidates = .ok matches_)
    (hpair : ∀ m ∈ matches_, ∃ p,
      pairOf docs (docs.map fun doc => Text.lineStarts doc.file.content) m = .ok p) :
    ∃ pairs, resolve candidates docs options = .ok pairs := by
  obtain ⟨pairs, hpairs⟩ := exists_mapM_eq_ok fun m hm =>
    hpair m (Oriented.mem_of_mem_suppress hm)
  exact ⟨pairs, bind_eq_ok_iff.mpr ⟨matches_, h, hpairs⟩⟩

end Resolve

end CloneDetection
