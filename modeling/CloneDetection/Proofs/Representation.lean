import CloneDetection.Proofs.Coarsening
import CloneDetection.Proofs.SuffixArrays
import Mathlib.Data.Set.Function

/-!
# An index represents its streams

`TokenIndex.Represents index streams` says how the symbols and places of an index stand for some
token streams: every place has one position, symbols are equal exactly where texts are, and the
sentinels are where the streams end and nowhere else, so that no two suffixes agree beyond the end
of a stream. An index can be built of all streams that fit its positions, and it represents them
(`TokenIndex.exists_build_represents`); all its symbols then fit the positions too.
-/

namespace CloneDetection

/-! ## The size of the vocabulary -/

theorem sumBy_add_one {α : Type} (f : α → Nat) (l : List α) :
    sumBy (f · + 1) l = sumBy f l + l.length := by
  induction l with
  | nil => rfl
  | cons x l ih =>
    rw [sumBy_cons, sumBy_cons, ih, List.length_cons]
    omega

theorem sumBy_zero {α : Type} (l : List α) : sumBy (fun _ => 0) l = 0 := by
  induction l with
  | nil => rfl
  | cons x l ih => rw [sumBy_cons, ih]

namespace Vocabulary

theorem size_add_le (v : Vocabulary) (text : String) : (v.add text).1.size ≤ v.size + 1 := by
  unfold add
  split
  · exact Nat.le_succ _
  · exact Std.HashMap.size_insert_le

/-- Adding items one after another makes a vocabulary larger by no more than each of them may. -/
theorem size_foldl_push_le {α β : Type} {f : Vocabulary → α → Vocabulary × β} {g : α → Nat}
    (hf : ∀ v a, (f v a).1.size ≤ v.size + g a) (items : List α) (v : Vocabulary)
    (done : Array β) :
    (items.foldl (fun s a => ((f s.1 a).1, s.2.push (f s.1 a).2)) (v, done)).1.size ≤
      v.size + sumBy g items := by
  induction items generalizing v done with
  | nil => exact Nat.le_refl _
  | cons a items ih =>
    rw [List.foldl_cons, sumBy_cons]
    have hstep := hf v a
    exact Nat.le_trans (ih (f v a).1 (done.push (f v a).2)) (by omega)

theorem size_intern_le (v : Vocabulary) (tokens : TokenStream) :
    (v.intern tokens).1.size ≤ v.size + tokens.size := by
  have h := size_foldl_push_le (f := fun v token => v.add token.text) (g := fun _ => 0 + 1)
    (fun v token => size_add_le v token.text) tokens.toList v #[]
  rw [sumBy_add_one, sumBy_zero, Nat.zero_add, Array.length_toList] at h
  rw [intern, ← Array.foldl_toList]
  exact h

theorem size_internAll_le (v : Vocabulary) (streams : List TokenStream) :
    (v.internAll streams).1.size ≤ v.size + sumBy Array.size streams :=
  size_foldl_push_le (f := intern) size_intern_le streams v #[]

end Vocabulary

namespace Corpus

/-- A corpus has no more symbols than positions. -/
theorem alphabet_le (streams : List TokenStream) :
    (ofStreams streams).alphabet ≤ sumBy (·.size + 1) streams := by
  have hvocabulary : (ofStreams streams).vocabulary ≤ 0 + sumBy Array.size streams :=
    Vocabulary.size_internAll_le ∅ streams
  rw [alphabet, size_streams, sumBy_add_one]
  omega

end Corpus

/-! ## What an index stands for -/

namespace TokenIndex

open SuffixArray

/-- The places of some streams: where their tokens stand, and where they end. -/
def places (streams : List TokenStream) : Set TokenRef :=
  {r | ∃ tokens, streams[r.stream]? = some tokens ∧ r.pos ≤ tokens.size}

/-- The symbols and places of an index stand for some streams. -/
structure Represents (index : TokenIndex) (streams : List TokenStream) : Prop where
  /-- Every place has one position, and there are no other positions. -/
  ref_bijOn : Set.BijOn index.ref {p | p < index.symbols.size} (places streams)
  /-- Two tokens have equal symbols exactly when they have equal texts. -/
  symbol_eq_iff : ∀ p q text text', p < index.symbols.size → q < index.symbols.size →
    textAt streams (index.ref p).stream (index.ref p).pos = some text →
    textAt streams (index.ref q).stream (index.ref q).pos = some text' →
    (index.symbols[p]? = index.symbols[q]? ↔ text = text')
  /-- The symbol of a token is below the vocabulary. -/
  symbol_lt : ∀ p text, p < index.symbols.size →
    textAt streams (index.ref p).stream (index.ref p).pos = some text →
    ∃ symbol, index.symbols[p]? = some symbol ∧ symbol < index.corpus.vocabulary
  /-- The sentinel of a stream stands at its end and nowhere else. -/
  sentinel_iff : ∀ s tokens p, streams[s]? = some tokens →
    (index.symbols[p]? = some (index.corpus.vocabulary + s) ↔
      p < index.symbols.size ∧ index.ref p = ⟨s, tokens.size⟩)
  /-- The sentinels are where streams end. -/
  isSentinel_iff : ∀ p tokens, p < index.symbols.size →
    streams[(index.ref p).stream]? = some tokens →
    (index.isSentinel p = true ↔ (index.ref p).pos = tokens.size)
  /-- The symbols of a stream are those at the positions of its tokens. -/
  streamSymbols_eq : ∀ s tokens, streams[s]? = some tokens →
    (index.streamSymbols s).size = tokens.size ∧
      ∀ p i, p < index.symbols.size → index.ref p = ⟨s, i⟩ → i < tokens.size →
        (index.streamSymbols s)[i]? = index.symbols[p]?
  /-- The suffixes at two positions share no sentinel of the stream of either. -/
  commonPrefix_le : ∀ p q x y, p < index.symbols.size → q < index.symbols.size → p ≠ q →
    streams[(index.ref p).stream]? = some x → streams[(index.ref q).stream]? = some y →
    (index.ref p).pos + commonPrefix (suffix index.symbols p) (suffix index.symbols q) ≤ x.size ∧
    (index.ref q).pos + commonPrefix (suffix index.symbols p) (suffix index.symbols q) ≤ y.size
  /-- A symbol fits where a position does. -/
  symbol_lt_limit : ∀ symbol ∈ index.symbols, symbol < positionLimit

variable {index : TokenIndex} {streams : List TokenStream} {revisions : List Nat}

namespace Holds

variable (h : index.Holds streams revisions)

include h

theorem exists_stream {s : Nat} {x : TokenStream} (hx : streams[s]? = some x) :
    ∃ a, index.corpus.streams[s]? = some a ∧ a.size = x.size := by
  have hs : s < index.corpus.streams.size := by
    rw [h.corpus_eq, Corpus.size_streams]
    exact (List.getElem?_eq_some_iff.mp hx).1
  have ha := Array.getElem?_eq_getElem hs
  refine ⟨index.corpus.streams[s], ha, Corpus.size_eq_of_getElem? hx ?_⟩
  rw [← h.corpus_eq]
  exact ha

/-- Where a position of an index lies: in a stream of the corpus, as in the stream of tokens. -/
theorem exists_place {p : Nat} (hp : p < index.symbols.size) :
    ∃ s i a x, p = index.corpus.position s i ∧ index.ref p = ⟨s, i⟩ ∧
      index.corpus.streams[s]? = some a ∧ streams[s]? = some x ∧ a.size = x.size ∧ i ≤ a.size := by
  rw [h.symbols_eq] at hp
  obtain ⟨s, a, i, ha, hi, rfl⟩ := Corpus.exists_position hp
  have hs : s < streams.length := by
    have hlt := (Array.getElem?_eq_some_iff.mp ha).1
    rwa [h.corpus_eq, Corpus.size_streams] at hlt
  have hx := List.getElem?_eq_getElem hs
  obtain ⟨b, hb, hsize⟩ := h.exists_stream hx
  rw [ha, Option.some.injEq] at hb
  exact ⟨s, i, a, streams[s], rfl, h.ref_position ha hi, ha, hx, hb ▸ hsize, hi⟩

/-- Where a position with a token lies, and what stands there. -/
theorem exists_token {p : Nat} {text : String} (hp : p < index.symbols.size)
    (htext : textAt streams (index.ref p).stream (index.ref p).pos = some text) :
    ∃ (s i : Nat) (a : Array Nat) (x : TokenStream), index.corpus.streams[s]? = some a ∧
      streams[s]? = some x ∧ i < x.size ∧ x.texts[i]? = some text ∧
      index.symbols[p]? = a[i]? := by
  obtain ⟨s, i, a, x, rfl, href, ha, hx, hsize, -⟩ := h.exists_place hp
  rw [href, textAt, hx, Option.bind_some, ← TokenStream.getElem?_texts] at htext
  have hi : i < x.size := by
    simpa using (Array.getElem?_eq_some_iff.mp htext).1
  exact ⟨s, i, a, x, ha, hx, hi, htext, h.symbols_position ha (by omega)⟩

theorem ref_bijOn : Set.BijOn index.ref {p | p < index.symbols.size} (places streams) := by
  refine ⟨fun p hp => ?_, fun p hp q hq he => ?_, fun r hr => ?_⟩
  · obtain ⟨s, i, a, x, -, href, -, hx, hsize, hi⟩ := h.exists_place hp
    rw [href]
    exact ⟨x, hx, hsize ▸ hi⟩
  · obtain ⟨s, i, a, x, rfl, href, -⟩ := h.exists_place hp
    obtain ⟨t, j, b, y, rfl, href', -⟩ := h.exists_place hq
    rw [href, href', TokenRef.mk.injEq] at he
    rw [he.1, he.2]
  · obtain ⟨x, hx, hpos⟩ := hr
    obtain ⟨a, ha, hsize⟩ := h.exists_stream hx
    refine ⟨index.corpus.position r.stream r.pos, ?_, h.ref_position ha (by omega)⟩
    rw [h.symbols_eq]
    exact Corpus.position_lt_size ha (by omega)

theorem sentinel_iff {s p : Nat} {x : TokenStream} (hx : streams[s]? = some x) :
    index.symbols[p]? = some (index.corpus.vocabulary + s) ↔
      p < index.symbols.size ∧ index.ref p = ⟨s, x.size⟩ := by
  obtain ⟨a, ha, hsize⟩ := h.exists_stream hx
  constructor
  · intro hp
    refine ⟨(Array.getElem?_eq_some_iff.mp hp).1, ?_⟩
    rw [h.symbols_eq] at hp
    rw [h.proper.eq_of_sentinel ha hp, h.ref_position ha (Nat.le_refl _), hsize]
  · rintro ⟨hp, hend⟩
    obtain ⟨t, j, b, y, rfl, href, hb, -⟩ := h.exists_place hp
    rw [href, TokenRef.mk.injEq] at hend
    obtain ⟨rfl, rfl⟩ := hend
    rw [h.symbols_eq, ← hsize]
    exact Corpus.symbols_position_size ha

theorem streamSymbols_getElem? {s i p : Nat} {x : TokenStream} (hx : streams[s]? = some x)
    (hp : p < index.symbols.size) (href : index.ref p = ⟨s, i⟩) (hi : i < x.size) :
    (index.streamSymbols s)[i]? = index.symbols[p]? := by
  obtain ⟨a, ha, hsize⟩ := h.exists_stream hx
  obtain ⟨t, j, b, y, rfl, href', -⟩ := h.exists_place hp
  rw [href', TokenRef.mk.injEq] at href
  obtain ⟨rfl, rfl⟩ := href
  rw [streamSymbols_eq ha, h.symbols_position ha (by omega)]

/-- Suffixes that agree do so within the stream of the first. -/
theorem le_size_of_agree {p q n : Nat} {x : TokenStream} (hp : p < index.symbols.size)
    (hne : p ≠ q) (hx : streams[(index.ref p).stream]? = some x)
    (hagree : Agree index.symbols n p q) : (index.ref p).pos + n ≤ x.size := by
  obtain ⟨s, i, a, y, rfl, href, ha, hy, hsize, hi⟩ := h.exists_place hp
  rw [href, hy, Option.some.injEq] at hx
  rw [h.symbols_eq] at hagree
  rw [href, ← hx, ← hsize]
  exact h.proper.le_size_of_agree_of_ne ha hi hne hagree

theorem commonPrefix_le {p q : Nat} {x y : TokenStream} (hp : p < index.symbols.size)
    (hq : q < index.symbols.size) (hne : p ≠ q) (hx : streams[(index.ref p).stream]? = some x)
    (hy : streams[(index.ref q).stream]? = some y) :
    (index.ref p).pos + commonPrefix (suffix index.symbols p) (suffix index.symbols q) ≤ x.size ∧
      (index.ref q).pos + commonPrefix (suffix index.symbols p) (suffix index.symbols q) ≤
        y.size := by
  have hagree : Agree index.symbols
      (commonPrefix (suffix index.symbols p) (suffix index.symbols q)) p q := by
    rcases below_or_below hp hq hne with ⟨n, hn⟩ | ⟨n, hn⟩
    · rw [hn.commonPrefix_eq]
      exact hn.agree
    · rw [commonPrefix_comm, hn.commonPrefix_eq]
      exact hn.agree.symm
  exact ⟨h.le_size_of_agree hp hne hx hagree, h.le_size_of_agree hq hne.symm hy hagree.symm⟩

theorem symbol_lt_limit (hsize : sumBy (·.size + 1) streams < positionLimit) :
    ∀ symbol ∈ index.symbols, symbol < positionLimit := by
  intro symbol hsymbol
  rw [h.symbols_eq] at hsymbol
  have hlt := h.proper.lt_alphabet symbol hsymbol
  have hle := Corpus.alphabet_le streams
  rw [← h.corpus_eq] at hle
  omega

theorem represents (hsize : sumBy (·.size + 1) streams < positionLimit) :
    index.Represents streams where
  ref_bijOn := h.ref_bijOn
  symbol_eq_iff := by
    intro p q text text' hp hq htext htext'
    obtain ⟨s, i, a, x, ha, hx, hi, hxi, hsymbol⟩ := h.exists_token hp htext
    obtain ⟨t, j, b, y, hb, hy, hj, hyj, hsymbol'⟩ := h.exists_token hq htext'
    rw [h.corpus_eq] at ha hb
    rw [hsymbol, hsymbol', Corpus.symbol_eq_iff hx hy ha hb hi hj, hxi, hyj, Option.some.injEq]
  symbol_lt := by
    intro p text hp htext
    obtain ⟨s, i, a, x, ha, -, -, -, hsymbol⟩ := h.exists_token hp htext
    have hget := Array.getElem?_eq_getElem hp
    exact ⟨_, hget, h.proper.lt_vocabulary ha (hsymbol.symm.trans hget)⟩
  sentinel_iff := fun _ _ _ hx => h.sentinel_iff hx
  isSentinel_iff := by
    intro p tokens hp htokens
    obtain ⟨s, i, a, x, rfl, href, ha, hx, hsize, hi⟩ := h.exists_place hp
    rw [href, hx, Option.some.injEq] at htokens
    rw [h.isSentinel_position ha hi, href, ← htokens, hsize]
  streamSymbols_eq := by
    intro s tokens htokens
    obtain ⟨a, ha, hsize⟩ := h.exists_stream htokens
    refine ⟨?_, fun p i hp href hi => h.streamSymbols_getElem? htokens hp href hi⟩
    rw [streamSymbols_eq ha, hsize]
  commonPrefix_le := fun _ _ _ _ => h.commonPrefix_le
  symbol_lt_limit := h.symbol_lt_limit hsize

end Holds

/-- **An index can be built of all streams that fit, and represents them.** -/
theorem exists_build_represents (strategy : Strategy) (minLength maxBucket : Nat)
    (hlen : streams.length = revisions.length)
    (hsize : sumBy (·.size + 1) streams < positionLimit) :
    ∃ index, build streams revisions strategy minLength maxBucket = .ok index ∧
      index.Represents streams := by
  obtain ⟨index, hindex⟩ := exists_build_eq_ok strategy minLength maxBucket hlen hsize
  exact ⟨index, hindex, (build_eq_ok_iff.mp hindex).1.represents hsize⟩

/-- Three streams that share a text, the middle one without tokens. -/
def sparseStreams : List TokenStream :=
  [#[⟨.identifier, "x", 0, 1⟩, ⟨.identifier, "y", 2, 3⟩], #[], #[⟨.identifier, "x", 0, 1⟩]]

theorem exists_build_represents_sparse :
    sparseStreams.length = [0, 1, 1].length ∧
      sumBy (·.size + 1) sparseStreams < positionLimit ∧
      ∃ index, build sparseStreams [0, 1, 1] .suffixArray 1 8 = .ok index ∧
        index.Represents sparseStreams :=
  ⟨rfl, by decide, exists_build_represents .suffixArray 1 8 rfl (by decide)⟩

end TokenIndex

end CloneDetection
