import CloneDetection.Corpus.Basic
import Mathlib.Data.List.Forall2

/-!
# Symbols tell texts apart

A vocabulary is dense when different texts have different symbols, all below the number of texts.
Adding a text keeps that, and keeps the symbols of the texts that are already there (`add_spec`); so
does adding a stream (`intern_spec`) and adding several (`internAll_spec`). In the corpus of some
streams two symbols are then equal exactly when the texts of their tokens are
(`Corpus.symbol_eq_iff`).
-/

namespace CloneDetection

/-- The texts by which the tokens of a stream are compared. -/
def TokenStream.texts (tokens : TokenStream) : Array String :=
  tokens.map (·.text)

@[simp]
theorem TokenStream.size_texts (tokens : TokenStream) : tokens.texts.size = tokens.size := by
  simp [texts]

theorem TokenStream.getElem?_texts (tokens : TokenStream) (i : Nat) :
    tokens.texts[i]? = tokens[i]?.map (·.text) := by
  simp [texts]

namespace Vocabulary

variable {v w u : Vocabulary}

/-- Different texts have different symbols, all below the number of texts. -/
structure Dense (v : Vocabulary) : Prop where
  lt_size : ∀ {text : String} {n : Nat}, v[text]? = some n → n < v.size
  injective : ∀ {s t : String} {n : Nat}, v[s]? = some n → v[t]? = some n → s = t

/-- Every text of `v` has its symbol in `w` too. -/
def Extends (v w : Vocabulary) : Prop :=
  ∀ {text : String} {n : Nat}, v[text]? = some n → w[text]? = some n

theorem Extends.rfl : Extends v v := fun h => h

theorem Extends.trans (h : Extends v w) (h' : Extends w u) : Extends v u := fun e => h' (h e)

theorem dense_empty : Dense ∅ := by
  constructor
  · intro text n h
    simp at h
  · intro s t n h
    simp at h

/-- Adding a text gives it a symbol and changes no other. -/
theorem add_spec (h : Dense v) (text : String) :
    Dense (v.add text).1 ∧ Extends v (v.add text).1 ∧
      (v.add text).1[text]? = some (v.add text).2 := by
  unfold add
  split
  · rename_i symbol hs
    exact ⟨h, Extends.rfl, hs⟩
  · rename_i hn
    have hsize : (v.insert text v.size).size = v.size + 1 := by
      rw [Std.HashMap.size_insert, if_neg (by simpa using hn)]
    have hget (t : String) :
        (v.insert text v.size)[t]? = if text = t then some v.size else v[t]? := by
      simp [Std.HashMap.getElem?_insert]
    refine ⟨⟨?_, ?_⟩, ?_, by simp⟩
    · intro t n ht
      rw [hget] at ht
      show n < (v.insert text v.size).size
      split at ht
      · simp only [Option.some.injEq] at ht
        omega
      · have := h.lt_size ht
        omega
    · intro s t n hs ht
      rw [hget] at hs ht
      -- an old symbol is below the new one
      split at hs <;> split at ht
      · simp_all
      · have := h.lt_size ht
        simp_all
      · have := h.lt_size hs
        simp_all
      · exact h.injective hs ht
    · intro t n ht
      rw [hget, if_neg, ht]
      rintro rfl
      simp [hn] at ht

/-- `symbols` are the symbols of the texts of some tokens. -/
def Spells (v : Vocabulary) (tokens : TokenStream) (symbols : Array Nat) : Prop :=
  List.Forall₂ (fun token symbol => v[token.text]? = some symbol) tokens.toList symbols.toList

theorem Spells.mono {tokens : TokenStream} {symbols : Array Nat} (h : Spells v tokens symbols)
    (he : Extends v w) : Spells w tokens symbols :=
  List.Forall₂.imp (fun _ _ e => he e) h

theorem Spells.size_eq {tokens : TokenStream} {symbols : Array Nat} (h : Spells v tokens symbols) :
    symbols.size = tokens.size := by
  simpa using (List.Forall₂.length_eq h).symm

/-- The symbol of a token of a spelled stream. -/
theorem Spells.getElem?_eq {tokens : TokenStream} {symbols : Array Nat}
    (h : Spells v tokens symbols) {i : Nat} (hi : i < tokens.size) :
    v[tokens[i].text]? = symbols[i]? := by
  have hs : i < symbols.size := h.size_eq ▸ hi
  have := List.Forall₂.get h (i := i) (by simpa using hi) (by simpa using hs)
  simpa [hs] using this

/-- Adding items one after another keeps a vocabulary dense and the results that it had, when adding
one item does (`hf`) and results stay right in larger vocabularies (`hR`). -/
theorem foldl_push_spec {α β : Type} {f : Vocabulary → α → Vocabulary × β}
    {R : Vocabulary → α → β → Prop}
    (hf : ∀ {v}, Dense v → ∀ a, Dense (f v a).1 ∧ Extends v (f v a).1 ∧ R (f v a).1 a (f v a).2)
    (hR : ∀ {v w a b}, Extends v w → R v a b → R w a b)
    (h : Dense v) (items : List α) (done : Array β) :
    ∃ (w : Vocabulary) (results : List β),
      items.foldl (fun s a => ((f s.1 a).1, s.2.push (f s.1 a).2)) (v, done) =
        (w, done ++ results.toArray) ∧
      Dense w ∧ Extends v w ∧ List.Forall₂ (R w) items results := by
  induction items generalizing v done with
  | nil => exact ⟨v, [], by simp, h, Extends.rfl, .nil⟩
  | cons a items ih =>
    obtain ⟨hd, he, ha⟩ := hf h a
    obtain ⟨w, results, e, hd', he', hs⟩ := ih hd (done.push (f v a).2)
    refine ⟨w, (f v a).2 :: results, ?_, hd', he.trans he', .cons (hR he' ha) hs⟩
    rw [List.foldl_cons, e]
    simp

/-- Adding the texts of a stream spells the stream and changes no earlier symbol. -/
theorem intern_spec (h : Dense v) (tokens : TokenStream) :
    Dense (v.intern tokens).1 ∧ Extends v (v.intern tokens).1 ∧
      Spells (v.intern tokens).1 tokens (v.intern tokens).2 := by
  obtain ⟨w, symbols, e, hd, he, hs⟩ := foldl_push_spec (f := fun v token => v.add token.text)
    (R := fun w token symbol => w[token.text]? = some symbol)
    (fun h token => add_spec h token.text) (fun he e => he e) h tokens.toList #[]
  have hintern : v.intern tokens = (w, #[] ++ symbols.toArray) := by
    rw [intern, ← Array.foldl_toList]
    exact e
  rw [hintern]
  exact ⟨hd, he, by simpa [Spells] using hs⟩

/-- Adding the texts of several streams spells all of them. -/
theorem internAll_spec (h : Dense v) (streams : List TokenStream) :
    Dense (v.internAll streams).1 ∧
      List.Forall₂ (Spells (v.internAll streams).1) streams (v.internAll streams).2.toList := by
  obtain ⟨w, symbols, e, hd, -, hs⟩ := foldl_push_spec (f := intern) (R := Spells)
    intern_spec (fun he hs => hs.mono he) h streams #[]
  have hintern : v.internAll streams = (w, #[] ++ symbols.toArray) := e
  rw [hintern]
  exact ⟨hd, by simpa using hs⟩

end Vocabulary

namespace Corpus

variable {streams : List TokenStream}

/-- The corpus of some streams spells them with one dense vocabulary. -/
theorem ofStreams_spec (streams : List TokenStream) :
    ∃ v : Vocabulary, v.Dense ∧ (ofStreams streams).vocabulary = v.size ∧
      List.Forall₂ v.Spells streams (ofStreams streams).streams.toList := by
  obtain ⟨hd, hs⟩ := Vocabulary.internAll_spec Vocabulary.dense_empty streams
  exact ⟨_, hd, rfl, hs⟩

@[simp]
theorem size_streams (streams : List TokenStream) :
    (ofStreams streams).streams.size = streams.length := by
  obtain ⟨v, -, -, hs⟩ := ofStreams_spec streams
  simpa using hs.length_eq.symm

/-- A stream of a corpus is as long as the stream of tokens that it stands for. -/
theorem size_eq_of_getElem? {s : Nat} {x : TokenStream} {a : Array Nat}
    (hx : streams[s]? = some x) (ha : (ofStreams streams).streams[s]? = some a) :
    a.size = x.size := by
  obtain ⟨v, -, -, hs⟩ := ofStreams_spec streams
  obtain ⟨hlt, rfl⟩ := List.getElem?_eq_some_iff.mp hx
  obtain ⟨hlt', rfl⟩ := Array.getElem?_eq_some_iff.mp ha
  exact (hs.get hlt (by simpa using hlt')).size_eq

/-- Two symbols of a corpus are equal exactly when the texts of their tokens are. -/
theorem symbol_eq_iff {s t : Nat} {x y : TokenStream} {a b : Array Nat}
    (hx : streams[s]? = some x) (hy : streams[t]? = some y)
    (ha : (ofStreams streams).streams[s]? = some a) (hb : (ofStreams streams).streams[t]? = some b)
    {p q : Nat} (hp : p < x.size) (hq : q < y.size) :
    a[p]? = b[q]? ↔ x.texts[p]? = y.texts[q]? := by
  obtain ⟨v, hv, -, hs⟩ := ofStreams_spec streams
  obtain ⟨hlt, rfl⟩ := List.getElem?_eq_some_iff.mp hx
  obtain ⟨hlt', rfl⟩ := List.getElem?_eq_some_iff.mp hy
  obtain ⟨hla, rfl⟩ := Array.getElem?_eq_some_iff.mp ha
  obtain ⟨hlb, rfl⟩ := Array.getElem?_eq_some_iff.mp hb
  have hsp := hs.get hlt (by simpa using hla)
  have hsq := hs.get hlt' (by simpa using hlb)
  have hep := hsp.getElem?_eq hp
  have heq := hsq.getElem?_eq hq
  simp only [List.get_eq_getElem, Array.getElem_toList] at hep heq
  rw [← hep, ← heq, TokenStream.getElem?_texts, TokenStream.getElem?_texts,
    Array.getElem?_eq_getElem hp, Array.getElem?_eq_getElem hq, Option.map_some, Option.map_some,
    Option.some.injEq]
  constructor
  · intro h
    have hlp : p < ((ofStreams streams).streams[s]).size := by
      rw [size_eq_of_getElem? hx ha]
      exact hp
    rw [Array.getElem?_eq_getElem hlp] at hep
    exact hv.injective hep (h ▸ hep)
  · intro h
    rw [h]

/-- The symbols of tokens are below the size of the vocabulary. -/
theorem symbol_lt_vocabulary {s i n : Nat} {a : Array Nat}
    (ha : (ofStreams streams).streams[s]? = some a) (hn : a[i]? = some n) :
    n < (ofStreams streams).vocabulary := by
  obtain ⟨v, hv, hsize, hs⟩ := ofStreams_spec streams
  obtain ⟨hla, rfl⟩ := Array.getElem?_eq_some_iff.mp ha
  have hlt : s < streams.length := by simpa using hla
  have hsp := hs.get hlt (by simpa using hla)
  obtain ⟨hi, -⟩ := Array.getElem?_eq_some_iff.mp hn
  have := hsp.getElem?_eq (i := i) (by rw [← hsp.size_eq]; simpa using hi)
  simp only [List.get_eq_getElem, Array.getElem_toList] at this
  rw [hn] at this
  exact hsize ▸ hv.lt_size this

end Corpus

end CloneDetection
