import CloneDetection.Proofs.Interning
import CloneDetection.Proofs.Runs
import CloneDetection.Proofs.SuffixOrder

/-!
# The layout of a corpus

The streams of a corpus stand one after the other, each followed by its sentinel. `position` is where
a place of a stream stands: the symbol there is that of the token (`symbols_position`) or the
sentinel (`symbols_position_size`), the place noted there is the place itself (`refs_position`), and
there are no other positions (`exists_position`).

A sentinel occurs once, so that suffixes of different streams agree exactly in an equal run of the
two streams (`agree_position_iff`).
-/

namespace CloneDetection

/-! ## Blocks -/

section Blocks

variable {α β : Type} {f : α × Nat → List β} {g : α → Nat}

/-- The items of the block `s` stand after those of the blocks before it. -/
theorem getElem?_zipIdx_flatMap (hlen : ∀ a s, (f (a, s)).length = g a) {l : List α} {s i : Nat}
    {a : α} (h : l[s]? = some a) (hi : i < g a) (start : Nat) :
    ((l.zipIdx start).flatMap f)[sumBy g (l.take s) + i]? = (f (a, start + s))[i]? := by
  induction l generalizing s start with
  | nil => simp at h
  | cons b l ih =>
    rw [List.zipIdx_cons, List.flatMap_cons]
    cases s with
    | zero =>
      obtain rfl : b = a := by simpa using h
      rw [List.take_zero, sumBy_nil, Nat.zero_add,
        List.getElem?_append_left (by rw [hlen]; exact hi)]
      rfl
    | succ s =>
      rw [List.take_succ_cons, sumBy_cons, List.getElem?_append_right (by rw [hlen]; omega), hlen,
        show g b + sumBy g (l.take s) + i - g b = sumBy g (l.take s) + i by omega,
        ih (by simpa using h) (start + 1), show start + 1 + s = start + (s + 1) by omega]

theorem length_zipIdx_flatMap (hlen : ∀ a s, (f (a, s)).length = g a) (l : List α) (start : Nat) :
    ((l.zipIdx start).flatMap f).length = sumBy g l := by
  induction l generalizing start with
  | nil => simp
  | cons b l ih =>
    rw [List.zipIdx_cons, List.flatMap_cons, List.length_append, hlen, ih, sumBy_cons]

/-- Every index below the total falls into a block. -/
theorem exists_block_of_lt {l : List α} {p : Nat} (h : p < sumBy g l) :
    ∃ s a i, l[s]? = some a ∧ i < g a ∧ p = sumBy g (l.take s) + i := by
  induction l generalizing p with
  | nil => simp at h
  | cons b l ih =>
    rw [sumBy_cons] at h
    rcases Nat.lt_or_ge p (g b) with hp | hp
    · exact ⟨0, b, p, by simp, hp, by simp⟩
    · obtain ⟨s, a, i, hs, hi, he⟩ := ih (p := p - g b) (by omega)
      refine ⟨s + 1, a, i, by simpa using hs, hi, ?_⟩
      rw [List.take_succ_cons, sumBy_cons]
      omega

end Blocks

/-! ## Positions -/

namespace Corpus

variable {c : Corpus} {s t i j n p : Nat} {a b : Array Nat}

/-- The position of a place in the corpus. -/
def position (c : Corpus) (stream pos : Nat) : Nat :=
  sumBy (·.size + 1) (c.streams.toList.take stream) + pos

theorem position_add (c : Corpus) (s i k : Nat) : c.position s i + k = c.position s (i + k) :=
  Nat.add_assoc ..

theorem size_symbols (c : Corpus) : c.symbols.size = sumBy (·.size + 1) c.streams.toList := by
  rw [symbols, List.size_toArray]
  exact length_zipIdx_flatMap (by simp) _ _

/-- A corpus has one position for each token and one for the end of each stream. -/
theorem size_symbols_ofStreams (streams : List TokenStream) :
    (ofStreams streams).symbols.size = sumBy (·.size + 1) streams := by
  rw [size_symbols]
  obtain ⟨v, -, -, hs⟩ := ofStreams_spec streams
  generalize (ofStreams streams).streams.toList = symbols at hs
  induction hs with
  | nil => rfl
  | cons hspells _ ih => rw [sumBy_cons, sumBy_cons, ih, hspells.size_eq]

theorem size_refs (c : Corpus) : c.refs.size = c.symbols.size := by
  rw [refs, List.size_toArray, size_symbols]
  exact length_zipIdx_flatMap (by simp) _ _

theorem symbols_position (h : c.streams[s]? = some a) (hi : i < a.size) :
    c.symbols[c.position s i]? = a[i]? := by
  rw [symbols, List.getElem?_toArray, position,
    getElem?_zipIdx_flatMap (g := fun x : Array Nat => x.size + 1) (by simp) (by simpa using h)
      (by omega),
    List.getElem?_append_left (by simpa using hi), Array.getElem?_toList]

theorem symbols_position_size (h : c.streams[s]? = some a) :
    c.symbols[c.position s a.size]? = some (c.sentinel s) := by
  rw [symbols, List.getElem?_toArray, position,
    getElem?_zipIdx_flatMap (g := fun x : Array Nat => x.size + 1) (by simp) (by simpa using h)
      (by omega)]
  simp

theorem refs_position (h : c.streams[s]? = some a) (hi : i ≤ a.size) :
    c.refs[c.position s i]? = some ⟨s, i⟩ := by
  rw [refs, List.getElem?_toArray, position,
    getElem?_zipIdx_flatMap (g := fun x : Array Nat => x.size + 1) (by simp) (by simpa using h)
      (by omega)]
  simp [Nat.lt_succ_of_le hi]

theorem position_lt_size (h : c.streams[s]? = some a) (hi : i ≤ a.size) :
    c.position s i < c.symbols.size := by
  rw [← size_refs]
  exact (Array.getElem?_eq_some_iff.mp (refs_position h hi)).1

/-- Every position of a corpus is that of a place. -/
theorem exists_position (hp : p < c.symbols.size) :
    ∃ s a i, c.streams[s]? = some a ∧ i ≤ a.size ∧ p = c.position s i := by
  rw [size_symbols] at hp
  obtain ⟨s, a, i, hs, hi, he⟩ := exists_block_of_lt hp
  exact ⟨s, a, i, by simpa using hs, by omega, he⟩

/-- Different places have different positions. -/
theorem position_injective (ha : c.streams[s]? = some a) (hi : i ≤ a.size)
    (hb : c.streams[t]? = some b) (hj : j ≤ b.size) (h : c.position s i = c.position t j) :
    s = t ∧ i = j := by
  have hs := refs_position ha hi
  rw [h, refs_position hb hj] at hs
  simp only [Option.some.injEq, TokenRef.mk.injEq] at hs
  exact ⟨hs.1.symm, hs.2.symm⟩

/-! ## Sentinels -/

/-- The symbols of the tokens are below the vocabulary, where the sentinels start. -/
structure Proper (c : Corpus) : Prop where
  lt_vocabulary : ∀ {s i n : Nat} {a : Array Nat},
    c.streams[s]? = some a → a[i]? = some n → n < c.vocabulary

theorem proper_ofStreams (streams : List TokenStream) : (ofStreams streams).Proper :=
  ⟨symbol_lt_vocabulary⟩

/-- The sentinel of a stream stands at its end only. -/
theorem Proper.eq_of_sentinel (hc : c.Proper) (ha : c.streams[s]? = some a)
    (hp : c.symbols[p]? = some (c.sentinel s)) : p = c.position s a.size := by
  obtain ⟨hlt, -⟩ := Array.getElem?_eq_some_iff.mp hp
  obtain ⟨t, b, j, hb, hj, rfl⟩ := exists_position hlt
  rcases Nat.lt_or_eq_of_le hj with hj | rfl
  · rw [symbols_position hb hj] at hp
    have := hc.lt_vocabulary hb hp
    rw [sentinel] at this
    omega
  · rw [symbols_position_size hb, Option.some.injEq, sentinel, sentinel,
      Nat.add_left_cancel_iff] at hp
    subst hp
    rw [ha, Option.some.injEq] at hb
    rw [hb]

theorem Proper.lt_alphabet (hc : c.Proper) : ∀ n ∈ c.symbols, n < c.alphabet := by
  intro n hn
  obtain ⟨p, hp, rfl⟩ := Array.getElem_of_mem hn
  obtain ⟨s, a, i, ha, hi, rfl⟩ := exists_position hp
  have hs : s < c.streams.size := (Array.getElem?_eq_some_iff.mp ha).1
  have he := Array.getElem?_eq_getElem hp
  rcases Nat.lt_or_eq_of_le hi with hi | rfl
  · rw [symbols_position ha hi] at he
    have := hc.lt_vocabulary ha he
    rw [alphabet]
    omega
  · rw [symbols_position_size ha, Option.some.injEq, sentinel] at he
    rw [alphabet]
    omega

open SuffixArray in
/-- The suffixes at two positions do not agree beyond the end of the first one's stream. -/
theorem Proper.le_size_of_agree_of_ne {q : Nat} (hc : c.Proper) (ha : c.streams[s]? = some a)
    (hi : i ≤ a.size) (hne : c.position s i ≠ q) (h : Agree c.symbols n (c.position s i) q) :
    i + n ≤ a.size := by
  refine Nat.le_of_not_lt fun hlt => hne ?_
  -- the sentinel would occur in both suffixes, at the same distance
  have hk := h (a.size - i) (by omega)
  have hend : c.position s i + (a.size - i) = c.position s a.size := by
    rw [position_add, Nat.add_sub_cancel' hi]
  rw [hend, letter_eq_iff (position_lt_size ha (Nat.le_refl _)), symbols_position_size ha] at hk
  have hpos := hc.eq_of_sentinel ha hk.symm
  omega

open SuffixArray in
/-- Suffixes of two streams do not agree beyond the end of the first one. -/
theorem Proper.le_size_of_agree (hc : c.Proper) (ha : c.streams[s]? = some a)
    (hb : c.streams[t]? = some b) (hst : s ≠ t) (hi : i ≤ a.size) (hj : j ≤ b.size)
    (h : Agree c.symbols n (c.position s i) (c.position t j)) : i + n ≤ a.size :=
  hc.le_size_of_agree_of_ne ha hi (fun hpos => hst (position_injective ha hi hb hj hpos).1) h

open SuffixArray in
/-- Suffixes of different streams agree exactly in an equal run of the two. -/
theorem Proper.agree_position_iff (hc : c.Proper) (ha : c.streams[s]? = some a)
    (hb : c.streams[t]? = some b) (hst : s ≠ t) (hi : i ≤ a.size) (hj : j ≤ b.size) :
    Agree c.symbols n (c.position s i) (c.position t j) ↔ EqualRun a b i j n := by
  have letters {k : Nat} (hik : i + k < a.size) (hjk : j + k < b.size) :
      letter c.symbols (c.position s i + k) = letter c.symbols (c.position t j + k) ↔
        a[i + k]? = b[j + k]? := by
    rw [position_add, position_add, letter_eq_iff (position_lt_size ha (Nat.le_of_lt hik)),
      symbols_position ha hik, symbols_position hb hjk]
  constructor
  · intro h
    have hia := hc.le_size_of_agree ha hb hst hi hj h
    have hjb := hc.le_size_of_agree hb ha (Ne.symm hst) hj hi h.symm
    exact ⟨hia, hjb, fun k hk => (letters (by omega) (by omega)).mp (h k hk)⟩
  · intro h k hk
    have := h.left_le
    have := h.right_le
    exact (letters (by omega) (by omega)).mpr (h.eq k hk)

end Corpus

end CloneDetection
