import CloneDetection.SuffixArray.CommonPrefix

/-!
# The order of suffixes

Suffixes are compared letter by letter, a letter past the end of the text being the least.

* `Agree text n i j`: the suffixes at `i` and `j` agree in their first `n` letters.
* `Below text i j n`: they agree in exactly `n` letters, and the one at `i` is the lesser.
* `Before text n i j`: the one at `i` is the lesser already by its first `n` letters.

`before_add` splits a comparison into that of two parts, as prefix doubling does. `Below.trans` gives
the number of letters that the outer two of three suffixes in order share.
-/

namespace CloneDetection.SuffixArray

/-- The symbol at a position plus one, and zero past the end of the text. -/
def letter (text : Array Nat) (i : Nat) : Nat :=
  rankAt (text.map (· + 1)) i

/-- The suffixes at `i` and `j` agree in their first `n` letters. -/
def Agree (text : Array Nat) (n i j : Nat) : Prop :=
  ∀ k < n, letter text (i + k) = letter text (j + k)

/-- The suffix at `i` comes before the one at `j`, and they agree in exactly `n` letters. -/
structure Below (text : Array Nat) (i j n : Nat) : Prop where
  agree : Agree text n i j
  lt : letter text (i + n) < letter text (j + n)

/-- The suffix at `i` comes before the one at `j` by its first `n` letters. -/
def Before (text : Array Nat) (n i j : Nat) : Prop :=
  ∃ k < n, Below text i j k

variable {text : Array Nat} {i j k l m n : Nat}

/-! ## Letters -/

theorem letter_eq_zero_iff : letter text i = 0 ↔ text.size ≤ i := by
  rw [letter, rankAt, Array.getElem?_map]
  rcases Nat.lt_or_ge i text.size with h | h
  · simp [h]
  · simp [h]

theorem letter_pos_iff : 0 < letter text i ↔ i < text.size := by
  rw [Nat.pos_iff_ne_zero, ne_eq, letter_eq_zero_iff, Nat.not_le]

theorem letter_eq_iff (hi : i < text.size) :
    letter text i = letter text j ↔ text[i]? = text[j]? := by
  rw [letter, letter, rankAt, rankAt, Array.getElem?_map, Array.getElem?_map]
  rcases Nat.lt_or_ge j text.size with h | h
  · simp [hi, h]
  · simp [hi, h]

/-! ## Agreement -/

namespace Agree

theorem symm (h : Agree text n i j) : Agree text n j i := fun k hk => (h k hk).symm

theorem trans (h : Agree text n i j) (h' : Agree text n j k) : Agree text n i k :=
  fun l hl => (h l hl).trans (h' l hl)

theorem mono (h : Agree text n i j) (hm : m ≤ n) : Agree text m i j :=
  fun k hk => h k (by omega)

end Agree

theorem agree_add : Agree text (m + n) i j ↔ Agree text m i j ∧ Agree text n (i + m) (j + m) := by
  constructor
  · intro h
    refine ⟨h.mono (by omega), fun k hk => ?_⟩
    rw [Nat.add_assoc, Nat.add_assoc]
    exact h (m + k) (by omega)
  · rintro ⟨hm, hn⟩ k hk
    rcases Nat.lt_or_ge k m with h | h
    · exact hm k h
    · have := hn (k - m) (by omega)
      rwa [show i + m + (k - m) = i + k by omega, show j + m + (k - m) = j + k by omega] at this

/-- Two suffixes that agree beyond the end of the text are one. -/
theorem Agree.eq (h : Agree text n i j) (hn : text.size ≤ n) (hi : i < text.size)
    (hj : j < text.size) : i = j := by
  -- the longer of two suffixes goes on where the shorter one has ended
  have le {i j : Nat} (h : Agree text n i j) (hi : i < text.size) (hj : j < text.size) : i ≤ j := by
    refine Nat.le_of_not_lt fun hlt => ?_
    have he := h (text.size - i) (by omega)
    have hz : letter text (i + (text.size - i)) = 0 := letter_eq_zero_iff.mpr (by omega)
    rw [hz, eq_comm, letter_eq_zero_iff] at he
    omega
  exact Nat.le_antisymm (le h hi hj) (le h.symm hj hi)

/-! ## Comparison -/

namespace Below

/-- The number of letters in which two suffixes agree is determined. -/
theorem agree_iff (h : Below text i j n) : Agree text m i j ↔ m ≤ n := by
  constructor
  · intro ha
    refine Nat.le_of_not_lt fun hlt => ?_
    have := ha n hlt
    have := h.lt
    omega
  · exact h.agree.mono

theorem unique (h : Below text i j n) (h' : Below text i j m) : n = m :=
  Nat.le_antisymm (h'.agree_iff.mp h.agree) (h.agree_iff.mp h'.agree)

theorem asymm (h : Below text i j n) (h' : Below text j i m) : False := by
  have hnm := h'.agree_iff.mp h.agree.symm
  have hmn := h.agree_iff.mp h'.agree.symm
  obtain rfl : n = m := by omega
  have := h.lt
  have := h'.lt
  omega

theorem irrefl (h : Below text i i n) : False := h.asymm h

/-- The outer two of three suffixes in order share the lesser number of letters. -/
theorem trans (h : Below text i j m) (h' : Below text j k n) : Below text i k (min m n) := by
  refine ⟨(h.agree.mono (by omega)).trans (h'.agree.mono (by omega)), ?_⟩
  have hm := h.lt
  have hn := h'.lt
  rcases Nat.lt_trichotomy m n with hlt | rfl | hlt
  · rw [Nat.min_eq_left (by omega), ← h'.agree m hlt]
    exact hm
  · rw [Nat.min_self]
    omega
  · rw [Nat.min_eq_right (by omega), h.agree n hlt]
    exact hn

theorem stop_lt_size (h : Below text i j n) : j + n < text.size :=
  letter_pos_iff.mp (Nat.lt_of_le_of_lt (Nat.zero_le _) h.lt)

theorem stop_le_size (h : Below text i j n) (hi : i ≤ text.size) : i + n ≤ text.size := by
  cases n with
  | zero => exact hi
  | succ n =>
    have hj := h.stop_lt_size
    have he := h.agree n (by omega)
    have : 0 < letter text (i + n) := by
      rw [he]
      exact letter_pos_iff.mpr (by omega)
    have := letter_pos_iff.mp this
    omega

/-- Without their first letter, suffixes that share one compare in the same way. -/
theorem tail (h : Below text i j (n + 1)) : Below text (i + 1) (j + 1) n := by
  refine ⟨fun k hk => ?_, ?_⟩
  · have := h.agree (k + 1) (by omega)
    rwa [show i + (k + 1) = i + 1 + k by omega, show j + (k + 1) = j + 1 + k by omega] at this
  · have := h.lt
    rwa [show i + (n + 1) = i + 1 + n by omega, show j + (n + 1) = j + 1 + n by omega] at this

end Below

/-- Any two suffixes agree in `n` letters, or one of them comes before the other by these. -/
theorem agree_or_before (text : Array Nat) (n i j : Nat) :
    Agree text n i j ∨ Before text n i j ∨ Before text n j i := by
  induction n with
  | zero => exact .inl fun k hk => absurd hk (Nat.not_lt_zero k)
  | succ n ih =>
    rcases ih with h | ⟨k, hk, h⟩ | ⟨k, hk, h⟩
    · rcases Nat.lt_trichotomy (letter text (i + n)) (letter text (j + n)) with hlt | he | hlt
      · exact .inr (.inl ⟨n, by omega, h, hlt⟩)
      · refine .inl fun k hk => ?_
        rcases Nat.lt_succ_iff_lt_or_eq.mp hk with hk | rfl
        · exact h k hk
        · exact he
      · exact .inr (.inr ⟨n, by omega, h.symm, hlt⟩)
    · exact .inr (.inl ⟨k, by omega, h⟩)
    · exact .inr (.inr ⟨k, by omega, h⟩)

theorem Before.not_agree (h : Before text n i j) : ¬ Agree text n i j := by
  obtain ⟨k, hk, h⟩ := h
  intro ha
  have := h.agree_iff.mp ha
  omega

theorem before_one : Before text 1 i j ↔ letter text i < letter text j := by
  constructor
  · rintro ⟨k, hk, h⟩
    obtain rfl : k = 0 := by omega
    exact h.lt
  · intro h
    exact ⟨0, by omega, fun k hk => absurd hk (Nat.not_lt_zero k), h⟩

/-- A comparison by `m + n` letters is one by `m` letters, then one by the next `n`. -/
theorem before_add : Before text (m + n) i j ↔
    Before text m i j ∨ Agree text m i j ∧ Before text n (i + m) (j + m) := by
  constructor
  · rintro ⟨k, hk, h⟩
    rcases Nat.lt_or_ge k m with hlt | hle
    · exact .inl ⟨k, hlt, h⟩
    · obtain ⟨l, rfl⟩ := Nat.exists_eq_add_of_le hle
      obtain ⟨hm, hl⟩ := agree_add.mp h.agree
      refine .inr ⟨hm, l, by omega, hl, ?_⟩
      rw [Nat.add_assoc, Nat.add_assoc]
      exact h.lt
  · rintro (⟨k, hk, h⟩ | ⟨hm, k, hk, h⟩)
    · exact ⟨k, by omega, h⟩
    · refine ⟨m + k, by omega, agree_add.mpr ⟨hm, h.agree⟩, ?_⟩
      rw [← Nat.add_assoc, ← Nat.add_assoc]
      exact h.lt

end CloneDetection.SuffixArray
