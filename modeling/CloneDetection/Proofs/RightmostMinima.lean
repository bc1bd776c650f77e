import CloneDetection.Proofs.Winnowing
import Mathlib

/-!
# The selected fingerprints

The hash of `k` symbols is the value of a polynomial modulo 2^64 (`toNat_gramHash`). With it the
selection can be said without the scan: a position is selected exactly when it is the last at which
some full window has its least hash, each position once and in increasing order
(`fingerprints_eq_lastMinima`).
-/

namespace CloneDetection.Fingerprint

/-! ## The hash as a polynomial -/

/-- The value at the base of the polynomial with the symbols plus one as coefficients, the first one
leading. -/
def gramValue (symbols : List ℕ) : ℕ :=
  ∑ t ∈ Finset.range symbols.length, (symbols.getD t 0 + 1) * 911382323 ^ (symbols.length - 1 - t)

theorem gramValue_cons (x : ℕ) (symbols : List ℕ) :
    gramValue (x :: symbols) = (x + 1) * 911382323 ^ symbols.length + gramValue symbols := by
  unfold gramValue
  rw [List.length_cons, Finset.sum_range_succ', add_comm]
  congr 1
  apply Finset.sum_congr rfl
  intro t ht
  rw [List.getD_cons_succ]
  congr 2
  omega

theorem toNat_digit_modEq (symbol : ℕ) : (digit symbol).toNat ≡ symbol + 1 [MOD 2 ^ 64] := by
  unfold digit
  rw [UInt64.toNat_add, UInt64.toNat_ofNat]
  apply (Nat.mod_modEq _ _).trans
  exact (Nat.mod_modEq symbol _).add_right 1

theorem toNat_base_pow_modEq (n : ℕ) : (base ^ n).toNat ≡ 911382323 ^ n [MOD 2 ^ 64] := by
  induction n with
  | zero => rfl
  | succ n ih =>
    rw [UInt64.pow_succ, pow_succ, UInt64.toNat_mul]
    apply (Nat.mod_modEq _ _).trans
    exact ih.mul_right _

theorem toNat_gramHash_modEq (symbols : List ℕ) :
    (gramHash symbols).toNat ≡ gramValue symbols [MOD 2 ^ 64] := by
  induction symbols with
  | nil => rfl
  | cons x symbols ih =>
    rw [gramHash_cons, gramValue_cons, UInt64.toNat_add, UInt64.toNat_mul]
    apply (Nat.mod_modEq _ _).trans
    apply Nat.ModEq.add _ ih
    apply (Nat.mod_modEq _ _).trans
    exact (toNat_digit_modEq x).mul (toNat_base_pow_modEq symbols.length)

/-- The hash of a run of symbols is the value of its polynomial modulo 2^64. -/
theorem toNat_gramHash (symbols : List ℕ) :
    (gramHash symbols).toNat = gramValue symbols % 2 ^ 64 := by
  rw [← toNat_gramHash_modEq symbols]
  exact (Nat.mod_eq_of_lt (gramHash symbols).toNat_lt).symm

/-- The hash of the `k` symbols from `i` on. -/
def hashAt (symbols : List ℕ) (k i : ℕ) : ℕ :=
  (∑ t ∈ Finset.range k, (symbols.getD (i + t) 0 + 1) * 911382323 ^ (k - 1 - t)) % 2 ^ 64

theorem toNat_gramHash_take_drop {symbols : List ℕ} {k i : ℕ} (h : i + k ≤ symbols.length) :
    (gramHash ((symbols.drop i).take k)).toNat = hashAt symbols k i := by
  have hlen : ((symbols.drop i).take k).length = k := by
    rw [List.length_take, List.length_drop]
    omega
  rw [toNat_gramHash, gramValue, hashAt, hlen]
  congr 1
  apply Finset.sum_congr rfl
  intro t ht
  rw [List.getD_eq_getElem?_getD, List.getD_eq_getElem?_getD,
    List.getElem?_take_of_lt (Finset.mem_range.mp ht), List.getElem?_drop]

theorem getElem?_gramHashes_eq_some_iff {k : ℕ} (hk : 1 ≤ k) {symbols : List ℕ} {i : ℕ}
    {hash : UInt64} : (gramHashes k symbols)[i]? = some hash ↔
      i + k ≤ symbols.length ∧ hash.toNat = hashAt symbols k i := by
  rw [getElem?_gramHashes hk]
  split
  · rename_i hi
    rw [Option.some.injEq, ← toNat_gramHash_take_drop hi, UInt64.toNat_inj, eq_comm]
    exact (and_iff_right hi).symm
  · rename_i hi
    simp [hi]

/-! ## Least hashes -/

/-- The last of the positions `start`, …, `start + window - 1` at which `f` is least. -/
structure IsLastMin (f : ℕ → ℕ) (start window pos : ℕ) : Prop where
  le : start ≤ pos
  lt : pos < start + window
  min : ∀ q, start ≤ q → q < start + window → f pos ≤ f q
  last : ∀ q, pos < q → q < start + window → f pos < f q

theorem rightmostMin_iff {k : ℕ} (hk : 1 ≤ k) {symbols : List ℕ} {window start pos : ℕ}
    {hash : UInt64} (hfull : start + window + k ≤ symbols.length + 1) :
    RightmostMin (gramHashes k symbols) window start hash pos ↔
      hash.toNat = hashAt symbols k pos ∧ IsLastMin (hashAt symbols k) start window pos := by
  have hget {q : ℕ} (hq : q < start + window) :
      ∃ h : UInt64, (gramHashes k symbols)[q]? = some h ∧ h.toNat = hashAt symbols k q := by
    have hle : q + k ≤ symbols.length := by omega
    exact ⟨_, by rw [getElem?_gramHashes hk, if_pos hle], toNat_gramHash_take_drop hle⟩
  constructor
  · intro h
    have hhash := ((getElem?_gramHashes_eq_some_iff hk).mp h.get).2
    refine ⟨hhash, h.le, h.lt, ?_, ?_⟩
    · intro q hq hqw
      obtain ⟨g, hg, hgq⟩ := hget hqw
      rw [← hhash, ← hgq]
      exact h.min q g hq hqw hg
    · intro q hq hqw
      obtain ⟨g, hg, hgq⟩ := hget hqw
      rw [← hhash, ← hgq]
      exact h.last q g hq hqw hg
  · rintro ⟨hhash, h⟩
    have hlt := h.lt
    refine ⟨h.le, h.lt, ?_, ?_, ?_⟩
    · exact (getElem?_gramHashes_eq_some_iff hk).mpr ⟨by omega, hhash⟩
    · intro q g hq hqw hg
      rw [UInt64.le_iff_toNat_le, hhash, ((getElem?_gramHashes_eq_some_iff hk).mp hg).2]
      exact h.min q hq hqw
    · intro q g hq hqw hg
      rw [UInt64.lt_iff_toNat_lt, hhash, ((getElem?_gramHashes_eq_some_iff hk).mp hg).2]
      exact h.last q hq hqw

/-! ## All fingerprints -/

/-- There are fingerprints exactly when there is a full window. -/
theorem fingerprints_eq_nil_iff {symbols : List ℕ} {k window : ℕ} (hk : 1 ≤ k) (hw : 1 ≤ window) :
    fingerprints symbols k window = [] ↔ symbols.length + 1 < window + k := by
  constructor
  · intro h
    apply Nat.lt_of_not_le
    intro hle
    obtain ⟨w, rfl⟩ := Nat.exists_eq_add_of_le' hw
    obtain ⟨hash, pos, hmin⟩ : ∃ hash pos,
        RightmostMin (gramHashes k symbols) (w + 1) 0 hash pos := by
      apply RightmostMin.exists_of_le
      rw [length_gramHashes hk]
      omega
    have hmem : (hash, pos) ∈ fingerprints symbols k (w + 1) :=
      (mem_fingerprints_iff hk hw).mpr ⟨0, by omega, hmin⟩
    rw [h] at hmem
    exact List.not_mem_nil hmem
  · intro h
    rw [List.eq_nil_iff_forall_not_mem]
    rintro ⟨hash, pos⟩ hmem
    obtain ⟨start, hle, -⟩ := (mem_fingerprints_iff hk hw).mp hmem
    omega

/-- The fingerprints are the last positions at which full windows have their least hash, with these
hashes, each position once and in increasing order; there are none when no window is full. -/
theorem fingerprints_eq_lastMinima (symbols : List ℕ) {k window : ℕ} (hk : 1 ≤ k)
    (hw : 1 ≤ window) :
    (∀ hash pos, (hash, pos) ∈ fingerprints symbols k window ↔
      hash.toNat = hashAt symbols k pos ∧ k ≤ symbols.length ∧
        ∃ start, start + window ≤ symbols.length - k + 1 ∧
          IsLastMin (hashAt symbols k) start window pos) ∧
    (fingerprints symbols k window).Pairwise (fun e f => e.2 < f.2) ∧
    (fingerprints symbols k window = [] ↔
      symbols.length < k ∨ symbols.length - k + 1 < window) := by
  refine ⟨?_, ?_, ?_⟩
  · intro hash pos
    rw [mem_fingerprints_iff hk hw]
    constructor
    · rintro ⟨start, hfull, hmin⟩
      obtain ⟨hhash, hmin⟩ := (rightmostMin_iff hk hfull).mp hmin
      exact ⟨hhash, by omega, start, by omega, hmin⟩
    · rintro ⟨hhash, hlen, start, hfull, hmin⟩
      have hfull' : start + window + k ≤ symbols.length + 1 := by omega
      exact ⟨start, hfull', (rightmostMin_iff hk hfull').mpr ⟨hhash, hmin⟩⟩
  · rw [fingerprints, if_neg (by omega)]
    exact pairwise_winnow hw _
  · rw [fingerprints_eq_nil_iff hk hw]
    omega

/-- Of equal hashes the last one in a window is selected: the runs `1 2` at 0, 2 and 4 have the
least hash. -/
theorem fingerprints_alternating :
    (fingerprints [1, 2, 1, 2, 1, 2] 2 3).map Prod.snd = [2, 4] ∧
      ∃ start, start + 3 ≤ 6 - 2 + 1 ∧ IsLastMin (hashAt [1, 2, 1, 2, 1, 2] 2) start 3 4 := by
  have hlast : (2 * 911382323 + 3, 4) ∈ fingerprints [1, 2, 1, 2, 1, 2] 2 3 := by
    decide +kernel
  have hminima := fingerprints_eq_lastMinima [1, 2, 1, 2, 1, 2] (show 1 ≤ 2 by decide)
    (show 1 ≤ 3 by decide)
  exact ⟨by decide +kernel, ((hminima.1 _ _).mp hlast).2.2⟩

end CloneDetection.Fingerprint
