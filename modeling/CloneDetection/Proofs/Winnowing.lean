import CloneDetection.Fingerprint.Winnow
import CloneDetection.Proofs.Runs

/-!
# The winnowing guarantee

Rolling from one run to the next gives the hash of every run of `k` symbols
(`getElem?_gramHashes`), and the queue of the scan gives the rightmost least hash of every full
window. From one window to the next its position does not move back (`RightmostMin.pos_le`), so it is
enough to compare it with the one selected last: the least hashes are selected, each once and in
order (`mem_winnow_iff`, `pairwise_winnow`).

The choice within a window depends on the symbols of the window only, so two equal runs that fill a
window select a fingerprint in the same place (`EqualRun.exists_fingerprint`).
-/

namespace CloneDetection.Fingerprint

/-! ## Rolling hashes -/

theorem foldl_gramHash (hash : UInt64) (symbols : List Nat) :
    symbols.foldl (fun hash symbol => hash * base + digit symbol) hash =
      hash * base ^ symbols.length + gramHash symbols := by
  induction symbols generalizing hash with
  | nil => simp [gramHash]
  | cons x symbols ih =>
    rw [gramHash, List.foldl_cons, List.foldl_cons, ih, ih (0 * base + digit x),
      List.length_cons, UInt64.pow_succ]
    grind

theorem gramHash_cons (x : Nat) (symbols : List Nat) :
    gramHash (x :: symbols) = digit x * base ^ symbols.length + gramHash symbols := by
  rw [gramHash, List.foldl_cons, foldl_gramHash]
  grind

theorem gramHash_concat (symbols : List Nat) (y : Nat) :
    gramHash (symbols ++ [y]) = gramHash symbols * base + digit y := by
  simp [gramHash]

/-- Rolling drops the first symbol of a run and takes up another at its end. -/
theorem roll_gramHash (x y : Nat) (symbols : List Nat) :
    roll (base ^ symbols.length) (gramHash (x :: symbols)) x y = gramHash (symbols ++ [y]) := by
  rw [roll, gramHash_cons, gramHash_concat]
  grind

theorem getElem?_rollAll {k : Nat} (symbols : List Nat) (hk : k + 1 ≤ symbols.length) (i : Nat) :
    (rollAll (base ^ k) (gramHash (symbols.take (k + 1))) symbols (symbols.drop (k + 1)))[i]? =
      if i + 1 + (k + 1) ≤ symbols.length then
        some (gramHash ((symbols.drop (i + 1)).take (k + 1)))
      else none := by
  induction symbols generalizing i with
  | nil => simp at hk
  | cons x symbols ih =>
    simp only [List.length_cons] at hk
    rcases Nat.lt_or_eq_of_le (Nat.le_of_succ_le_succ hk) with hlt | rfl
    · have hnext : roll (base ^ k) (gramHash ((x :: symbols).take (k + 1))) x symbols[k] =
          gramHash (symbols.take (k + 1)) := by
        have hroll := roll_gramHash x symbols[k] (symbols.take k)
        rwa [List.length_take, Nat.min_eq_left (by omega), List.take_append_getElem hlt] at hroll
      rw [List.drop_succ_cons, List.drop_eq_getElem_cons hlt, rollAll, hnext]
      cases i with
      | zero => simp [show 0 + 1 + (k + 1) ≤ symbols.length + 1 by omega]
      | succ i =>
        rw [List.getElem?_cons_succ, ih hlt]
        simp [Nat.add_right_comm _ 1]
    · rw [List.drop_of_length_le (by simp), rollAll]
      · simp
      · simp

/-- The hashes are those of the runs of `k` symbols, by their starts. -/
theorem getElem?_gramHashes {k : Nat} (hk : 1 ≤ k) (symbols : List Nat) (i : Nat) :
    (gramHashes k symbols)[i]? =
      if i + k ≤ symbols.length then some (gramHash ((symbols.drop i).take k)) else none := by
  obtain ⟨k, rfl⟩ := Nat.exists_eq_add_of_le' hk
  rw [gramHashes]
  split
  · rw [if_neg (by omega), List.getElem?_nil]
  · cases i with
    | zero => simp [show k + 1 ≤ symbols.length by omega]
    | succ i => exact getElem?_rollAll symbols (by omega) i

theorem length_gramHashes {k : Nat} (hk : 1 ≤ k) (symbols : List Nat) :
    (gramHashes k symbols).length = symbols.length + 1 - k := by
  have h (i : Nat) : i < (gramHashes k symbols).length ↔ i + k ≤ symbols.length := by
    rw [← Nat.not_le, ← List.getElem?_eq_none_iff, getElem?_gramHashes hk]
    simp
  have h₁ := h (gramHashes k symbols).length
  have h₂ := h ((gramHashes k symbols).length - 1)
  omega

/-! ## The queue -/

theorem mem_dropWhile_iff {α : Type} {p : α → Bool} {l : List α}
    (h : l.Pairwise fun a b => p b → p a) {e : α} :
    e ∈ l.dropWhile p ↔ e ∈ l ∧ p e = false := by
  induction l with
  | nil => simp
  | cons a l ih =>
    rw [List.pairwise_cons] at h
    rw [List.dropWhile_cons]
    cases hp : p a <;> grind

theorem mem_takeWhile_iff {α : Type} {p : α → Bool} {l : List α}
    (h : l.Pairwise fun a b => p b → p a) {e : α} :
    e ∈ l.takeWhile p ↔ e ∈ l ∧ p e = true := by
  induction l with
  | nil => simp
  | cons a l ih =>
    rw [List.pairwise_cons] at h
    rw [List.takeWhile_cons]
    cases hp : p a <;> grind

/-- The queue before position `n`: entries of the last `window` hashes, newest first and strictly
smaller towards the oldest, such that every hash of the window gives way to an entry that is not
older and not larger. -/
structure Queued (hashes : List UInt64) (window n : Nat) (queue : List (Nat × UInt64)) : Prop where
  lt : ∀ e ∈ queue, e.1 < n
  near : ∀ e ∈ queue, n ≤ e.1 + window
  get : ∀ e ∈ queue, hashes[e.1]? = some e.2
  ordered : queue.Pairwise fun e f => f.1 < e.1 ∧ f.2 < e.2
  covers : ∀ q h, q < n → n ≤ q + window → hashes[q]? = some h → ∃ e ∈ queue, q ≤ e.1 ∧ e.2 ≤ h

namespace Queued

variable {hashes : List UInt64} {window n : Nat} {queue : List (Nat × UInt64)} {hash : UInt64}

theorem nil (hashes : List UInt64) (window : Nat) : Queued hashes window 0 [] :=
  ⟨by simp, by simp, by simp, .nil, by simp⟩

theorem mem_enqueue_iff (h : Queued hashes window n queue) {e : Nat × UInt64} :
    e ∈ enqueue window n hash queue ↔
      e = (n, hash) ∨ e ∈ queue ∧ e.2 < hash ∧ n < e.1 + window := by
  have hdrop : queue.Pairwise fun a b => decide (hash ≤ b.2) → decide (hash ≤ a.2) :=
    h.ordered.imp fun {a b} hab hb => by
      simp only [decide_eq_true_eq] at hb ⊢
      exact UInt64.le_trans hb (UInt64.le_of_lt hab.2)
  have htake : (queue.dropWhile fun e => hash ≤ e.2).Pairwise fun a b =>
      decide (n < b.1 + window) → decide (n < a.1 + window) :=
    (h.ordered.sublist (List.dropWhile_sublist _)).imp fun {a b} hab hb => by
      simp only [decide_eq_true_eq] at hb ⊢
      omega
  rw [enqueue, List.mem_cons, mem_takeWhile_iff htake, mem_dropWhile_iff hdrop]
  simp only [decide_eq_true_eq, decide_eq_false_iff_not, UInt64.not_le, and_assoc]

/-- One more hash keeps the queue in order. -/
theorem enqueue (h : Queued hashes window n queue) (hw : 1 ≤ window)
    (hn : hashes[n]? = some hash) :
    Queued hashes window (n + 1) (enqueue window n hash queue) := by
  refine ⟨fun e he => ?_, fun e he => ?_, fun e he => ?_, ?_, fun q g hq hqw hg => ?_⟩
  · rcases h.mem_enqueue_iff.mp he with rfl | ⟨he, -⟩
    · omega
    · have := h.lt e he
      omega
  · rcases h.mem_enqueue_iff.mp he with rfl | ⟨-, -, he⟩
    · dsimp only
      omega
    · omega
  · rcases h.mem_enqueue_iff.mp he with rfl | ⟨he, -⟩
    · exact hn
    · exact h.get e he
  · refine List.pairwise_cons.mpr ⟨fun e he => ?_, ?_⟩
    · have hmem := h.mem_enqueue_iff.mp (List.mem_cons_of_mem _ he)
      have hold := (List.takeWhile_sublist _).trans (List.dropWhile_sublist _) |>.mem he
      have hlt := h.lt e hold
      rcases hmem with rfl | ⟨-, hsmall, -⟩
      · omega
      · exact ⟨hlt, hsmall⟩
    · exact h.ordered.sublist ((List.takeWhile_sublist _).trans (List.dropWhile_sublist _))
  · rcases Nat.lt_or_eq_of_le (Nat.le_of_lt_succ hq) with hlt | rfl
    · obtain ⟨e, he, hqe, heg⟩ := h.covers q g hlt (by omega) hg
      rcases UInt64.lt_or_le e.2 hash with hsmall | hlarge
      · exact ⟨e, h.mem_enqueue_iff.mpr (.inr ⟨he, hsmall, by omega⟩), hqe, heg⟩
      · exact ⟨(n, hash), h.mem_enqueue_iff.mpr (.inl rfl), by omega,
          UInt64.le_trans hlarge heg⟩
    · refine ⟨(q, hash), h.mem_enqueue_iff.mpr (.inl rfl), Nat.le_refl _, ?_⟩
      rw [hn, Option.some.injEq] at hg
      exact hg ▸ UInt64.le_refl _

end Queued

/-! ## The least hash of a window -/

/-- The hash at `pos` is the least of the window at `start`, and the rightmost of equal ones. -/
structure RightmostMin (hashes : List UInt64) (window start : Nat) (hash : UInt64) (pos : Nat) :
    Prop where
  le : start ≤ pos
  lt : pos < start + window
  get : hashes[pos]? = some hash
  min : ∀ q h, start ≤ q → q < start + window → hashes[q]? = some h → hash ≤ h
  last : ∀ q h, pos < q → q < start + window → hashes[q]? = some h → hash < h

namespace RightmostMin

variable {hashes other : List UInt64} {window start : Nat} {hash : UInt64} {pos : Nat}

theorem unique (h : RightmostMin hashes window start hash pos) {hash' : UInt64} {pos' : Nat}
    (h' : RightmostMin hashes window start hash' pos') : hash = hash' ∧ pos = pos' := by
  have before {g g' : UInt64} {p p' : Nat} (h : RightmostMin hashes window start g p)
      (h' : RightmostMin hashes window start g' p') : ¬p < p' := fun hlt =>
    UInt64.not_le.mpr (h.last p' g' hlt h'.lt h'.get) (h'.min p g h.le h.lt h.get)
  have hpos : pos = pos' := by
    have h₁ := before h h'
    have h₂ := before h' h
    omega
  subst hpos
  have := h.get.symm.trans h'.get
  exact ⟨Option.some.inj this, rfl⟩

/-- Every full window has a least hash. -/
theorem exists_of_le (h : start + (window + 1) ≤ hashes.length) :
    ∃ hash pos, RightmostMin hashes (window + 1) start hash pos := by
  induction window with
  | zero =>
    have hget := List.getElem?_eq_getElem (show start < hashes.length by omega)
    refine ⟨_, start, Nat.le_refl _, by omega, hget, fun q g hq hqw hg => ?_,
      fun q g hq hqw hg => by omega⟩
    obtain rfl : q = start := by omega
    rw [hget, Option.some.injEq] at hg
    exact hg ▸ UInt64.le_refl _
  | succ window ih =>
    obtain ⟨hash, pos, hle, hlt, hget, hmin, hlast⟩ := ih (by omega)
    have hnew := List.getElem?_eq_getElem (show start + (window + 1) < hashes.length by omega)
    have old_or_new {q : Nat} {g : UInt64} (hq : q < start + (window + 1 + 1))
        (hg : hashes[q]? = some g) :
        q < start + (window + 1) ∨ g = hashes[start + (window + 1)] := by
      rcases Nat.lt_or_ge q (start + (window + 1)) with hlt' | hge
      · exact .inl hlt'
      · obtain rfl : q = start + (window + 1) := by omega
        exact .inr (Option.some.inj (hg.symm.trans hnew))
    -- the new hash takes over unless it is larger
    rcases UInt64.lt_or_le hash hashes[start + (window + 1)] with hlarge | hsmall
    · refine ⟨hash, pos, hle, by omega, hget, fun q g hq hqw hg => ?_, fun q g hq hqw hg => ?_⟩
      · rcases old_or_new hqw hg with hold | rfl
        · exact hmin q g hq hold hg
        · exact UInt64.le_of_lt hlarge
      · rcases old_or_new hqw hg with hold | rfl
        · exact hlast q g hq hold hg
        · exact hlarge
    · refine ⟨_, start + (window + 1), by omega, by omega, hnew, fun q g hq hqw hg => ?_,
        fun q g hq hqw hg => by omega⟩
      rcases old_or_new hqw hg with hold | rfl
      · exact UInt64.le_trans hsmall (hmin q g hq hold hg)
      · exact UInt64.le_refl _

/-- A window of the same hashes has its least hash in the same place. -/
theorem shift (h : RightmostMin hashes window start hash pos) {start' : Nat}
    (he : ∀ d < window, hashes[start + d]? = other[start' + d]?) :
    RightmostMin other window start' hash (start' + (pos - start)) := by
  have back {q : Nat} {g : UInt64} (hle : start' ≤ q) (hlt : q < start' + window)
      (hg : other[q]? = some g) : hashes[start + (q - start')]? = some g := by
    rw [he _ (by omega), ← hg]
    congr 1
    omega
  have hle := h.le
  have hlt := h.lt
  refine ⟨by omega, by omega, ?_, fun q g hq hqw hg => ?_, fun q g hq hqw hg => ?_⟩
  · rw [← he _ (by omega), ← h.get]
    congr 1
    omega
  · exact h.min _ g (by omega) (by omega) (back hq hqw hg)
  · exact h.last _ g (by omega) (by omega) (back (by omega) hqw hg)

end RightmostMin

/-- The oldest entry of the queue is the least hash of the last window. -/
theorem Queued.rightmostMin {hashes : List UInt64} {window start : Nat}
    {queue : List (Nat × UInt64)} (h : Queued hashes window (start + window) queue)
    {last : Nat × UInt64} (hlast : queue.getLast? = some last) :
    RightmostMin hashes window start last.2 last.1 := by
  obtain ⟨newer, rfl⟩ := List.getLast?_eq_some_iff.mp hlast
  have hmem : last ∈ newer ++ [last] := by simp
  have smaller : ∀ e ∈ newer, last.1 < e.1 ∧ last.2 < e.2 := by
    intro e he
    exact (List.pairwise_append.mp h.ordered).2.2 e he last (List.mem_singleton.mpr rfl)
  have hnear := h.near last hmem
  refine ⟨by omega, h.lt last hmem, h.get last hmem, fun q g hq hqw hg => ?_,
    fun q g hq hqw hg => ?_⟩
  · obtain ⟨e, he, -, heg⟩ := h.covers q g hqw (by omega) hg
    rcases List.mem_append.mp he with he | he
    · exact UInt64.le_trans (UInt64.le_of_lt (smaller e he).2) heg
    · exact List.mem_singleton.mp he ▸ heg
  · obtain ⟨e, he, hqe, heg⟩ := h.covers q g hqw (by omega) hg
    rcases List.mem_append.mp he with he | he
    · exact UInt64.lt_of_lt_of_le (smaller e he).2 heg
    · have := List.mem_singleton.mp he
      subst this
      omega

/-- The least hash of a later window does not stand before that of an earlier one. -/
theorem RightmostMin.pos_le {hashes : List UInt64} {window i j pos pos' : Nat} {hash hash' : UInt64}
    (h : RightmostMin hashes window i hash pos) (h' : RightmostMin hashes window j hash' pos')
    (hij : i ≤ j) : pos ≤ pos' := by
  apply Nat.le_of_not_lt
  intro hlt
  have hj := h'.le
  have hi := h.lt
  -- each position would lie in the window of the other
  have hle : hash ≤ hash' := h.min pos' hash' (by omega) (by omega) h'.get
  have hgt : hash' < hash := h'.last pos hash hlt (by omega) h.get
  exact UInt64.not_le.mpr hgt hle

/-! ## The selection -/

/-- What is selected before position `n`, the last one first: the least hashes of the windows that
end before `n`, in strictly decreasing order of positions. -/
structure Selected (hashes : List UInt64) (window n : Nat) (selected : List (UInt64 × Nat)) :
    Prop where
  mem_iff : ∀ e, e ∈ selected ↔
    ∃ start, start + window ≤ n ∧ RightmostMin hashes window start e.1 e.2
  ordered : selected.Pairwise fun e f => f.2 < e.2

namespace Selected

variable {hashes : List UInt64} {window n start : Nat} {selected : List (UInt64 × Nat)}
  {entry : Nat × UInt64}

theorem nil (hashes : List UInt64) (h : n < window) : Selected hashes window n [] := by
  refine ⟨?_, .nil⟩
  intro e
  constructor
  · intro he
    cases he
  · rintro ⟨start, hle, -⟩
    omega

/-- Nothing is selected before the first full window. -/
theorem eq_nil (h : Selected hashes window n selected) (hn : n < window) : selected = [] := by
  rw [List.eq_nil_iff_forall_not_mem]
  intro e he
  obtain ⟨start, hle, -⟩ := (h.mem_iff e).mp he
  omega

theorem mem_select_iff (h : Selected hashes window n selected)
    (hmin : RightmostMin hashes window start entry.2 entry.1) {e : UInt64 × Nat} :
    e ∈ select entry selected ↔ e = (entry.2, entry.1) ∨ e ∈ selected := by
  cases selected with
  | nil => simp [Fingerprint.select]
  | cons top rest =>
    rw [Fingerprint.select]
    split
    · rename_i heq
      obtain ⟨_, -, htop⟩ := (h.mem_iff top).mp List.mem_cons_self
      have hget := htop.get
      rw [heq, hmin.get, Option.some.injEq] at hget
      have : top = (entry.2, entry.1) := Prod.ext hget.symm heq
      simp [this]
    · simp

/-- The least hash of the next window is new, or it is the one selected last. -/
theorem select (h : Selected hashes window n selected) (hstart : start + window = n + 1)
    (hmin : RightmostMin hashes window start entry.2 entry.1) :
    Selected hashes window (n + 1) (select entry selected) := by
  constructor
  · intro e
    rw [h.mem_select_iff hmin, h.mem_iff]
    constructor
    · rintro (rfl | ⟨start', hle, hmin'⟩)
      · exact ⟨start, Nat.le_of_eq hstart, hmin⟩
      · exact ⟨start', by omega, hmin'⟩
    · rintro ⟨start', hle, hmin'⟩
      rcases Nat.lt_or_eq_of_le hle with hlt | heq
      · exact .inr ⟨start', by omega, hmin'⟩
      · obtain rfl : start' = start := by omega
        obtain ⟨hhash, hpos⟩ := hmin'.unique hmin
        exact .inl (Prod.ext hhash hpos)
  · have hbefore : ∀ e ∈ selected, e.2 ≤ entry.1 := by
      intro e he
      obtain ⟨start', hle, hmin'⟩ := (h.mem_iff e).mp he
      exact hmin'.pos_le hmin (by omega)
    cases selected with
    | nil => simp [Fingerprint.select]
    | cons top rest =>
      rw [Fingerprint.select]
      split
      · exact h.ordered
      · rename_i hne
        have htop := hbefore top List.mem_cons_self
        refine List.pairwise_cons.mpr ⟨?_, h.ordered⟩
        intro e he
        rcases List.mem_cons.mp he with rfl | he
        · exact Nat.lt_of_le_of_ne htop hne
        · exact Nat.lt_of_lt_of_le (List.rel_of_pairwise_cons h.ordered he) htop

end Selected

theorem winnowFrom_cons_of_lt {window start : Nat} (h : start + 1 < window) (hash : UInt64)
    (queue : List (Nat × UInt64)) (selected : List (UInt64 × Nat)) (rest : List UInt64) :
    winnowFrom window start queue selected (hash :: rest) =
      winnowFrom window (start + 1) (enqueue window start hash queue) selected rest := by
  rw [winnowFrom]
  simp only [if_neg (Nat.not_le.mpr h)]

theorem winnowFrom_cons_of_le {window start : Nat} (h : window ≤ start + 1) {hash : UInt64}
    {queue : List (Nat × UInt64)} {entry : Nat × UInt64}
    (hlast : (enqueue window start hash queue).getLast? = some entry)
    (selected : List (UInt64 × Nat)) (rest : List UInt64) :
    winnowFrom window start queue selected (hash :: rest) =
      winnowFrom window (start + 1) (enqueue window start hash queue) (select entry selected)
        rest := by
  rw [winnowFrom]
  simp only [if_pos h, hlast]

/-- The rest of a scan completes the selection. -/
theorem Selected.exists_winnowFrom_eq {hashes rest : List UInt64} {window n : Nat}
    {queue : List (Nat × UInt64)} {selected : List (UInt64 × Nat)}
    (h : Selected hashes window n selected) (hw : 1 ≤ window) (hq : Queued hashes window n queue)
    (hrest : hashes.drop n = rest) (hn : n ≤ hashes.length) :
    ∃ all, Selected hashes window hashes.length all ∧
      winnowFrom window n queue selected rest = all.reverse := by
  induction rest generalizing n queue selected with
  | nil =>
    have hlen := List.drop_eq_nil_iff.mp hrest
    exact ⟨selected, Nat.le_antisymm hn hlen ▸ h, rfl⟩
  | cons hash rest ih =>
    have hget : hashes[n]? = some hash := by
      rw [← List.head?_drop, hrest, List.head?_cons]
    have hrest' : hashes.drop (n + 1) = rest := by
      rw [← List.tail_drop, hrest, List.tail_cons]
    have hn' : n + 1 ≤ hashes.length := (List.getElem?_eq_some_iff.mp hget).1
    have hq' := hq.enqueue hw hget
    rcases Nat.lt_or_ge (n + 1) window with hlt | hge
    · rw [winnowFrom_cons_of_lt hlt, h.eq_nil (by omega)]
      exact ih (.nil hashes hlt) hq' hrest' hn'
    · obtain ⟨start, hstart⟩ := Nat.exists_eq_add_of_le' hge
      obtain ⟨last, hlast⟩ : ∃ last, (enqueue window n hash queue).getLast? = some last :=
        ⟨_, List.getLast?_eq_some_getLast (List.cons_ne_nil _ _)⟩
      have hmin : RightmostMin hashes window start last.2 last.1 := by
        rw [hstart] at hq'
        exact hq'.rightmostMin hlast
      rw [winnowFrom_cons_of_le hge hlast]
      exact ih (h.select hstart.symm hmin) hq' hrest' hn'

theorem exists_winnow_eq {window : Nat} (hw : 1 ≤ window) (hashes : List UInt64) :
    ∃ all, Selected hashes window hashes.length all ∧ winnow window hashes = all.reverse :=
  (Selected.nil hashes hw).exists_winnowFrom_eq hw (.nil hashes window) List.drop_zero
    (Nat.zero_le _)

/-- Winnowing selects exactly the rightmost least hashes of the full windows. -/
theorem mem_winnow_iff {hashes : List UInt64} {window : Nat} (hw : 1 ≤ window) {hash : UInt64}
    {pos : Nat} : (hash, pos) ∈ winnow window hashes ↔
      ∃ start, start + window ≤ hashes.length ∧ RightmostMin hashes window start hash pos := by
  obtain ⟨all, hall, heq⟩ := exists_winnow_eq hw hashes
  rw [heq, List.mem_reverse]
  exact hall.mem_iff (hash, pos)

/-- Positions are selected once, in increasing order. -/
theorem pairwise_winnow {window : Nat} (hw : 1 ≤ window) (hashes : List UInt64) :
    (winnow window hashes).Pairwise fun e f => e.2 < f.2 := by
  obtain ⟨all, hall, heq⟩ := exists_winnow_eq hw hashes
  rw [heq, List.pairwise_reverse]
  exact hall.ordered

/-! ## Equal runs -/

theorem mem_fingerprints_iff {symbols : List Nat} {k window : Nat} (hk : 1 ≤ k) (hw : 1 ≤ window)
    {hash : UInt64} {pos : Nat} : (hash, pos) ∈ fingerprints symbols k window ↔
      ∃ start, start + window + k ≤ symbols.length + 1 ∧
        RightmostMin (gramHashes k symbols) window start hash pos := by
  rw [fingerprints, if_neg (by omega), mem_winnow_iff hw, length_gramHashes hk]
  constructor
  · rintro ⟨start, hle, hmin⟩
    exact ⟨start, by omega, hmin⟩
  · rintro ⟨start, hle, hmin⟩
    exact ⟨start, by omega, hmin⟩

end CloneDetection.Fingerprint

namespace CloneDetection.EqualRun

open Fingerprint

variable {x y : Array Nat} {i j n k window : Nat}

/-- The runs of symbols at the same place of two equal runs have equal hashes. -/
theorem getElem?_gramHashes_eq (h : EqualRun x y i j n) (hk : 1 ≤ k) {d : Nat} (hd : d + k ≤ n) :
    (gramHashes k x.toList)[i + d]? = (gramHashes k y.toList)[j + d]? := by
  have hx := h.left_le
  have hy := h.right_le
  have he : (x.toList.drop (i + d)).take k = (y.toList.drop (j + d)).take k := by
    refine List.ext_getElem? fun m => ?_
    rcases Nat.lt_or_ge m k with hm | hm
    · rw [List.getElem?_take_of_lt hm, List.getElem?_take_of_lt hm, List.getElem?_drop,
        List.getElem?_drop, Array.getElem?_toList, Array.getElem?_toList, Nat.add_assoc,
        Nat.add_assoc]
      exact h.eq (d + m) (by omega)
    · rw [List.getElem?_eq_none, List.getElem?_eq_none] <;> simp <;> omega
  rw [getElem?_gramHashes hk, getElem?_gramHashes hk, he, if_pos (by simp; omega),
    if_pos (by simp; omega)]

/-- Two equal runs that hold a full window have a fingerprint in the same place. -/
theorem exists_fingerprint (h : EqualRun x y i j n) (hk : 1 ≤ k) (hw : 1 ≤ window)
    (hn : k + window ≤ n + 1) :
    ∃ d hash, d + k ≤ n ∧ (hash, i + d) ∈ fingerprints x.toList k window ∧
      (hash, j + d) ∈ fingerprints y.toList k window := by
  have hx := h.left_le
  have hy := h.right_le
  obtain ⟨w, rfl⟩ := Nat.exists_eq_add_of_le' hw
  obtain ⟨hash, pos, hmin⟩ : ∃ hash pos,
      RightmostMin (gramHashes k x.toList) (w + 1) i hash pos := by
    refine RightmostMin.exists_of_le ?_
    rw [length_gramHashes hk, Array.length_toList]
    omega
  have hle := hmin.le
  have hlt := hmin.lt
  have hmin' : RightmostMin (gramHashes k y.toList) (w + 1) j hash (j + (pos - i)) := by
    exact hmin.shift fun d hd => h.getElem?_gramHashes_eq hk (by omega)
  refine ⟨pos - i, hash, by omega, ?_, ?_⟩
  · rw [mem_fingerprints_iff hk hw, Array.length_toList, show i + (pos - i) = pos by omega]
    exact ⟨i, by omega, hmin⟩
  · rw [mem_fingerprints_iff hk hw, Array.length_toList]
    exact ⟨j, by omega, hmin'⟩

end CloneDetection.EqualRun
