import CloneDetection.Lexeme.Comment
import CloneDetection.Lexeme.Literal
import CloneDetection.Lexeme.Number
import Mathlib.Data.List.TakeWhile

/-!
# The lengths of comments, literals and numbers

Every scanner answers with a number of characters. One that looks for a closing mark stops right
after it (`Lexeme.Closes`), so it stops inside the text and what it takes ends with the mark. The
others stop inside the text too, after the mark or the digit they start with.
-/

namespace CloneDetection

namespace Lexeme

/-! ## Up to a closing mark -/

/-- The text has `mark` in it, and counting from `n` up to and with that mark gives `m`. -/
def Closes (mark cs : List Char) (n m : Nat) : Prop :=
  ∃ body rest, cs = body ++ mark ++ rest ∧ m = n + body.length + mark.length

section Closes

variable {mark cs : List Char} {m n : Nat}

theorem Closes.here (mark rest : List Char) (n : Nat) :
    Closes mark (mark ++ rest) n (n + mark.length) :=
  ⟨[], rest, rfl, rfl⟩

theorem Closes.cons (c : Char) (h : Closes mark cs (n + 1) m) : Closes mark (c :: cs) n m := by
  obtain ⟨body, rest, rfl, rfl⟩ := h
  refine ⟨c :: body, rest, rfl, ?_⟩
  rw [List.length_cons]
  omega

/-- Behind an opening of `n` characters the mark lies inside the text. -/
theorem Closes.bounds (h : Closes mark (cs.drop n) n m) (hmark : mark ≠ []) :
    n < m ∧ m ≤ cs.length := by
  obtain ⟨body, rest, hcs, rfl⟩ := h
  have hpos := List.length_pos_iff.mpr hmark
  have hlength := congrArg List.length hcs
  simp only [List.length_drop, List.length_append] at hlength
  omega

/-- Behind an opening of `n` characters, what is taken ends with the mark. -/
theorem Closes.exists_drop_take (h : Closes mark (cs.drop n) n m) :
    ∃ body, (cs.take m).drop n = body ++ mark := by
  obtain ⟨body, rest, hcs, rfl⟩ := h
  refine ⟨body, ?_⟩
  rw [List.drop_take, hcs]
  refine List.take_left' ?_
  rw [List.length_append]
  omega

end Closes

variable {cs : List Char} {m n : Nat}

theorem nestedLength_closes {depth : Nat} (h : nestedLength depth n cs = some m) :
    Closes ['*', '/'] cs n m := by
  fun_induction nestedLength depth n cs with
  | case1 => cases h
  | case2 depth n cs hdepth =>
    cases h
    exact .here ['*', '/'] cs n
  | case3 depth n cs hdepth ih => exact ((ih h).cons '/').cons '*'
  | case4 depth n cs ih => exact ((ih h).cons '*').cons '/'
  | case5 depth n c cs _ _ ih => exact (ih h).cons c

theorem flatLength_closes (h : flatLength n cs = some m) : Closes ['*', '/'] cs n m := by
  fun_induction flatLength n cs with
  | case1 => cases h
  | case2 n cs =>
    cases h
    exact .here ['*', '/'] cs n
  | case3 n c cs _ ih => exact (ih h).cons c

theorem blockLength_closes {nested : Bool} (h : blockLength nested cs = some m) :
    Closes ['*', '/'] (cs.drop 2) 2 m := by
  rw [blockLength] at h
  split at h
  · exact nestedLength_closes h
  · exact flatLength_closes h

theorem quotedLength_closes {q : Quote} (h : quotedLength q n cs = some m) :
    Closes [q.mark] cs n m := by
  fun_induction quotedLength q n cs with
  | case1 => cases h
  | case2 => cases h
  | case3 n c hescape d cs ih => exact ((ih h).cons d).cons c
  | case4 n cs hescape =>
    cases h
    exact .here [q.mark] cs n
  | case5 => cases h
  | case6 n c cs _ _ _ ih => exact (ih h).cons c

theorem tripleLength_closes {mark : Char} {escapes : Bool}
    (h : tripleLength mark escapes n cs = some m) : Closes [mark] cs n m := by
  fun_induction tripleLength mark escapes n cs with
  | case1 => cases h
  | case2 => cases h
  | case3 n c hescape d cs ih => exact ((ih h).cons d).cons c
  | case4 n c cs hescape hmark =>
    cases h
    -- the run of marks has a last one
    obtain ⟨rest, hrest⟩ := List.isPrefixOf_iff_prefix.mp hmark
    have hrun : (c :: cs).takeWhile (· == mark) =
        List.replicate ((c :: cs).takeWhile (· == mark)).length mark :=
      List.eq_replicate_of_mem fun d hd => by simpa using List.mem_takeWhile_imp hd
    obtain ⟨k, hk⟩ : ∃ k, ((c :: cs).takeWhile (· == mark)).length = k + 1 := by
      rw [← hrest]
      simp
    refine ⟨List.replicate k mark, (c :: cs).dropWhile (· == mark), ?_, ?_⟩
    · rw [← List.replicate_succ', ← hk, ← hrun, List.takeWhile_append_dropWhile]
    · rw [hk, List.length_replicate]
      rfl
  | case5 n c cs _ _ ih => exact (ih h).cons c

theorem verbatimLength_closes (h : verbatimLength n cs = some m) : Closes ['"'] cs n m := by
  fun_induction verbatimLength n cs with
  | case1 => cases h
  | case2 n cs ih => exact ((ih h).cons '"').cons '"'
  | case3 n cs _ =>
    cases h
    exact .here ['"'] cs n
  | case4 n c cs _ _ ih => exact (ih h).cons c

theorem rawLength_closes {hashes : Nat} (h : rawLength hashes n cs = some m) :
    Closes ('"' :: List.replicate hashes '#') cs n m := by
  fun_induction rawLength hashes n cs with
  | case1 => cases h
  | case2 n c cs hclose =>
    cases h
    rw [Bool.and_eq_true, beq_iff_eq, List.isPrefixOf_iff_prefix] at hclose
    obtain ⟨rfl, rest, rfl⟩ := hclose
    exact ⟨[], rest, rfl, by simp; omega⟩
  | case3 n c cs _ ih => exact (ih h).cons c

theorem regexLength_closes {inBrackets : Bool} (h : regexLength inBrackets n cs = some m) :
    ∃ flags, (∀ c ∈ flags, c.isAlpha = true) ∧ Closes ('/' :: flags) cs n m := by
  fun_induction regexLength inBrackets n cs with
  | case1 => cases h
  | case2 => cases h
  | case3 => cases h
  | case4 inBrackets n c cs _ ih =>
    obtain ⟨flags, hletters, hcloses⟩ := ih h
    exact ⟨flags, hletters, (hcloses.cons c).cons '\\'⟩
  | case5 => cases h
  | case6 inBrackets n c cs _ _ _ hclose =>
    cases h
    rw [Bool.and_eq_true, beq_iff_eq] at hclose
    obtain ⟨rfl, -⟩ := hclose
    refine ⟨cs.takeWhile Char.isAlpha, fun c => List.mem_takeWhile_imp, [],
      cs.dropWhile Char.isAlpha, ?_, ?_⟩
    · simp
    · rw [List.length_cons, List.length_nil]
      omega
  | case7 inBrackets n c cs _ _ _ _ ih =>
    obtain ⟨flags, hletters, hcloses⟩ := ih h
    exact ⟨flags, hletters, hcloses.cons c⟩

/-! ## Up to the end of a line, a word or a number -/

theorem lineLength_le (cs : List Char) : lineLength cs ≤ cs.length := by
  have hline := (List.takeWhile_sublist (l := cs) (· != '\n')).length_le
  have htrim := (List.dropWhile_sublist (l := (cs.takeWhile (· != '\n')).reverse)
    (· == '\r')).length_le
  rw [List.length_reverse] at htrim
  exact Nat.le_trans htrim hline

/-- The mark that opens a comment belongs to it. -/
theorem le_lineLength {mark : List Char} (h : mark <+: cs)
    (hmark : ∀ c ∈ mark, c ≠ '\n' ∧ c ≠ '\r') : mark.length ≤ lineLength cs := by
  obtain ⟨rest, rfl⟩ := h
  have hkept : mark.reverse.dropWhile (· == '\r') = mark.reverse := by
    cases hreverse : mark.reverse with
    | nil => rfl
    | cons c _ =>
      refine List.dropWhile_cons_of_neg ?_
      simpa using (hmark c (List.mem_reverse.mp (hreverse ▸ List.mem_cons_self))).2
  rw [lineLength, List.takeWhile_append_of_pos (fun c hc => by simpa using (hmark c hc).1),
    List.reverse_append, List.dropWhile_append]
  split
  · rw [hkept, List.length_reverse]
  · rw [List.length_append, List.length_reverse]
    omega

theorem directiveLength_bounds (n : Nat) (cs : List Char) :
    n ≤ directiveLength n cs ∧ directiveLength n cs ≤ n + cs.length := by
  fun_induction directiveLength n cs <;>
    simp only [List.length_cons, List.length_nil] at * <;> omega

theorem directiveLength_sign_bounds (cs : List Char) :
    1 ≤ directiveLength 0 ('#' :: cs) ∧ directiveLength 0 ('#' :: cs) ≤ cs.length + 1 := by
  have hbounds := directiveLength_bounds (0 + 1) cs
  rw [directiveLength, if_neg (by decide)]
  · omega
  all_goals simp

theorem numberRest_bounds (hex afterExponent : Bool) (n : Nat) (cs : List Char) :
    n ≤ numberRest hex afterExponent n cs ∧ numberRest hex afterExponent n cs ≤ n + cs.length := by
  fun_induction numberRest hex afterExponent n cs <;>
    simp only [List.length_cons, List.length_nil] at * <;> omega

/-- A digit belongs to the number. -/
theorem lt_numberRest {c : Char} (h : c.isDigit = true) (hex afterExponent : Bool) (n : Nat)
    (cs : List Char) : n < numberRest hex afterExponent n (c :: cs) := by
  rw [numberRest, if_pos (by simp [Char.isAlphanum, h])]
  exact (numberRest_bounds _ _ _ _).1

/-- A number is not empty, and one that starts with a dot takes the digit after it. -/
theorem numberLength_bounds {c : Char} {cs : List Char}
    (h : (c.isDigit || c == '.' && startsWithDigit cs) = true) :
    1 ≤ numberLength (c :: cs) ∧ numberLength (c :: cs) ≤ cs.length + 1 ∧
      (c.isDigit = false → 2 ≤ numberLength (c :: cs)) := by
  have hle := (numberRest_bounds (isHexNumber (c :: cs)) false 0 (c :: cs)).2
  rw [Nat.zero_add, List.length_cons] at hle
  cases hdigit : c.isDigit with
  | true => exact ⟨lt_numberRest hdigit _ _ _ _, hle, nofun⟩
  | false =>
    rw [hdigit, Bool.false_or, Bool.and_eq_true, beq_iff_eq] at h
    obtain ⟨rfl, hnext⟩ := h
    have htwo : 2 ≤ numberLength ('.' :: cs) := by
      rw [numberLength, numberRest, if_neg (by decide), if_pos (by simpa using hnext)]
      cases cs with
      | nil => cases hnext
      | cons d cs => exact lt_numberRest hnext _ _ _ _
    exact ⟨by omega, hle, fun _ => htwo⟩

end Lexeme

end CloneDetection
