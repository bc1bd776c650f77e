import CloneDetection.Proofs.QuotedLiterals

/-!
# Verbatim literals

In a verbatim literal a mark is written twice (`Lexeme.Doubled`), and the first mark that is not
closes it (`Lexeme.verbatimLength_doubled`, `Lexeme.verbatimLength_close`).

Where a doubled mark comes first, three marks stand in a row, and these open a literal of another
form: it ends with the first run of at least three marks (`Lexeme.tripleLength_eq_some_iff`). So a
verbatim literal ends at its closing mark exactly when it does not start with a doubled mark, or
when the first such run happens to be the one at its end (`stringLiteral_verbatim_iff`).
-/

namespace CloneDetection

/-! ## Doubled marks and runs of marks -/

namespace Lexeme

variable {cs body : List Char} {mark : Char} {m n : Nat}

/-- Every mark in the text is written twice. -/
inductive Doubled : List Char → Prop
  | nil : Doubled []
  | pair {body : List Char} (more : Doubled body) : Doubled ('"' :: '"' :: body)
  | char {c : Char} {body : List Char} (plain : c ≠ '"') (more : Doubled body) : Doubled (c :: body)

/-- Behind a text with doubled marks the literal goes on. -/
theorem verbatimLength_doubled (h : Doubled body) (n : Nat) (cs : List Char) :
    verbatimLength n (body ++ cs) = verbatimLength (n + body.length) cs := by
  induction h generalizing n with
  | nil => rfl
  | @pair body more ih =>
    rw [List.cons_append, List.cons_append, verbatimLength, ih]
    congr 1
    simp only [List.length_cons]
    omega
  | @char c body plain more ih =>
    rw [List.cons_append, verbatimLength, if_neg plain, ih]
    · congr 1
      simp only [List.length_cons]
      omega
    · intro rest hc
      exact absurd hc plain

/-- A mark that no other follows closes the literal. -/
theorem verbatimLength_close (h : cs.head? ≠ some '"') (n : Nat) :
    verbatimLength n ('"' :: cs) = some (n + 1) := by
  rw [verbatimLength, if_pos rfl]
  rintro rest - rfl
  exact h rfl

/-- A literal in triple marks starts in front of a closing mark only with a doubled mark. -/
theorem Doubled.pair_prefix_iff (h : Doubled body) (hcs : cs.head? ≠ some '"') :
    ['"', '"'] <+: body ++ '"' :: cs ↔ ['"', '"'] <+: body := by
  cases h with
  | nil =>
    rw [List.nil_append, List.cons_prefix_cons]
    simp only [true_and, List.prefix_nil, reduceCtorEq, iff_false]
    rintro ⟨rest, rfl⟩
    exact hcs rfl
  | pair more => simp
  | char plain more => simp [Ne.symm plain]

/-- The text `inner ++ run ++ after` has `run` as its first run of at least three marks. -/
structure FirstRun (mark : Char) (inner run after : List Char) : Prop where
  marks : ∃ k, run = List.replicate (k + 3) mark
  before : ¬ [mark, mark, mark] <:+: inner
  start : inner.getLast? ≠ some mark
  stop : after.head? ≠ some mark

/-- Three marks at the start of a text belong to its first run. -/
theorem firstRun_of_marks (h : [mark, mark, mark] <+: cs) :
    FirstRun mark [] (cs.takeWhile (· == mark)) (cs.dropWhile (· == mark)) := by
  obtain ⟨rest, rfl⟩ := h
  have hrun : rest.takeWhile (· == mark) =
      List.replicate (rest.takeWhile (· == mark)).length mark :=
    List.eq_replicate_of_mem fun d hd => by simpa using List.mem_takeWhile_imp hd
  refine ⟨⟨(rest.takeWhile (· == mark)).length, ?_⟩, by simp, by simp, fun hstop => ?_⟩
  · rw [List.replicate_succ, List.replicate_succ, List.replicate_succ, ← hrun]
    simp
  · have hnot := List.head?_dropWhile_not (· == mark) ([mark, mark, mark] ++ rest)
    rw [hstop] at hnot
    simp at hnot

/-- What stands in front of the first run can be longer. -/
theorem FirstRun.cons {c : Char} {inner run after : List Char} (h : FirstRun mark inner run after)
    (hc : ¬ [mark, mark, mark] <+: c :: (inner ++ run ++ after)) :
    FirstRun mark (c :: inner) run after := by
  refine ⟨h.marks, ?_, ?_, h.stop⟩
  · rw [List.infix_cons_iff]
    rintro (hfirst | hlater)
    · refine hc (hfirst.trans ?_)
      rw [List.append_assoc]
      exact List.prefix_append (c :: inner) _
    · exact h.before hlater
  · intro hlast
    cases inner with
    | nil =>
      -- the mark would belong to the run
      obtain ⟨k, hk⟩ := h.marks
      obtain rfl : c = mark := by simpa using hlast
      refine hc ⟨List.replicate (k + 1) c ++ after, ?_⟩
      rw [hk]
      simp [List.replicate_succ]
    | cons d inner => exact h.start (by simpa using hlast)

/-- No three marks stand in front of the first run. -/
theorem FirstRun.no_marks {c : Char} {inner run after : List Char}
    (h : FirstRun mark (c :: inner) run after) :
    ¬ [mark, mark, mark] <+: c :: (inner ++ run ++ after) := by
  intro hmarks
  have hstart := h.start
  match inner with
  | [] => simp_all
  | [d] =>
    simp only [List.cons_append, List.cons_prefix_cons] at hmarks
    obtain ⟨rfl, rfl, -⟩ := hmarks
    exact hstart rfl
  | d :: e :: inner =>
    simp only [List.cons_append, List.cons_prefix_cons] at hmarks
    obtain ⟨rfl, rfl, rfl, -⟩ := hmarks
    exact h.before (List.IsPrefix.isInfix ⟨inner, rfl⟩)

theorem FirstRun.takeWhile_eq {run after : List Char} (h : FirstRun mark [] run after) :
    (run ++ after).takeWhile (· == mark) = run := by
  obtain ⟨k, rfl⟩ := h.marks
  have hstop := h.stop
  rw [List.takeWhile_append_of_pos (by simp)]
  cases after with
  | nil => simp
  | cons d after =>
    rw [List.takeWhile_cons_of_neg (by simpa using hstop), List.append_nil]

theorem tripleLength_of_marks (h : [mark, mark, mark] <+: cs) (n : Nat) :
    tripleLength mark false n cs = some (n + (cs.takeWhile (· == mark)).length) := by
  cases cs with
  | nil => simp at h
  | cons c cs => rw [tripleLength_cons (by simp), if_pos (List.isPrefixOf_iff_prefix.mpr h)]

theorem tripleLength_of_no_marks {c : Char} (h : ¬ [mark, mark, mark] <+: c :: cs) (n : Nat) :
    tripleLength mark false n (c :: cs) = tripleLength mark false (n + 1) cs := by
  rw [tripleLength_cons (by simp), if_neg (mt List.isPrefixOf_iff_prefix.mp h)]

/-- A literal in triple marks ends with the first run of at least three marks. -/
theorem tripleLength_firstRun {inner run after : List Char} (h : FirstRun mark inner run after)
    (n : Nat) : tripleLength mark false n (inner ++ run ++ after) =
      some (n + inner.length + run.length) := by
  induction inner generalizing n with
  | nil =>
    obtain ⟨k, hk⟩ := h.marks
    have hmarks : [mark, mark, mark] <+: run ++ after := by
      rw [hk]
      simp [List.replicate_succ]
    rw [List.nil_append, tripleLength_of_marks hmarks, h.takeWhile_eq]
    rfl
  | cons c inner ih =>
    have hinner : FirstRun mark inner run after := by
      refine ⟨h.marks, fun hin => h.before (List.infix_cons hin), fun hlast => h.start ?_, h.stop⟩
      rw [List.getLast?_cons, hlast]
      rfl
    rw [List.cons_append, List.cons_append, tripleLength_of_no_marks h.no_marks, ih hinner,
      List.length_cons]
    congr 1
    omega

theorem exists_firstRun_of_tripleLength (h : tripleLength mark false n cs = some m) :
    ∃ inner run after, cs = inner ++ run ++ after ∧ FirstRun mark inner run after := by
  induction cs generalizing n with
  | nil => cases h
  | cons c cs ih =>
    by_cases hmarks : [mark, mark, mark] <+: c :: cs
    · exact ⟨[], _, _, by simp, firstRun_of_marks hmarks⟩
    · rw [tripleLength_of_no_marks hmarks] at h
      obtain ⟨inner, run, after, rfl, hfirst⟩ := ih h
      exact ⟨c :: inner, run, after, rfl, hfirst.cons hmarks⟩

/-- **Where a literal in triple marks ends** if no mark can be escaped in it. -/
theorem tripleLength_eq_some_iff : tripleLength mark false n cs = some m ↔
    ∃ inner run after, cs = inner ++ run ++ after ∧ FirstRun mark inner run after ∧
      m = n + inner.length + run.length := by
  constructor
  · intro h
    obtain ⟨inner, run, after, rfl, hfirst⟩ := exists_firstRun_of_tripleLength h
    rw [tripleLength_firstRun hfirst] at h
    exact ⟨inner, run, after, rfl, hfirst, (Option.some.inj h).symm⟩
  · rintro ⟨inner, run, after, rfl, hfirst, rfl⟩
    exact tripleLength_firstRun hfirst n

/-- The first run ends with a mark exactly when the text before that mark ends with two more, and
holds no run before them. -/
theorem tripleLength_eq_length_iff {after : List Char} (hafter : after.head? ≠ some mark) :
    tripleLength mark false n (body ++ mark :: after) = some (n + body.length + 1) ↔
      ∃ inner k, body = inner ++ List.replicate (k + 2) mark ∧
        ¬ [mark, mark, mark] <:+: inner ∧ inner.getLast? ≠ some mark := by
  rw [tripleLength_eq_some_iff]
  constructor
  · rintro ⟨inner, run, after', hcs, hfirst, hlength⟩
    obtain ⟨k, rfl⟩ := hfirst.marks
    have hbody : body ++ [mark] = inner ++ List.replicate (k + 3) mark := by
      have hcs : body ++ [mark] ++ after = inner ++ List.replicate (k + 3) mark ++ after' := by
        simpa using hcs
      refine (List.append_inj hcs ?_).1
      simp only [List.length_append, List.length_replicate, List.length_singleton] at hlength ⊢
      omega
    rw [List.replicate_succ', ← List.append_assoc] at hbody
    exact ⟨inner, k, List.append_cancel_right hbody, hfirst.before, hfirst.start⟩
  · rintro ⟨inner, k, rfl, hbefore, hstart⟩
    refine ⟨inner, List.replicate (k + 3) mark, after, ?_, ⟨⟨k, rfl⟩, hbefore, hstart, hafter⟩, ?_⟩
    · have hrun : List.replicate (k + 3) mark = List.replicate (k + 2) mark ++ [mark] :=
        List.replicate_succ'
      simp [hrun]
    · simp only [List.length_append, List.length_replicate]
      omega

end Lexeme

/-! ## Verbatim literals of a grammar -/

namespace Grammar

variable {mark cs : List Char}

theorem verbatimAfter_csharp (mark cs : List Char) :
    csharp.verbatimAfter (mark ++ '"' :: cs) mark =
      some (if ['"', '"'] <+: cs then Lexeme.tripleLength '"' false (mark.length + 3) (cs.drop 2)
        else Lexeme.verbatimLength (mark.length + 1) cs) := by
  unfold verbatimAfter
  simp only [startsWithAnyCase_append, if_true, List.drop_left]
  by_cases hpair : ['"', '"'] <+: cs
  · have htriple : csharp.tripleMark? ('"' :: cs) = some '"' := by simp [tripleMark?, csharp, hpair]
    simp only [htriple, if_pos hpair, List.drop_succ_cons]
  · have htriple : csharp.tripleMark? ('"' :: cs) = none := by simp [tripleMark?, csharp, hpair]
    simp only [htriple, if_neg hpair, List.head?_cons, if_true, List.drop_one, List.tail_cons]

/-- None of the verbatim openings hides another. -/
theorem findSome?_verbatimAfter_csharp (hmark : mark ∈ csharp.verbatimPrefixes) (cs : List Char) :
    csharp.verbatimPrefixes.findSome? (csharp.verbatimAfter (mark ++ '"' :: cs)) =
      csharp.verbatimAfter (mark ++ '"' :: cs) mark := by
  have hmark : mark = ['$', '@'] ∨ mark = ['@', '$'] ∨ mark = ['@'] := by simpa [csharp] using hmark
  have hother : ∀ {other cs}, startsWithAnyCase other cs = false →
      csharp.verbatimAfter cs other = none := by
    intro other cs h
    unfold verbatimAfter
    rw [h]
    rfl
  change List.findSome? _ [['$', '@'], ['@', '$'], ['@']] = _
  rcases hmark with rfl | rfl | rfl
  · rw [List.findSome?_cons, verbatimAfter_csharp]
  · rw [List.findSome?_cons, hother (by rfl), List.findSome?_cons, verbatimAfter_csharp]
  · rw [List.findSome?_cons, hother (by rfl), List.findSome?_cons, hother (by rfl),
      List.findSome?_cons, verbatimAfter_csharp]

/-- The two readings of a text that a verbatim opening starts. -/
theorem stringLiteral_csharp (hmark : mark ∈ csharp.verbatimPrefixes) (afterWord : Bool)
    (cs : List Char) : csharp.stringLiteral afterWord (mark ++ '"' :: cs) =
      (if ['"', '"'] <+: cs then Lexeme.tripleLength '"' false (mark.length + 3) (cs.drop 2)
        else Lexeme.verbatimLength (mark.length + 1) cs).elim
          (.error .stringLiteral) fun n => .ok (some n) := by
  have hraw : csharp.rawLiteral afterWord (mark ++ '"' :: cs) = .ok none := rfl
  simp only [stringLiteral, hraw, verbatimLiteral_eq, findSome?_verbatimAfter_csharp hmark,
    verbatimAfter_csharp, bind, Except.bind]
  cases if ['"', '"'] <+: cs then Lexeme.tripleLength '"' false (mark.length + 3) (cs.drop 2)
    else Lexeme.verbatimLength (mark.length + 1) cs <;> rfl

end Grammar

open Lexeme Grammar

section Verbatim

variable {mark body after : List Char}

/-- A verbatim literal that does not start with a doubled mark ends with its closing mark. -/
theorem stringLiteral_of_not_pair (hmark : mark ∈ csharp.verbatimPrefixes) (hbody : Doubled body)
    (hafter : after.head? ≠ some '"') (hpair : ¬ ['"', '"'] <+: body) (afterWord : Bool) :
    csharp.stringLiteral afterWord (mark ++ '"' :: (body ++ '"' :: after)) =
      .ok (some (mark.length + body.length + 2)) := by
  rw [stringLiteral_csharp hmark, if_neg (mt (hbody.pair_prefix_iff hafter).mp hpair),
    verbatimLength_doubled hbody, verbatimLength_close hafter]
  simp only [Option.elim_some]
  congr 2
  omega

/-- A verbatim literal that starts with a doubled mark is read as one in triple marks. -/
theorem stringLiteral_of_pair (hmark : mark ∈ csharp.verbatimPrefixes) (afterWord : Bool)
    (cs : List Char) : csharp.stringLiteral afterWord (mark ++ '"' :: '"' :: '"' :: cs) =
      (tripleLength '"' false (mark.length + 3) cs).elim (.error .stringLiteral) fun n =>
        .ok (some n) := by
  rw [stringLiteral_csharp hmark, if_pos ⟨cs, rfl⟩]
  rfl

theorem stringLiteral_pair_eq_ok_iff (hmark : mark ∈ csharp.verbatimPrefixes) (afterWord : Bool)
    {cs : List Char} {n : Nat} :
    csharp.stringLiteral afterWord (mark ++ '"' :: '"' :: '"' :: cs) = .ok (some n) ↔
      tripleLength '"' false (mark.length + 3) cs = some n := by
  rw [stringLiteral_of_pair hmark]
  cases tripleLength '"' false (mark.length + 3) cs <;> simp

theorem stringLiteral_pair_eq_error_iff (hmark : mark ∈ csharp.verbatimPrefixes) (afterWord : Bool)
    {cs : List Char} :
    csharp.stringLiteral afterWord (mark ++ '"' :: '"' :: '"' :: cs) = .error .stringLiteral ↔
      ¬ ∃ inner run rest, cs = inner ++ run ++ rest ∧ FirstRun '"' inner run rest := by
  rw [stringLiteral_of_pair hmark]
  cases hlength : tripleLength '"' false (mark.length + 3) cs with
  | none =>
    refine iff_of_true rfl ?_
    rintro ⟨inner, run, rest, rfl, hfirst⟩
    rw [tripleLength_firstRun hfirst] at hlength
    cases hlength
  | some n => simpa using exists_firstRun_of_tripleLength hlength

/-- **Where a verbatim literal ends.** Between the marks every mark is doubled. The literal ends
with its closing mark exactly when it does not start with a doubled mark, or when the marks at its
end are the first run of three behind that one. A literal that starts with a doubled mark is
otherwise read up to that run, wherever it stands, and is unterminated without one. -/
theorem stringLiteral_verbatim_iff (hmark : mark ∈ csharp.verbatimPrefixes) (hbody : Doubled body)
    (hafter : after.head? ≠ some '"') (afterWord : Bool) :
    let found := csharp.stringLiteral afterWord (mark ++ '"' :: (body ++ '"' :: after))
    (found = .ok (some (mark.length + body.length + 2)) ↔
      ¬ ['"', '"'] <+: body ∨
        ∃ inner k, body = '"' :: '"' :: (inner ++ List.replicate (k + 2) '"') ∧
          ¬ ['"', '"', '"'] <:+: inner ∧ inner.getLast? ≠ some '"') ∧
    ∀ more, body = '"' :: '"' :: more →
      (∀ n, found = .ok (some n) ↔ ∃ inner run rest, more ++ '"' :: after = inner ++ run ++ rest ∧
        FirstRun '"' inner run rest ∧ n = mark.length + 3 + inner.length + run.length) ∧
      (found = .error .stringLiteral ↔ ¬ ∃ inner run rest,
        more ++ '"' :: after = inner ++ run ++ rest ∧ FirstRun '"' inner run rest) := by
  intro found
  by_cases hpair : ['"', '"'] <+: body
  · obtain ⟨more, rfl⟩ := hpair
    have hok : ∀ n, found = .ok (some n) ↔
        tripleLength '"' false (mark.length + 3) (more ++ '"' :: after) = some n := fun n =>
      stringLiteral_pair_eq_ok_iff hmark afterWord
    refine ⟨?_, ?_⟩
    · have hlength : mark.length + (['"', '"'] ++ more).length + 2 =
          mark.length + 3 + more.length + 1 := by
        simp only [List.length_append, List.length_cons, List.length_nil]
        omega
      rw [hlength, hok, tripleLength_eq_length_iff hafter]
      simp
    · rintro more' hmore
      obtain rfl : more = more' := by simpa using hmore
      exact ⟨fun n => (hok n).trans tripleLength_eq_some_iff,
        stringLiteral_pair_eq_error_iff hmark afterWord⟩
  · refine ⟨iff_of_true (stringLiteral_of_not_pair hmark hbody hafter hpair afterWord)
      (Or.inl hpair), ?_⟩
    rintro more rfl
    exact absurd ⟨more, rfl⟩ hpair

/-- Where a doubled mark starts the text and another ends it, the closing mark is found. -/
theorem stringLiteral_verbatim_pairs :
    csharp.stringLiteral true "$@\"\"\"a\"\"\";".toList = .ok (some 9) := by
  have hbody : Doubled ['"', '"', 'a', '"', '"'] :=
    .pair (.char (by decide) (.pair .nil))
  refine (@stringLiteral_verbatim_iff ['$', '@'] _ [';'] (by decide) hbody (by decide)
    true).1.mpr (Or.inr ⟨['a'], 0, rfl, ?_, by decide⟩)
  exact fun h => absurd h.length_le (by decide)

/-- **A verbatim literal that only starts with a doubled mark** is unterminated. -/
theorem stringLiteral_verbatim_pair : Doubled ['"', '"', 'a'] ∧
    csharp.stringLiteral false "@\"\"\"a\"".toList = .error .stringLiteral ∧
    tokenize "@\"\"\"a\"".toUTF8 "cs" ⟨.raw, false, false⟩ =
      .error (.malformedSource 0 "unterminated string literal") := by
  refine ⟨.pair (.char (by decide) .nil), by decide +kernel, ?_⟩
  have htag : Language.ofTag? "cs" = some .csharp := by decide +kernel
  have hlex : lex Language.csharp.grammar "@\"\"\"a\"".toList = .error ⟨0, .stringLiteral⟩ := by
    decide +kernel
  rw [tokenize_of_lex_error htag hlex]
  rfl

end Verbatim

end CloneDetection
