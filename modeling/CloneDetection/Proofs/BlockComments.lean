import CloneDetection.Grammar.Languages
import CloneDetection.Proofs.Scanning
import Mathlib.Data.List.Basic

/-!
# The grammar of block comments

A block comment is an opening mark, a body and a closing mark. Where comments nest, the body is a
sequence of comments and of characters at which no mark starts (`Body`); where they do not, it is
what stands in front of the first closing mark.

The scanner counts levels instead. Reading a body leaves the level as it is (`nestedLength_body`),
and a scan that ends has closed one body on every level (`levels_of_nestedLength`), so counting
finds the comment that the grammar describes, and there is at most one (`blockEnd_eq_ok_iff`).
-/

namespace CloneDetection

namespace Lexeme

variable {cs body after : List Char} {depth m n : Nat}

/-! ## Nested comments -/

/-- In front of `after`, the text is a sequence of comments and of characters at which neither mark
starts. -/
inductive Body : List Char → List Char → Prop
  | nil {after : List Char} : Body [] after
  | char {c : Char} {body after : List Char} (opens : ¬ ['/', '*'] <+: c :: (body ++ after))
    (closes : ¬ ['*', '/'] <+: c :: (body ++ after)) (more : Body body after) :
    Body (c :: body) after
  | comment {inner body after : List Char} (inside : Body inner ('*' :: '/' :: (body ++ after)))
    (more : Body body after) : Body ('/' :: '*' :: (inner ++ '*' :: '/' :: body)) after

/-- In front of `after`, the text is a comment in which comments nest. -/
def IsComment (comment after : List Char) : Prop :=
  ∃ body, comment = '/' :: '*' :: (body ++ ['*', '/']) ∧ Body body ('*' :: '/' :: after)

theorem nestedLength_char {c : Char} (hopens : ¬ ['/', '*'] <+: c :: cs)
    (hcloses : ¬ ['*', '/'] <+: c :: cs) :
    nestedLength depth n (c :: cs) = nestedLength depth (n + 1) cs := by
  rw [nestedLength]
  · rintro cs' rfl rfl
    exact hcloses ⟨cs', rfl⟩
  · rintro cs' rfl rfl
    exact hopens ⟨cs', rfl⟩

/-- A body leaves the level as it is. -/
theorem nestedLength_body (h : Body body after) (depth n : Nat) :
    nestedLength (depth + 1) n (body ++ after) =
      nestedLength (depth + 1) (n + body.length) after := by
  induction h generalizing depth n with
  | nil => rfl
  | @char c body after opens closes more ih =>
    rw [List.cons_append, nestedLength_char opens closes, ih, List.length_cons]
    congr 1
    omega
  | @comment inner body after inside more ihInside ihMore =>
    have htext : '/' :: '*' :: (inner ++ '*' :: '/' :: body) ++ after =
        '/' :: '*' :: (inner ++ '*' :: '/' :: (body ++ after)) := by simp
    rw [htext, nestedLength, ihInside, nestedLength, if_neg (by omega), Nat.add_sub_cancel, ihMore]
    congr 1
    simp only [List.length_cons, List.length_append]
    omega

/-- In front of `after`, the text closes `depth` levels, the innermost first: it is a body and a
closing mark for each of them. -/
def Levels : Nat → List Char → List Char → Prop
  | 0, cs, after => cs = after
  | depth + 1, cs, after => ∃ body rest, cs = body ++ '*' :: '/' :: rest ∧
    Body body ('*' :: '/' :: rest) ∧ Levels depth rest after

theorem Levels.char {c : Char} (h : Levels (depth + 1) cs after)
    (hopens : ¬ ['/', '*'] <+: c :: cs) (hcloses : ¬ ['*', '/'] <+: c :: cs) :
    Levels (depth + 1) (c :: cs) after := by
  obtain ⟨body, rest, rfl, hbody, hrest⟩ := h
  exact ⟨c :: body, rest, rfl, .char hopens hcloses hbody, hrest⟩

/-- A comment inside opens a level and closes it again. -/
theorem Levels.comment (h : Levels (depth + 2) cs after) :
    Levels (depth + 1) ('/' :: '*' :: cs) after := by
  obtain ⟨inner, rest, rfl, hinner, body, rest, rfl, hbody, hrest⟩ := h
  exact ⟨'/' :: '*' :: (inner ++ '*' :: '/' :: body), rest, by simp, .comment hinner hbody, hrest⟩

/-- A scan that ends has closed every level. -/
theorem levels_of_nestedLength (hdepth : 1 ≤ depth) (h : nestedLength depth n cs = some m) :
    ∃ after, Levels depth cs after ∧ m + after.length = n + cs.length := by
  fun_induction nestedLength depth n cs with
  | case1 => cases h
  | case2 depth n cs hlast =>
    cases h
    obtain rfl : depth = 1 := by omega
    exact ⟨cs, ⟨[], cs, rfl, .nil, rfl⟩, by simp only [List.length_cons]; omega⟩
  | case3 depth n cs hinner ih =>
    obtain ⟨after, hlevels, hlength⟩ := ih (by omega) h
    obtain ⟨depth, rfl⟩ : ∃ d, depth = d + 1 := ⟨depth - 1, by omega⟩
    exact ⟨after, ⟨[], cs, rfl, .nil, hlevels⟩, by simp only [List.length_cons]; omega⟩
  | case4 depth n cs ih =>
    obtain ⟨after, hlevels, hlength⟩ := ih (by omega) h
    obtain ⟨depth, rfl⟩ : ∃ d, depth = d + 1 := ⟨depth - 1, by omega⟩
    exact ⟨after, hlevels.comment, by simp only [List.length_cons]; omega⟩
  | case5 depth n c cs hcloses hopens ih =>
    obtain ⟨after, hlevels, hlength⟩ := ih hdepth h
    obtain ⟨depth, rfl⟩ : ∃ d, depth = d + 1 := ⟨depth - 1, by omega⟩
    refine ⟨after, hlevels.char ?_ ?_, by simp only [List.length_cons]; omega⟩
    · rintro ⟨rest, hrest⟩
      exact hopens rest (List.cons.inj hrest).1.symm (List.cons.inj hrest).2.symm
    · rintro ⟨rest, hrest⟩
      exact hcloses rest (List.cons.inj hrest).1.symm (List.cons.inj hrest).2.symm

/-- The outermost level is closed at the end of a body. -/
theorem nestedLength_one_eq_some_iff : nestedLength 1 n cs = some m ↔ ∃ body after,
    cs = body ++ '*' :: '/' :: after ∧ Body body ('*' :: '/' :: after) ∧
      m = n + body.length + 2 := by
  constructor
  · intro h
    obtain ⟨after, ⟨body, rest, rfl, hbody, rfl⟩, hlength⟩ :=
      levels_of_nestedLength (Nat.le_refl 1) h
    refine ⟨body, rest, rfl, hbody, ?_⟩
    simp only [List.length_append, List.length_cons] at hlength
    omega
  · rintro ⟨body, after, rfl, hbody, rfl⟩
    rw [nestedLength_body hbody, nestedLength, if_pos (Nat.le_refl 1)]

/-- Counting levels finds the comment that the text starts with, if there is one. -/
theorem blockLength_nested_eq_some_iff (hopens : ['/', '*'] <+: cs) :
    blockLength true cs = some m ↔
      ∃ comment after, cs = comment ++ after ∧ IsComment comment after ∧ m = comment.length := by
  obtain ⟨text, rfl⟩ := hopens
  have hscan : blockLength true (['/', '*'] ++ text) = nestedLength 1 2 text := rfl
  rw [hscan, nestedLength_one_eq_some_iff]
  constructor
  · rintro ⟨body, after, rfl, hbody, rfl⟩
    refine ⟨_, after, ?_, ⟨body, rfl, hbody⟩, ?_⟩
    · simp
    · simp only [List.length_cons, List.length_append, List.length_nil]
      omega
  · rintro ⟨_, after, htext, ⟨body, rfl, hbody⟩, rfl⟩
    refine ⟨body, after, by simpa using htext, hbody, ?_⟩
    simp only [List.length_cons, List.length_append, List.length_nil]
    omega

/-- A text starts with at most one comment. -/
theorem IsComment.unique {comment comment' after after' : List Char}
    (h : IsComment comment after) (h' : IsComment comment' after')
    (htext : comment ++ after = comment' ++ after') : comment = comment' := by
  have hopens : ['/', '*'] <+: comment ++ after := by
    obtain ⟨body, rfl, -⟩ := h
    exact ⟨body ++ ['*', '/'] ++ after, rfl⟩
  have hlength := (blockLength_nested_eq_some_iff hopens).mpr ⟨comment, after, rfl, h, rfl⟩
  rw [(blockLength_nested_eq_some_iff hopens).mpr ⟨comment', after', htext, h', rfl⟩,
    Option.some.injEq] at hlength
  exact (List.append_inj htext hlength.symm).1

/-! ## Comments that do not nest -/

/-- The first closing mark ends a comment. -/
theorem flatLength_eq_some_iff : flatLength n cs = some m ↔ ∃ body after,
    cs = body ++ '*' :: '/' :: after ∧ (∀ k < body.length, ¬ ['*', '/'] <+: cs.drop k) ∧
      m = n + body.length + 2 := by
  fun_induction flatLength n cs with
  | case1 => simp
  | case2 n cs =>
    constructor
    · intro h
      cases h
      exact ⟨[], cs, rfl, by simp, rfl⟩
    · rintro ⟨body, after, -, hfirst, rfl⟩
      cases body with
      | nil => rfl
      | cons c body => exact absurd ⟨cs, rfl⟩ (hfirst 0 (Nat.succ_pos _))
  | case3 n c cs hcloses ih =>
    rw [ih]
    constructor
    · rintro ⟨body, after, rfl, hfirst, rfl⟩
      refine ⟨c :: body, after, rfl, fun k hk => ?_, by rw [List.length_cons]; omega⟩
      cases k with
      | zero =>
        rintro ⟨rest, hrest⟩
        exact hcloses rest (List.cons.inj hrest).1.symm (List.cons.inj hrest).2.symm
      | succ k => exact hfirst k (by simpa using hk)
    · rintro ⟨body, after, htext, hfirst, rfl⟩
      cases body with
      | nil =>
        obtain ⟨rfl, rfl⟩ := List.cons.inj htext
        exact absurd rfl (hcloses after rfl)
      | cons d body =>
        obtain ⟨rfl, rfl⟩ := List.cons.inj htext
        refine ⟨body, after, rfl, fun k hk => ?_, by rw [List.length_cons]; omega⟩
        exact hfirst (k + 1) (by simpa using hk)

theorem blockLength_flat_eq_some_iff (hopens : ['/', '*'] <+: cs) :
    blockLength false cs = some m ↔ ∃ body after, cs = '/' :: '*' :: (body ++ '*' :: '/' :: after) ∧
      (∀ k < body.length, ¬ ['*', '/'] <+: cs.drop (2 + k)) ∧ m = body.length + 4 := by
  obtain ⟨text, rfl⟩ := hopens
  have hscan : blockLength false (['/', '*'] ++ text) = flatLength 2 text := rfl
  have hdrop (k : Nat) : (['/', '*'] ++ text).drop (2 + k) = text.drop k := by
    rw [← List.drop_drop]
    rfl
  rw [hscan, flatLength_eq_some_iff]
  simp only [hdrop]
  constructor
  · rintro ⟨body, after, rfl, hfirst, rfl⟩
    exact ⟨body, after, rfl, hfirst, by omega⟩
  · rintro ⟨body, after, htext, hfirst, rfl⟩
    exact ⟨body, after, by simpa using htext, hfirst, by omega⟩

end Lexeme

/-! ## Where a comment ends -/

open Lexeme

variable {before cs : List Char}

/-- The offset in the text `before ++ cs` at which the block comment at the start of `cs` ends, or
the error that it does not. -/
def blockEnd (nested : Bool) (before cs : List Char) : Except LexicalError Nat :=
  match blockLength nested cs with
  | some n => .ok (Text.byteSize (before ++ cs.take n))
  | none => .error ⟨Text.byteSize before, .blockComment⟩

theorem blockEnd_eq_ok_iff {nested : Bool} {stop : Nat} : blockEnd nested before cs = .ok stop ↔
    ∃ n, blockLength nested cs = some n ∧ stop = Text.byteSize (before ++ cs.take n) := by
  unfold blockEnd
  cases blockLength nested cs with
  | none => simp
  | some n => simp [eq_comm]

theorem blockEnd_eq_error_iff {nested : Bool} {e : LexicalError} :
    blockEnd nested before cs = .error e ↔
      blockLength nested cs = none ∧ e = ⟨Text.byteSize before, .blockComment⟩ := by
  unfold blockEnd
  cases blockLength nested cs with
  | none => simp [eq_comm]
  | some n => simp

theorem byteSize_take_comment (before body after : List Char) :
    Text.byteSize (before ++ ('/' :: '*' :: (body ++ '*' :: '/' :: after)).take (body.length + 4)) =
      Text.byteSize (before ++ '/' :: '*' :: body) + 2 := by
  have htake : ('/' :: '*' :: (body ++ '*' :: '/' :: after)).take (body.length + 4) =
      '/' :: '*' :: body ++ ['*', '/'] := by
    simp [List.take_append, List.take_of_length_le]
  rw [htake, ← List.append_assoc, Text.byteSize_append]
  rfl

/-- No comment up to the end of the line starts like a block comment. -/
theorem Language.not_opens_lineComment (language : Language) (text : List Char) :
    language.grammar.lineComments.any (·.isPrefixOf ('/' :: '*' :: text)) = false := by
  have hmarks : ∀ mark ∈ language.grammar.lineComments,
      ¬ mark <+: ['/', '*'] ∧ ¬ ['/', '*'] <+: mark := by
    cases language <;> decide
  rw [List.any_eq_false]
  intro mark hmark hopens
  have hblock : ['/', '*'] <+: '/' :: '*' :: text := ⟨text, rfl⟩
  rcases List.prefix_or_prefix_of_prefix (List.isPrefixOf_iff_prefix.mp hopens) hblock with h | h
  · exact (hmarks mark hmark).1 h
  · exact (hmarks mark hmark).2 h

/-- Where a language has block comments, one that starts the text is the next piece. -/
theorem Language.nextPiece_blockComment (language : Language) (ctx : Context) (text : List Char)
    (hblock : language.grammar.blockComments ≠ .absent) :
    (∀ n, blockLength (language.grammar.blockComments == .nested) ('/' :: '*' :: text) = some n →
        language.grammar.nextPiece ctx '/' ('*' :: text) = .ok (.token .comment, n)) ∧
      (blockLength (language.grammar.blockComments == .nested) ('/' :: '*' :: text) = none →
        language.grammar.nextPiece ctx '/' ('*' :: text) = .error .blockComment) := by
  have hplain : (Text.isBlank '/' || '/' == '\ufeff') = false := by decide
  have hopens : language.grammar.blockComments ≠ .absent ∧
      ['/', '*'].isPrefixOf ('/' :: '*' :: text) = true := ⟨hblock, rfl⟩
  unfold Grammar.nextPiece Grammar.nextToken
  rw [if_neg (by decide), hplain, if_neg (by decide), if_neg (by simp), if_neg (by simp),
    language.not_opens_lineComment, if_neg (by decide), if_pos hopens]
  constructor
  · intro n hn
    rw [hn]
    rfl
  · intro hnone
    rw [hnone]
    rfl

/-- The scanner of a language takes a block comment up to its end, and fails where it has none. -/
theorem Language.cutFrom_blockComment (language : Language) (ctx : Context) {done : List Piece}
    (hblock : language.grammar.blockComments ≠ .absent)
    (hdone : done.reverse.flatMap Piece.chars = before) (hopens : ['/', '*'] <+: cs) :
    (∀ stop, blockEnd (language.grammar.blockComments == .nested) before cs = .ok stop →
        ∃ comment after, cs = comment ++ after ∧ stop = Text.byteSize (before ++ comment) ∧
          cutFrom language.grammar ctx done cs = cutFrom language.grammar
            (ctx.after ⟨.token .comment, comment⟩) (⟨.token .comment, comment⟩ :: done) after) ∧
      ∀ e, blockEnd (language.grammar.blockComments == .nested) before cs = .error e →
        cutFrom language.grammar ctx done cs = .error e := by
  obtain ⟨text, htext⟩ := hopens
  obtain rfl : '/' :: '*' :: text = cs := htext
  obtain ⟨htaken, hfails⟩ := language.nextPiece_blockComment ctx text hblock
  constructor
  · intro stop hstop
    obtain ⟨n, hn, rfl⟩ := blockEnd_eq_ok_iff.mp hstop
    exact ⟨_, _, (List.take_append_drop n _).symm, rfl, cutFrom_of_ok (htaken n hn)⟩
  · intro e he
    obtain ⟨hnone, rfl⟩ := blockEnd_eq_error_iff.mp he
    exact cutFrom_of_error (hfails hnone) hdone

/-- **Block comments follow their grammar.** Where comments nest, the scan of a text that starts with
the opening mark ends after a part of it exactly when that part is a comment, of which there is at
most one, and fails at the opening mark exactly when no part is. Where they do not nest, it ends
after the first closing mark. The scanner of each language goes on, or fails, accordingly. -/
theorem blockEnd_follows_grammar (before : List Char) (hopens : ['/', '*'] <+: cs) :
    (∀ stop, blockEnd true before cs = .ok stop ↔ ∃ comment after, cs = comment ++ after ∧
        IsComment comment after ∧ stop = Text.byteSize (before ++ comment)) ∧
      (∀ comment after comment' after', cs = comment ++ after → IsComment comment after →
        cs = comment' ++ after' → IsComment comment' after' → comment = comment') ∧
      (blockEnd true before cs = .error ⟨Text.byteSize before, .blockComment⟩ ↔
        ∀ comment after, cs = comment ++ after → ¬ IsComment comment after) ∧
      (∀ stop, blockEnd false before cs = .ok stop ↔ ∃ body after,
        cs = '/' :: '*' :: (body ++ '*' :: '/' :: after) ∧
        (∀ k < body.length, ¬ ['*', '/'] <+: cs.drop (2 + k)) ∧
        stop = Text.byteSize (before ++ '/' :: '*' :: body) + 2) ∧
      ∀ (language : Language) (ctx : Context) (done : List Piece),
        language.grammar.blockComments ≠ .absent → done.reverse.flatMap Piece.chars = before →
        (∀ stop, blockEnd (language.grammar.blockComments == .nested) before cs = .ok stop →
          ∃ comment after, cs = comment ++ after ∧ stop = Text.byteSize (before ++ comment) ∧
            cutFrom language.grammar ctx done cs = cutFrom language.grammar
              (ctx.after ⟨.token .comment, comment⟩) (⟨.token .comment, comment⟩ :: done) after) ∧
        ∀ e, blockEnd (language.grammar.blockComments == .nested) before cs = .error e →
          cutFrom language.grammar ctx done cs = .error e := by
  have hnested {n : Nat} := blockLength_nested_eq_some_iff (m := n) hopens
  refine ⟨fun stop => ?_, ?_, ?_, fun stop => ?_, ?_⟩
  · rw [blockEnd_eq_ok_iff]
    constructor
    · rintro ⟨n, hn, rfl⟩
      obtain ⟨comment, after, rfl, hcomment, rfl⟩ := hnested.mp hn
      exact ⟨comment, after, rfl, hcomment, by rw [List.take_left' rfl]⟩
    · rintro ⟨comment, after, rfl, hcomment, rfl⟩
      exact ⟨_, hnested.mpr ⟨comment, after, rfl, hcomment, rfl⟩, by rw [List.take_left' rfl]⟩
  · intro comment after comment' after' htext hcomment htext' hcomment'
    exact hcomment.unique hcomment' (htext.symm.trans htext')
  · rw [blockEnd_eq_error_iff, and_iff_left rfl, Option.eq_none_iff_forall_ne_some]
    constructor
    · intro h comment after htext hcomment
      exact h _ (hnested.mpr ⟨comment, after, htext, hcomment, rfl⟩)
    · intro h n hn
      obtain ⟨comment, after, htext, hcomment, -⟩ := hnested.mp hn
      exact h comment after htext hcomment
  · rw [blockEnd_eq_ok_iff]
    constructor
    · rintro ⟨n, hn, rfl⟩
      obtain ⟨body, after, htext, hfirst, rfl⟩ := (blockLength_flat_eq_some_iff hopens).mp hn
      exact ⟨body, after, htext, hfirst, by rw [htext, byteSize_take_comment]⟩
    · rintro ⟨body, after, htext, hfirst, rfl⟩
      refine ⟨_, (blockLength_flat_eq_some_iff hopens).mpr ⟨body, after, htext, hfirst, rfl⟩, ?_⟩
      rw [htext, byteSize_take_comment]
  · intro language ctx done hblock hdone
    exact language.cutFrom_blockComment ctx hblock hdone hopens

/-- A comment with a comment in it. A slash follows the inner opening mark, and a star stands in front
of the last closing mark. -/
theorem blockEnd_nested : blockEnd true ['é'] "/* /*/ */ **/ x".toList = .ok 15 ∧
    ∃ comment after, "/* /*/ */ **/ x".toList = comment ++ after ∧ IsComment comment after ∧
      15 = Text.byteSize (['é'] ++ comment) := by
  have hend : blockEnd true ['é'] "/* /*/ */ **/ x".toList = .ok 15 := by decide +kernel
  exact ⟨hend, ((blockEnd_follows_grammar ['é'] (by decide)).1 15).mp hend⟩

end CloneDetection
