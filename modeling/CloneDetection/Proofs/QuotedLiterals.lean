import CloneDetection.Proofs.LineEndings

/-!
# The grammar of quoted literals

Between its marks, a literal is a sequence of items (`Lexeme.Items`): a backslash with the character
after it, where backslashes escape, or a character that closes neither the literal nor the line that
it has to end on. Reading an item leaves the scanner where it is in the grammar
(`Lexeme.quotedLength_items`), and a scan that ends has read items and the mark
(`Lexeme.exists_items_of_quotedLength`), so it finds the literal that the grammar describes.

A mark that is a backslash and escapes closes nothing (`Quote.Closing`). No language has one.

Where a literal in plain marks starts a text (`Grammar.plainQuote?`), nothing else is read there, in
any language, and the scanner goes on behind the literal or fails where it starts.
-/

namespace CloneDetection

/-- The mark can close a literal: it is not a backslash that takes the next character along. -/
def Quote.Closing (q : Quote) : Prop :=
  q.escapes = true → q.mark ≠ '\\'

instance (q : Quote) : Decidable q.Closing :=
  inferInstanceAs (Decidable (_ → _))

/-! ## Items and the closing mark -/

namespace Lexeme

variable {q : Quote} {cs body after : List Char} {m n : Nat}

/-- The text is a sequence of what may stand between two marks. -/
inductive Items (q : Quote) : List Char → Prop
  | nil : Items q []
  | escape {c : Char} {body : List Char} (escapes : q.escapes = true) (more : Items q body) :
    Items q ('\\' :: c :: body)
  | char {c : Char} {body : List Char} (mark : c ≠ q.mark)
    (backslash : q.escapes = true → c ≠ '\\') (line : c = '\n' → q.multiline = true)
    (more : Items q body) : Items q (c :: body)

theorem quotedLength_escape (h : q.escapes = true) (n : Nat) (c : Char) (cs : List Char) :
    quotedLength q n ('\\' :: c :: cs) = quotedLength q (n + 2) cs := by
  rw [quotedLength, if_pos (by simp [h])]

theorem quotedLength_mark (h : q.Closing) (n : Nat) (cs : List Char) :
    quotedLength q n (q.mark :: cs) = some (n + 1) := by
  rw [quotedLength_cons, if_pos rfl]
  simpa [Quote.Closing] using h

/-- Items are read one by one. -/
theorem quotedLength_items (h : Items q body) (n : Nat) (cs : List Char) :
    quotedLength q n (body ++ cs) = quotedLength q (n + body.length) cs := by
  induction h generalizing n with
  | nil => rfl
  | @escape c body escapes more ih =>
    rw [List.cons_append, List.cons_append, quotedLength_escape escapes, ih]
    congr 1
    simp only [List.length_cons]
    omega
  | @char c body mark backslash line more ih =>
    have hplain : ¬ (q.escapes && c == '\\') = true := by simpa using backslash
    have hline : ¬ (c == '\n' && !q.multiline) = true := by simpa using line
    rw [List.cons_append, quotedLength_cons hplain, if_neg mark, if_neg hline, ih]
    congr 1
    simp only [List.length_cons]
    omega

/-- A scan that ends has read items and the mark. -/
theorem exists_items_of_quotedLength (h : quotedLength q n cs = some m) : ∃ body after,
    cs = body ++ q.mark :: after ∧ Items q body ∧ q.Closing ∧ m = n + body.length + 1 := by
  fun_induction quotedLength q n cs with
  | case1 => cases h
  | case2 => cases h
  | case3 n c hescape d cs ih =>
    obtain ⟨hescapes, rfl⟩ : q.escapes = true ∧ c = '\\' := by simpa using hescape
    obtain ⟨body, after, rfl, hitems, hclosing, rfl⟩ := ih h
    refine ⟨'\\' :: d :: body, after, rfl, .escape hescapes hitems, hclosing, ?_⟩
    simp only [List.length_cons]
    omega
  | case4 n cs hescape =>
    cases h
    exact ⟨[], cs, rfl, .nil, by simpa [Quote.Closing] using hescape, rfl⟩
  | case5 => cases h
  | case6 n c cs hescape hmark hline ih =>
    obtain ⟨body, after, rfl, hitems, hclosing, rfl⟩ := ih h
    refine ⟨c :: body, after, rfl, .char hmark ?_ ?_ hitems, hclosing, ?_⟩
    · simpa using hescape
    · simpa using hline
    · simp only [List.length_cons]
      omega

theorem quotedLength_eq_some_iff : quotedLength q n cs = some m ↔ ∃ body after,
    cs = body ++ q.mark :: after ∧ Items q body ∧ q.Closing ∧ m = n + body.length + 1 := by
  refine ⟨exists_items_of_quotedLength, ?_⟩
  rintro ⟨body, after, rfl, hitems, hclosing, rfl⟩
  rw [quotedLength_items hitems, quotedLength_mark hclosing]

/-- Items in front of a mark can be told in one way only. -/
theorem Items.unique {body' after' : List Char} (h : Items q body) (h' : Items q body')
    (hclosing : q.Closing) (htext : body ++ q.mark :: after = body' ++ q.mark :: after') :
    body = body' := by
  have hlength := quotedLength_eq_some_iff.mpr
    ⟨body, after, rfl, h, hclosing, (rfl : _ = 0 + _ + 1)⟩
  rw [htext, quotedLength_items h', quotedLength_mark hclosing, Option.some.injEq] at hlength
  exact (List.append_inj htext (by omega)).1

end Lexeme

/-! ## Where a literal ends -/

open Lexeme

variable {q : Quote} {before opening cs : List Char}

/-- The offset in the text `before ++ opening ++ cs` at which the literal that starts with `opening`
ends, or the error that it does not. -/
def quotedEnd (q : Quote) (before opening cs : List Char) : Except LexicalError Nat :=
  match quotedLength q opening.length cs with
  | some n => .ok (Text.byteSize (before ++ (opening ++ cs).take n))
  | none => .error ⟨Text.byteSize before, .stringLiteral⟩

theorem quotedEnd_eq_ok_iff {stop : Nat} : quotedEnd q before opening cs = .ok stop ↔
    ∃ n, quotedLength q opening.length cs = some n ∧
      stop = Text.byteSize (before ++ (opening ++ cs).take n) := by
  unfold quotedEnd
  cases quotedLength q opening.length cs with
  | none => simp
  | some n => simp [eq_comm]

theorem quotedEnd_eq_error_iff {e : LexicalError} : quotedEnd q before opening cs = .error e ↔
    quotedLength q opening.length cs = none ∧ e = ⟨Text.byteSize before, .stringLiteral⟩ := by
  unfold quotedEnd
  cases quotedLength q opening.length cs with
  | none => simp [eq_comm]
  | some n => simp

theorem take_quoted (opening body after : List Char) (mark : Char) :
    (opening ++ (body ++ mark :: after)).take (opening.length + body.length + 1) =
      opening ++ (body ++ [mark]) := by
  have htext : opening ++ (body ++ mark :: after) = opening ++ (body ++ [mark]) ++ after := by simp
  rw [htext]
  refine List.take_left' ?_
  simp only [List.length_append, List.length_singleton]
  omega

/-- The scan of a literal ends behind items and the mark. -/
theorem quotedEnd_eq_ok_iff_items {stop : Nat} : quotedEnd q before opening cs = .ok stop ↔
    ∃ body after, cs = body ++ q.mark :: after ∧ Items q body ∧ q.Closing ∧
      stop = Text.byteSize (before ++ opening ++ body ++ [q.mark]) := by
  rw [quotedEnd_eq_ok_iff]
  constructor
  · rintro ⟨n, hn, rfl⟩
    obtain ⟨body, after, rfl, hitems, hclosing, rfl⟩ := quotedLength_eq_some_iff.mp hn
    refine ⟨body, after, rfl, hitems, hclosing, ?_⟩
    rw [take_quoted, List.append_assoc, List.append_assoc]
  · rintro ⟨body, after, rfl, hitems, hclosing, rfl⟩
    refine ⟨_, quotedLength_eq_some_iff.mpr ⟨body, after, rfl, hitems, hclosing, rfl⟩, ?_⟩
    rw [take_quoted, List.append_assoc, List.append_assoc]

/-! ## Literals in a text -/

namespace Grammar

variable {g : Grammar} {c : Char}

/-- The kind of the plain marks around the literal at the start of a text, if there is one: neither
three marks in a row nor a label. -/
def plainQuote? (g : Grammar) (cs : List Char) : Option Quote :=
  let letters := g.literalPrefixLength cs
  let body := cs.drop letters
  if (g.tripleMark? body).isSome then none
  else (g.quote? body).filter fun q =>
    !(g.lifetimes && q.mark == '\'' && letters == 0 && g.isLabel (body.drop 1))

theorem plainQuote?_eq_some_iff : g.plainQuote? cs = some q ↔
    g.tripleMark? (cs.drop (g.literalPrefixLength cs)) = none ∧
      g.quote? (cs.drop (g.literalPrefixLength cs)) = some q ∧
      (g.lifetimes && q.mark == '\'' && g.literalPrefixLength cs == 0 &&
        g.isLabel ((cs.drop (g.literalPrefixLength cs)).drop 1)) = false := by
  unfold plainQuote?
  dsimp only
  cases g.tripleMark? (cs.drop (g.literalPrefixLength cs)) with
  | none =>
    rw [Option.isSome_none, if_neg Bool.false_ne_true, Option.filter_eq_some_iff,
      Bool.not_eq_true', and_iff_right rfl]
  | some mark => simp

namespace Literate

theorem rawLiteral_eq_none (hg : g.Literate) (afterWord : Bool)
    (hquote : g.quote? (cs.drop (g.literalPrefixLength cs)) = some q) :
    g.rawLiteral afterWord cs = .ok none := by
  unfold rawLiteral
  split
  case isTrue hraw =>
    split
    case h_1 => rfl
    case h_2 opening hashes hopening =>
      obtain ⟨letters, hletters, rest, rfl, -⟩ := Lexeme.exists_of_rawOpening? hopening
      rw [Bool.and_eq_true] at hraw
      have hother : letters ∈ g.otherOpenings := by simp [otherOpenings, hraw.1, hletters]
      have hopens := hg.startsWithAnyCase_eq_false hother hquote
      rw [startsWithAnyCase_append] at hopens
      cases hopens
  case isFalse => rfl

theorem verbatimLiteral_eq_none (hg : g.Literate)
    (hquote : g.quote? (cs.drop (g.literalPrefixLength cs)) = some q) :
    g.verbatimLiteral cs = .ok none := by
  have hnone : g.verbatimPrefixes.findSome? (g.verbatimAfter cs) = none := by
    rw [List.findSome?_eq_none_iff]
    intro mark hmark
    unfold verbatimAfter
    rw [hg.startsWithAnyCase_eq_false (by simp [otherOpenings, hmark]) hquote]
    rfl
  rw [verbatimLiteral_eq, hnone]

/-- Where a literal in plain marks starts a text, its end is looked for. -/
theorem stringLiteral_of_plainQuote? (hg : g.Literate) (afterWord : Bool)
    (h : g.plainQuote? cs = some q) : g.stringLiteral afterWord cs =
      (quotedLength q (g.literalPrefixLength cs + 1) (cs.drop (g.literalPrefixLength cs + 1))).elim
        (.error .stringLiteral) fun n => .ok (some n) := by
  obtain ⟨htriple, hquote, hlabel⟩ := plainQuote?_eq_some_iff.mp h
  have hafter : g.quotedAfter (g.literalPrefixLength cs) cs = some (quotedLength q
      (g.literalPrefixLength cs + 1) (cs.drop (g.literalPrefixLength cs + 1))) := by
    simp only [quotedAfter, htriple, hquote, Option.bind_some]
    rw [hlabel, if_neg Bool.false_ne_true, List.drop_drop]
  simp only [stringLiteral, hg.rawLiteral_eq_none afterWord hquote,
    hg.verbatimLiteral_eq_none hquote, quotedLiteral_eq, hafter, bind, Except.bind]
  cases quotedLength q (g.literalPrefixLength cs + 1)
    (cs.drop (g.literalPrefixLength cs + 1)) <;> rfl

end Literate

theorem opensLiteral_of_plainQuote? (h : g.plainQuote? (c :: cs) = some q) : g.OpensLiteral c := by
  obtain ⟨-, hquote, -⟩ := plainQuote?_eq_some_iff.mp h
  obtain ⟨hq, hnext⟩ := quote?_eq_some hquote
  exact opensLiteral_of_literalPrefixLength (mem_closingMarks_of_quote hq) hnext

end Grammar

theorem Text.toLower_of_isBlank {c : Char} (h : isBlank c = true) : c.toLower = c := by
  unfold Char.toLower
  rw [dif_neg]
  rintro ⟨hlow, hhigh⟩
  have hlow := UInt32.le_iff_toNat_le.mp hlow
  have hhigh := UInt32.le_iff_toNat_le.mp hhigh
  obtain ⟨r, hr, hle, hge⟩ := Ranges.has_eq_true_iff.mp h
  have hcapitals : ∀ r ∈ blankRanges, r.2 < 65 ∨ 90 < r.1 := by decide
  have hapart := hcapitals r hr
  change 65 ≤ c.toNat at hlow
  change c.toNat ≤ 90 at hhigh
  omega

namespace Language

variable {c : Char}

/-- The characters of a list are looked at one by one, not all characters there are. -/
local instance decidableForallMemOpening (l : List Char) (p : Char → Prop) [DecidablePred p] :
    Decidable (∀ c ∈ l, p c) :=
  List.decidableBAll p l

/-- What starts a literal starts neither a stretch that is left out nor a comment. -/
theorem solid_of_opensLiteral (language : Language) (h : language.grammar.OpensLiteral c) :
    Text.isBlank c = false ∧ c ∉ ['\n', '\ufeff', '\\', '#', '/'] := by
  have hletters : ∀ letters ∈ language.grammar.stringPrefixes ++ language.grammar.verbatimPrefixes,
      ∀ d ∈ letters.take 1, d.toLower ∈ ['r', 'b', 'c', 'u', 'l', 'f', '$', '@'] := by
    cases language <;> decide
  have hlower : c.toLower ∈
      ['"', '\'', '\x60'] ++ ['r', 'b', 'c', 'u', 'l', 'f', '$', '@'] := by
    rcases h with hmark | hletter | ⟨letters, hmem, hhead⟩
    · have hmarks : ∀ d ∈ ['"', '\'', '\x60'], d.toLower = d := by decide
      have hc := language.unambiguous.marks c hmark
      exact List.mem_append_left _ ((hmarks c hc).symm ▸ hc)
    · have hsame : ∀ d ∈ ['r', 'b', 'c'], d.toLower ∈ ['r', 'b', 'c', 'u', 'l', 'f', '$', '@'] := by
        decide
      exact List.mem_append_right _ (hsame c hletter)
    · obtain ⟨letter, hfirst, hsame⟩ := Option.map_eq_some_iff.mp hhead
      obtain ⟨later, rfl⟩ := List.head?_eq_some_iff.mp hfirst
      exact List.mem_append_right _ (hsame ▸ hletters _ hmem letter List.mem_cons_self)
  have hsolid : ∀ d ∈ ['"', '\'', '\x60'] ++ ['r', 'b', 'c', 'u', 'l', 'f', '$', '@'],
      Text.isBlank d = false := by decide
  have hother : ∀ d ∈ ['\n', '\ufeff', '\\', '#', '/'],
      d.toLower ∉ ['"', '\'', '\x60'] ++ ['r', 'b', 'c', 'u', 'l', 'f', '$', '@'] := by decide
  refine ⟨?_, fun hmem => hother c hmem hlower⟩
  rw [Bool.eq_false_iff]
  intro hblank
  have hnot := hsolid c (Text.toLower_of_isBlank hblank ▸ hlower)
  rw [hblank] at hnot
  cases hnot

/-- Where a literal may start, the next piece is the literal, if there is one. -/
theorem nextPiece_literal (language : Language) (ctx : Context)
    (h : language.grammar.OpensLiteral c) (cs : List Char) :
    (∀ n, language.grammar.stringLiteral ctx.afterWord (c :: cs) = .ok (some n) →
        language.grammar.nextPiece ctx c cs = .ok (.token .string, n)) ∧
      ∀ cause, language.grammar.stringLiteral ctx.afterWord (c :: cs) = .error cause →
        language.grammar.nextPiece ctx c cs = .error cause := by
  obtain ⟨hblank, hother⟩ := language.solid_of_opensLiteral h
  simp only [List.mem_cons, List.not_mem_nil, or_false, not_or] at hother
  obtain ⟨hnewline, hmark, hbackslash, hsign, hslash⟩ := hother
  have hcomments : ∀ mark ∈ language.grammar.lineComments,
      mark.head? = some '#' ∨ mark.head? = some '/' := by
    cases language <;> decide
  have hline : language.grammar.lineComments.any (·.isPrefixOf (c :: cs)) = false := by
    rw [List.any_eq_false]
    intro mark hmark hopens
    obtain ⟨rest, hrest⟩ := List.isPrefixOf_iff_prefix.mp hopens
    rcases hcomments mark hmark with hfirst | hfirst
    all_goals
      obtain ⟨more, rfl⟩ := List.head?_eq_some_iff.mp hfirst
      obtain ⟨rfl, -⟩ := List.cons.inj hrest
      contradiction
  have hregex : language.grammar.regexLiteral? ctx.operandDue (c :: cs) = none := by
    rw [Option.eq_none_iff_forall_ne_some]
    intro n hn
    exact hslash (Grammar.regexLiteral?_eq_some hn).2.1
  have htoken : language.grammar.nextToken ctx c cs =
      (language.grammar.stringLiteral ctx.afterWord (c :: cs)).map fun literal? =>
        (literal?.map (TokenKind.string, ·)).getD (language.grammar.plainToken c cs) := by
    rw [Grammar.nextToken_eq, hline, if_neg (by decide), if_neg (by simp [Ne.symm hslash]), hregex]
  unfold Grammar.nextPiece
  rw [if_neg hnewline, if_neg (by simp [hblank, hmark]), if_neg (by simp [hbackslash]),
    if_neg (by simp [hsign]), htoken]
  constructor
  · intro n hn
    rw [hn]
    rfl
  · intro cause hcause
    rw [hcause]
    rfl

/-- Every mark of a language can close a literal. -/
theorem closing_of_mem_quotes (language : Language) : ∀ q ∈ language.grammar.quotes, q.Closing := by
  cases language <;> decide

/-- The scanner of a language takes a literal in plain marks up to its end, and fails where it has
none. -/
theorem cutFrom_quoted (language : Language) (ctx : Context) {done : List Piece}
    (hquote : language.grammar.plainQuote? (opening ++ cs) = some q)
    (hlength : opening.length = language.grammar.literalPrefixLength (opening ++ cs) + 1)
    (hdone : done.reverse.flatMap Piece.chars = before) :
    (∀ stop, quotedEnd q before opening cs = .ok stop →
        ∃ literal after, opening ++ cs = literal ++ after ∧
          stop = Text.byteSize (before ++ literal) ∧
          cutFrom language.grammar ctx done (opening ++ cs) = cutFrom language.grammar
            (ctx.after ⟨.token .string, literal⟩) (⟨.token .string, literal⟩ :: done) after) ∧
      ∀ e, quotedEnd q before opening cs = .error e →
        cutFrom language.grammar ctx done (opening ++ cs) = .error e := by
  have hliteral := language.literate.stringLiteral_of_plainQuote? ctx.afterWord hquote
  rw [← hlength, List.drop_left] at hliteral
  generalize htext : opening ++ cs = text at *
  cases text with
  | nil =>
    rw [List.append_eq_nil_iff] at htext
    rw [htext.1, List.length_nil] at hlength
    omega
  | cons c rest =>
    obtain ⟨htaken, hfails⟩ :=
      language.nextPiece_literal ctx (Grammar.opensLiteral_of_plainQuote? hquote) rest
    constructor
    · intro stop hstop
      obtain ⟨n, hn, rfl⟩ := quotedEnd_eq_ok_iff.mp hstop
      rw [hn] at hliteral
      rw [htext]
      exact ⟨_, _, (List.take_append_drop n _).symm, rfl, cutFrom_of_ok (htaken n hliteral)⟩
    · intro e he
      obtain ⟨hnone, rfl⟩ := quotedEnd_eq_error_iff.mp he
      rw [hnone] at hliteral
      exact cutFrom_of_error (hfails _ hliteral) hdone

end Language

/-- **Quoted literals follow their grammar.** The scan of a literal ends exactly behind items and a
mark that can close it, at a boundary of the text, and there is one such place at most. It fails at
the start of the literal exactly when there is none. In each language every mark can close a
literal, and the scanner goes on behind a literal in plain marks, or fails, accordingly. -/
theorem quotedEnd_follows_grammar (q : Quote) (before opening cs : List Char) :
    (∀ stop, quotedEnd q before opening cs = .ok stop ↔ ∃ body after,
        cs = body ++ q.mark :: after ∧ Items q body ∧ q.Closing ∧
          stop = Text.byteSize (before ++ opening ++ body ++ [q.mark])) ∧
      (∀ body after body' after', q.Closing → cs = body ++ q.mark :: after → Items q body →
        cs = body' ++ q.mark :: after' → Items q body' → body = body') ∧
      (∀ stop, quotedEnd q before opening cs = .ok stop →
        Text.Boundary (before ++ opening ++ cs) stop) ∧
      (∀ e, quotedEnd q before opening cs = .error e ↔
        e = ⟨Text.byteSize before, .stringLiteral⟩ ∧
          ∀ body after, q.Closing → cs = body ++ q.mark :: after → ¬ Items q body) ∧
      ∀ (language : Language), (q ∈ language.grammar.quotes → q.Closing) ∧
        ∀ (ctx : Context) (done : List Piece),
          language.grammar.plainQuote? (opening ++ cs) = some q →
          opening.length = language.grammar.literalPrefixLength (opening ++ cs) + 1 →
          done.reverse.flatMap Piece.chars = before →
          (∀ stop, quotedEnd q before opening cs = .ok stop →
            ∃ literal after, opening ++ cs = literal ++ after ∧
              stop = Text.byteSize (before ++ literal) ∧
              cutFrom language.grammar ctx done (opening ++ cs) = cutFrom language.grammar
                (ctx.after ⟨.token .string, literal⟩) (⟨.token .string, literal⟩ :: done) after) ∧
          ∀ e, quotedEnd q before opening cs = .error e →
            cutFrom language.grammar ctx done (opening ++ cs) = .error e := by
  refine ⟨fun stop => quotedEnd_eq_ok_iff_items, ?_, ?_, ?_, ?_⟩
  · intro body after body' after' hclosing htext hitems htext' hitems'
    exact hitems.unique hitems' hclosing (htext.symm.trans htext')
  · intro stop hstop
    obtain ⟨body, after, rfl, -, -, rfl⟩ := quotedEnd_eq_ok_iff_items.mp hstop
    exact ⟨_, after, by simp, rfl⟩
  · intro e
    rw [quotedEnd_eq_error_iff, and_comm, Option.eq_none_iff_forall_ne_some]
    refine and_congr_right fun _ => ⟨?_, ?_⟩
    · intro h body after hclosing htext hitems
      exact h _ (quotedLength_eq_some_iff.mpr ⟨body, after, htext, hitems, hclosing, rfl⟩)
    · intro h n hn
      obtain ⟨body, after, htext, hitems, hclosing, -⟩ := quotedLength_eq_some_iff.mp hn
      exact h body after hclosing htext hitems
  · intro language
    exact ⟨language.closing_of_mem_quotes q, fun ctx done hquote hlength hdone =>
      language.cutFrom_quoted ctx hquote hlength hdone⟩

/-- An escaped mark and a character of two bytes belong to a literal, and a newline does not. -/
theorem quotedEnd_escaped :
    quotedEnd ⟨'"', false, true⟩ ['é'] "u8\"".toList "a\\\"é\" x".toList = .ok 11 ∧
      (∃ body after, "a\\\"é\" x".toList = body ++ '"' :: after ∧ Items ⟨'"', false, true⟩ body ∧
        Quote.Closing ⟨'"', false, true⟩ ∧
        11 = Text.byteSize (['é'] ++ "u8\"".toList ++ body ++ ['"'])) ∧
      quotedEnd ⟨'"', false, true⟩ ['é'] ['"'] "a\n\"".toList = .error ⟨2, .stringLiteral⟩ := by
  have hend : quotedEnd ⟨'"', false, true⟩ ['é'] "u8\"".toList "a\\\"é\" x".toList = .ok 11 := by
    decide +kernel
  exact ⟨hend, ((quotedEnd_follows_grammar _ _ _ _).1 11).mp hend, by decide +kernel⟩

/-- A backslash that escapes is no mark that can close a literal: between two of them stands the
empty sequence of items, but the scan takes the second one for the start of an item. -/
theorem not_quotedEnd_iff_backslash : ¬ ∀ (q : Quote) (before opening cs : List Char) (stop : Nat),
    quotedEnd q before opening cs = .ok stop ↔ ∃ body after,
      cs = body ++ q.mark :: after ∧ Items q body ∧
        stop = Text.byteSize (before ++ opening ++ body ++ [q.mark]) := by
  intro h
  have herror : quotedEnd ⟨'\\', false, true⟩ [] ['\\'] ['\\'] = .error ⟨0, .stringLiteral⟩ := by
    decide +kernel
  have hend := (h ⟨'\\', false, true⟩ [] ['\\'] ['\\'] 2).mpr ⟨[], [], rfl, .nil, by decide⟩
  rw [herror] at hend
  cases hend

end CloneDetection
