import CloneDetection.Proofs.LiteralLines
import CloneDetection.Proofs.Tiling

/-!
# Line endings

A text with carriage returns in front of its newlines has the same tokens as without them. One step
of the scanner takes the same characters (`tokenTexts_withReturns_cons`), and so does a whole run
(`tokenTexts_withReturns`), unless some literal escapes the end of its line. Then the run ends
there. As blanks in comments are collapsed and literals are not told apart, the texts that are
compared are the same too (`tokenize_toCrlf`).
-/

namespace CloneDetection

open Text

namespace Grammar

variable {g : Grammar} {ctx : Context} {c : Char} {cs : List Char} {kind : TokenKind} {role : Role}
  {n : Nat}

/-! ## One token -/

/-- What is read where neither a comment nor a literal starts, the kind and the length. -/
def plainToken (g : Grammar) (c : Char) (cs : List Char) : TokenKind × Nat :=
  if opensNumber c cs then (.number, Lexeme.numberLength (c :: cs))
  else if g.startsName c then
    (g.nameKind ((c :: cs).take (g.nameLength (c :: cs))), g.nameLength (c :: cs))
  else if isPunctuation c then (.punctuation, operatorLength (c :: cs))
  else (.unknown, 1)

theorem plainToken_kind (g : Grammar) (c : Char) (cs : List Char) :
    (g.plainToken c cs).1 ≠ .string ∧ (g.plainToken c cs).1 ≠ .comment := by
  unfold plainToken nameKind
  split_ifs <;> simp

theorem nextToken_eq (g : Grammar) (ctx : Context) (c : Char) (cs : List Char) :
    g.nextToken ctx c cs =
      if g.lineComments.any (·.isPrefixOf (c :: cs)) then
        .ok (.comment, Lexeme.lineLength (c :: cs))
      else if g.blockComments ≠ .absent ∧ ['/', '*'].isPrefixOf (c :: cs) then
        match Lexeme.blockLength (g.blockComments == .nested) (c :: cs) with
        | some n => .ok (.comment, n)
        | none => .error .blockComment
      else
        match g.regexLiteral? ctx.operandDue (c :: cs) with
        | some n => .ok (.string, n)
        | none => (g.stringLiteral ctx.afterWord (c :: cs)).map fun literal? =>
          (literal?.map (TokenKind.string, ·)).getD (g.plainToken c cs) := by
  unfold nextToken
  split
  · rfl
  split
  · rfl
  cases g.regexLiteral? ctx.operandDue (c :: cs) with
  | some n => rfl
  | none =>
    rcases g.stringLiteral ctx.afterWord (c :: cs) with _ | _ | n
    · rfl
    · simp only [bind, Except.bind, pure, Except.pure, Except.map, Option.map, Option.getD,
        plainToken, nameKind]
      rw [← opensNumber]
      split_ifs <;> rfl
    · rfl

/-- A token that is neither a comment nor a literal stands on one line. -/
theorem Reads.onLine (h : g.Reads ctx c cs kind n) (hc : c ≠ '\n') (hstring : kind ≠ .string)
    (hcomment : kind ≠ .comment) : OnLine (c :: cs) n := by
  cases h with
  | lineComment => exact absurd rfl hcomment
  | blockComment => exact absurd rfl hcomment
  | pattern => exact absurd rfl hstring
  | literal => exact absurd rfl hstring
  | number => exact Lexeme.onLine_numberLength (c :: cs)
  | name => exact .takeWhile g.continuesName_lineEnd.1 (c :: cs)
  | punctuation =>
    have hline : ∀ operator ∈ operators, '\n' ∉ operator := by decide
    rcases operatorLength_cases c cs with hone | ⟨operator, hmem, hstarts, hlength⟩
    · rw [hone]
      exact .first hc cs
    · rw [hlength]
      exact .of_mark hstarts (hline operator hmem)
  | unknown => exact .first hc cs

theorem operatorLength_withReturns (cs : List Char) :
    operatorLength (withReturns cs) = operatorLength cs := by
  have hsolid : ∀ operator ∈ operators, '\n' ∉ operator ∧ '\r' ∉ operator := by decide
  unfold operatorLength
  congr 2
  refine List.find?_congr fun operator hmem => ?_
  exact isPrefixOf_withReturns (hsolid operator hmem).1 (hsolid operator hmem).2 cs

theorem plainToken_withReturns (g : Grammar) (hc : c ≠ '\n') (cs : List Char) :
    g.plainToken c (withReturns cs) = g.plainToken c cs := by
  have hnumber := Lexeme.numberLength_withReturns (c :: cs)
  have hname := g.nameLength_withReturns (c :: cs)
  have hoperator := operatorLength_withReturns (c :: cs)
  have htake : (withReturns (c :: cs)).take (g.nameLength (c :: cs)) =
      (c :: cs).take (g.nameLength (c :: cs)) := by
    have hline : OnLine (c :: cs) (g.nameLength (c :: cs)) :=
      .takeWhile g.continuesName_lineEnd.1 (c :: cs)
    have hsame := take_place (c :: cs) (g.nameLength (c :: cs))
    rwa [hline.place_eq, withReturns_of_not_mem hline.newline] at hsame
  rw [withReturns_cons hc] at hnumber hname hoperator htake
  unfold plainToken opensNumber
  rw [Lexeme.startsWithDigit_withReturns, hnumber, hname, hoperator, htake]

theorem regexLiteral?_withReturns (hc : c ≠ '\n') (operandDue : Bool) :
    g.regexLiteral? operandDue (c :: withReturns cs) =
      (g.regexLiteral? operandDue (c :: cs)).map (place (c :: cs)) := by
  unfold regexLiteral?
  split
  case isTrue =>
    by_cases hslash : c = '/'
    · subst hslash
      exact Lexeme.SameStop.scan_drop (Lexeme.regexLength_withReturns false) (.first hc cs)
    · simp [hslash]
  case isFalse => rfl

namespace Literate

theorem opensLineComment_withReturns (hg : g.Literate) (cs : List Char) :
    g.lineComments.any (·.isPrefixOf (withReturns cs)) =
      g.lineComments.any (·.isPrefixOf cs) := by
  have hsolid {mark : List Char} (hmark : mark ∈ g.lineComments) : '\n' ∉ mark ∧ '\r' ∉ mark :=
    ⟨fun h => absurd ((hg.comments mark hmark).2 _ h) (by decide),
      fun h => absurd ((hg.comments mark hmark).2 _ h) (by decide)⟩
  rw [Bool.eq_iff_iff, List.any_eq_true, List.any_eq_true]
  refine exists_congr fun mark => and_congr_right fun hmark => ?_
  rw [isPrefixOf_withReturns (hsolid hmark).1 (hsolid hmark).2]

/-- **A token is read in the same way with carriage returns**, unless it is a literal that escapes
the end of its line. -/
theorem nextToken_withReturns (hg : g.Literate) (hc : c ≠ '\n')
    (h : g.nextToken ctx c cs = .ok (kind, n)) : g.nextToken ctx c (withReturns cs) =
      if kind = .string ∧ g.escapesLineEnd ((c :: cs).take n) then .error .stringLiteral
      else .ok (kind, place (c :: cs) n) := by
  have hreturns := withReturns_cons hc cs
  have hread := reads_of_nextToken h
  have hline := hg.opensLineComment_withReturns (c :: cs)
  have hblock : ['/', '*'].isPrefixOf (withReturns (c :: cs)) = ['/', '*'].isPrefixOf (c :: cs) :=
    isPrefixOf_withReturns (by decide) (by decide) (c :: cs)
  rw [hreturns] at hline hblock
  rw [nextToken_eq] at h ⊢
  rw [hline, hblock]
  split at h
  case isTrue hopens =>
    cases h
    rw [if_pos hopens, if_neg (by simp), ← hreturns, Lexeme.lineLength_withReturns,
      (Lexeme.onLine_lineLength (c :: cs)).place_eq]
  case isFalse hopens =>
  rw [if_neg hopens]
  split at h
  case isTrue hblocks =>
    rw [if_pos hblocks]
    have hstop := (Lexeme.blockLength_withReturns (g.blockComments == .nested)
      (List.isPrefixOf_iff_prefix.mp hblocks.2)).eq_map_place (k := 0) ⟨Nat.zero_le _, by simp⟩
    split at h
    case h_1 m hm =>
      cases h
      rw [← hreturns, hstop, hm, if_neg (by simp)]
      rfl
    case h_2 => cases h
  case isFalse hblocks =>
  rw [if_neg hblocks, regexLiteral?_withReturns hc]
  split at h
  case h_1 m hm =>
    cases h
    obtain ⟨-, rfl, hlength⟩ := regexLiteral?_eq_some hm
    have hpos : 1 ≤ n := by
      obtain ⟨flags, -, body, rest, -, rfl⟩ := Lexeme.regexLength_closes hlength
      omega
    have hslash : startsWithAnyCase ['/'] ('/' :: cs) = true := rfl
    have hends := hg.endsOnLine_eq_false List.mem_cons_self (startsWithAnyCase_take hslash hpos)
    rw [hm, if_neg (by simp [escapesLineEnd, hends])]
    rfl
  case h_2 hm =>
    rw [hm, Option.map_none]
    dsimp only
    cases hliteral : g.stringLiteral ctx.afterWord (c :: cs) with
    | error cause =>
      rw [hliteral] at h
      cases h
    | ok literal? =>
      rw [hliteral] at h
      rw [← hreturns, hg.stringLiteral_withReturns hliteral, plainToken_withReturns g hc]
      cases literal? with
      | some m =>
        cases h
        cases hescapes : g.escapesLineEnd ((c :: cs).take n) <;> simp [Except.map, hescapes]
      | none =>
        have hplain : g.plainToken c cs = (kind, n) := Except.ok.inj h
        have hkind := g.plainToken_kind c cs
        rw [hplain] at hkind
        rw [if_neg (by simp), if_neg (by simp [hkind.1]),
          (hread.onLine hc hkind.1 hkind.2).place_eq, ← hplain]
        rfl

end Literate

/-! ## One piece -/

/-- Only comments and literals go over lines. -/
theorem newline_not_mem_of_nextPiece (h : g.nextPiece ctx c cs = .ok (.token kind, n))
    (hstring : kind ≠ .string) (hcomment : kind ≠ .comment) : '\n' ∉ c :: cs.take (n - 1) := by
  have htakes := takes_of_nextPiece h
  obtain ⟨n, rfl⟩ := Nat.exists_eq_add_of_le' htakes.bounds.1
  cases htakes with
  | token solid reads =>
    refine (reads.onLine ?_ hstring hcomment).newline
    rintro rfl
    exact absurd solid.1 (by decide)

theorem startsWithLineEnd_withReturns (h : '\r' ∉ cs) :
    startsWithLineEnd (withReturns cs) = startsWithLineEnd cs := by
  cases cs with
  | nil => rfl
  | cons c cs =>
    by_cases hc : c = '\n'
    · subst hc
      rfl
    · have hreturn : c ≠ '\r' := fun hmem => h (hmem ▸ List.mem_cons_self)
      rw [withReturns_cons hc, Bool.eq_iff_iff, startsWithLineEnd_iff, startsWithLineEnd_iff]
      simp [Ne.symm hc, Ne.symm hreturn]

/-- A directive is found in both texts. -/
theorem nextPiece_directive (hcs : '\r' ∉ cs) (h : g.nextPiece ctx c cs = .ok (.directive, n)) :
    c = '#' ∧ n = Lexeme.directiveLength 0 (c :: cs) ∧
      g.nextPiece ctx c (withReturns cs) =
        .ok (.directive, Lexeme.directiveLength 0 (c :: withReturns cs)) := by
  unfold nextPiece at h ⊢
  rw [startsWithLineEnd_withReturns hcs]
  split at h
  · cases h
  case isFalse hnewline =>
  split at h
  · cases h
  case isFalse hblank =>
  split at h
  · cases h
  case isFalse hsplice =>
  split at h
  case isTrue hsign =>
    cases h
    rw [if_neg hnewline, if_neg hblank, if_neg hsplice, if_pos hsign]
    exact ⟨by simp_all, rfl, rfl⟩
  case isFalse =>
    simp only [bind, Except.bind, pure, Except.pure] at h
    split at h <;> cases h

/-- **A piece is cut in the same way with carriage returns**, unless it is a newline, a directive or
a literal that escapes the end of its line. -/
theorem Literate.nextPiece_withReturns (hg : g.Literate) (hc : c ≠ '\n') (hcs : '\r' ∉ cs)
    (h : g.nextPiece ctx c cs = .ok (role, n)) (hrole : role ≠ .directive) :
    g.nextPiece ctx c (withReturns cs) =
      if role = .token .string ∧ g.escapesLineEnd ((c :: cs).take n) then .error .stringLiteral
      else .ok (role, place (c :: cs) n) := by
  have hfirst : place (c :: cs) 1 = 1 := (OnLine.first hc cs).place_eq
  unfold nextPiece at h ⊢
  rw [startsWithLineEnd_withReturns hcs]
  rw [if_neg hc] at h ⊢
  split at h
  case isTrue hblank =>
    cases h
    rw [if_pos hblank, if_neg (by simp), hfirst]
  case isFalse hblank =>
  split at h
  case isTrue hsplice =>
    cases h
    rw [if_neg hblank, if_pos hsplice, if_neg (by simp), hfirst]
  case isFalse hsplice =>
  split at h
  case isTrue hsign =>
    cases h
    exact absurd rfl hrole
  case isFalse hsign =>
  rw [if_neg hblank, if_neg hsplice, if_neg hsign]
  simp only [bind, Except.bind, pure, Except.pure] at h ⊢
  split at h
  case h_1 => cases h
  case h_2 token htoken =>
    cases h
    rw [hg.nextToken_withReturns hc htoken]
    by_cases hescapes : token.1 = .string ∧ g.escapesLineEnd ((c :: cs).take token.2) = true
    · simp [hescapes]
    · simp [hescapes]

end Grammar

/-! ## All pieces -/

/-- The kind and the text of the token that a piece is, if it is one. -/
def Piece.tokens (piece : Piece) : List (TokenKind × List Char) :=
  match piece.role with
  | .token kind => [(kind, piece.chars)]
  | _ => []

/-- The kinds and texts of the tokens of a text, with what came before it. -/
def tokenTexts (g : Grammar) (ctx : Context) (cs : List Char) :
    Except Unterminated (List (TokenKind × List Char)) :=
  match cs with
  | [] => .ok []
  | c :: cs =>
    match g.nextPiece ctx c cs with
    | .error cause => .error cause
    | .ok (role, n) =>
      let piece : Piece := ⟨role, c :: cs.take (n - 1)⟩
      (tokenTexts g (ctx.after piece) (cs.drop (n - 1))).map (piece.tokens ++ ·)
termination_by cs.length
decreasing_by
  simp only [List.length_drop, List.length_cons]
  omega

theorem tokenTexts_cons {g : Grammar} {ctx : Context} {c : Char} {cs : List Char} {role : Role}
    {n : Nat} (h : g.nextPiece ctx c cs = .ok (role, n)) : tokenTexts g ctx (c :: cs) =
      (tokenTexts g (ctx.after ⟨role, c :: cs.take (n - 1)⟩) (cs.drop (n - 1))).map
        (Piece.tokens ⟨role, c :: cs.take (n - 1)⟩ ++ ·) := by
  rw [tokenTexts, h]

theorem tokenTexts_error {g : Grammar} {ctx : Context} {c : Char} {cs : List Char}
    {cause : Unterminated} (h : g.nextPiece ctx c cs = .error cause) :
    tokenTexts g ctx (c :: cs) = .error cause := by
  rw [tokenTexts, h]

theorem map_nil_append {ε α : Type} (x : Except ε (List α)) : x.map ([] ++ ·) = x := by
  cases x <;> rfl

theorem tokenTexts_of_cutFrom (g : Grammar) (ctx : Context) (done : List Piece) (cs : List Char) :
    ((cutFrom g ctx done cs).map (·.flatMap Piece.tokens)).mapError (·.cause) =
      (tokenTexts g ctx cs).map (done.reverse.flatMap Piece.tokens ++ ·) := by
  fun_induction cutFrom g ctx done cs with
  | case1 ctx done => simp [tokenTexts, Except.map, Except.mapError]
  | case2 ctx done c cs cause hnext =>
    rw [tokenTexts_error hnext]
    rfl
  | case3 ctx done c cs role n hnext piece ih =>
    rw [ih, tokenTexts_cons hnext]
    cases tokenTexts g (ctx.after piece) (cs.drop (n - 1)) with
    | error cause => rfl
    | ok later => simp [Except.map, piece]

theorem map_lexemesFrom (offset : Nat) (pieces : List Piece) :
    (lexemesFrom offset [] pieces).map (fun l => (l.kind, l.chars)) =
      pieces.flatMap Piece.tokens := by
  induction pieces generalizing offset with
  | nil => rfl
  | cons piece pieces ih =>
    obtain ⟨role, chars⟩ := piece
    cases role with
    | token kind =>
      rw [lexemesFrom_token, List.map_cons, ih]
      rfl
    | _ => exact ih _

/-- The tokens of a text are the lexemes, without their places. -/
theorem tokenTexts_of_lex (g : Grammar) (cs : List Char) : tokenTexts g {} cs =
    ((lex g cs).map (·.map fun l => (l.kind, l.chars))).mapError (·.cause) := by
  have hnone : tokenTexts g {} cs = (tokenTexts g {} cs).map
      (([] : List Piece).reverse.flatMap Piece.tokens ++ ·) := (map_nil_append _).symm
  rw [hnone, ← tokenTexts_of_cutFrom, lex, cut]
  cases cutFrom g {} [] cs with
  | error e => rfl
  | ok pieces => simp [Except.map, Except.mapError, map_lexemesFrom]

/-! ## A whole text -/

section Run

variable {g : Grammar} {ctx : Context} {c : Char} {cs chars : List Char} {role : Role} {n : Nat}

/-- What is remembered does not depend on carriage returns in a piece. -/
theorem Context.after_withReturns
    (h : ∀ kind, role = .token kind → kind ≠ .string → kind ≠ .comment → '\n' ∉ chars) :
    ctx.after ⟨role, withReturns chars⟩ = ctx.after ⟨role, chars⟩ := by
  unfold Context.after
  rw [getLast?_withReturns]
  cases role with
  | token kind =>
    by_cases hkind : kind ≠ .string ∧ kind ≠ .comment
    · rw [withReturns_of_not_mem (h kind rfl hkind.1 hkind.2)]
    · cases kind <;> simp_all [operandDueAfter]
  | _ => rfl

/-- The token with carriage returns in front of its newlines. -/
def tokenWithReturns (token : TokenKind × List Char) : TokenKind × List Char :=
  (token.1, withReturns token.2)

theorem Piece.tokens_withReturns (role : Role) (chars : List Char) :
    Piece.tokens ⟨role, withReturns chars⟩ =
      (Piece.tokens ⟨role, chars⟩).map tokenWithReturns := by
  cases role <;> rfl

theorem Context.after_newline (ctx : Context) :
    ctx.after ⟨.lineEnd, ['\n']⟩ = ⟨true, ctx.operandDue, false⟩ := by
  have hword : Text.isAlphanumeric '\n' = false := by decide +kernel
  simp [Context.after, hword]

/-- At a newline only what the last token leaves open is remembered. -/
theorem tokenTexts_newline (g : Grammar) (ctx : Context) (cs : List Char) :
    tokenTexts g ctx ('\n' :: cs) = tokenTexts g ⟨true, ctx.operandDue, false⟩ cs := by
  have hnext : g.nextPiece ctx '\n' cs = .ok (.lineEnd, 1) := rfl
  rw [tokenTexts_cons hnext]
  simp only [Nat.sub_self, List.take_zero, List.drop_zero, Context.after_newline]
  exact map_nil_append _

theorem tokenTexts_withReturns_newline (g : Grammar) (ctx : Context) (cs : List Char) :
    tokenTexts g ctx (withReturns ('\n' :: cs)) =
      tokenTexts g ⟨true, ctx.operandDue, false⟩ (withReturns cs) := by
  have hnext : g.nextPiece ctx '\r' ('\n' :: withReturns cs) = .ok (.blank, 1) := rfl
  have hdue : (ctx.after ⟨.blank, ['\r']⟩).operandDue = ctx.operandDue := rfl
  rw [withReturns_newline, tokenTexts_cons hnext]
  simp only [Nat.sub_self, List.take_zero, List.drop_zero]
  rw [tokenTexts_newline, hdue]
  exact map_nil_append _

/-- A directive takes its carriage return along, which makes no difference at the newline. -/
theorem tokenTexts_withReturns_directive (hcs : '\r' ∉ c :: cs)
    (h : g.nextPiece ctx c cs = .ok (.directive, n)) : tokenTexts g ctx (withReturns (c :: cs)) =
      tokenTexts g (ctx.after ⟨.directive, c :: cs.take (n - 1)⟩)
        (withReturns (cs.drop (n - 1))) := by
  obtain ⟨rfl, rfl, hnext⟩ := Grammar.nextPiece_directive (fun hmem => hcs (.tail _ hmem)) h
  obtain ⟨taken, rest, hsplit, hlength, hrest⟩ := Lexeme.directiveLength_withReturns hcs 0 0
  have hpos := (Lexeme.directiveLength_sign_bounds cs).1
  rw [Nat.zero_add] at hlength
  rw [hlength] at hpos ⊢
  -- the sign belongs to the directive, so the rest of the text is cut at the same place
  obtain ⟨sign, taken, rfl⟩ := List.exists_cons_of_length_pos hpos
  rw [List.cons_append, List.cons.injEq] at hsplit
  obtain ⟨rfl, rfl⟩ := hsplit
  have hsign := withReturns_cons (c := '#') (by decide)
  rw [hsign] at hrest
  rw [hsign, tokenTexts_cons hnext]
  rcases hrest with ⟨rfl, hreturns⟩ | ⟨more, rfl, hreturns⟩
  · rw [hreturns, hsign]
    simp [tokenTexts, Piece.tokens, Except.map]
  · rw [hreturns, hsign, withReturns_append, withReturns_newline]
    simp only [List.length_cons, Nat.add_sub_cancel, Nat.zero_add, List.drop_left,
      ← List.drop_drop, List.drop_one, List.tail_cons, tokenTexts_newline,
      tokenTexts_withReturns_newline]
    exact map_nil_append _

/-- Whether a token is a literal that escapes the end of its line. -/
def Grammar.breaks (g : Grammar) (token : TokenKind × List Char) : Bool :=
  token.1 == .string && g.escapesLineEnd token.2

/-- **One step with carriage returns** takes what the step without them takes, or it fails. -/
theorem tokenTexts_withReturns_cons (hg : g.Literate) (hcs : '\r' ∉ c :: cs)
    (h : g.nextPiece ctx c cs = .ok (role, n)) : tokenTexts g ctx (withReturns (c :: cs)) =
      if (Piece.tokens ⟨role, c :: cs.take (n - 1)⟩).any g.breaks then .error .stringLiteral
      else
        (tokenTexts g (ctx.after ⟨role, c :: cs.take (n - 1)⟩) (withReturns (cs.drop (n - 1)))).map
          ((Piece.tokens ⟨role, c :: cs.take (n - 1)⟩).map tokenWithReturns ++ ·) := by
  -- a newline becomes two pieces and a directive a longer one; every other piece keeps its place
  by_cases hc : c = '\n'
  · subst hc
    cases h
    rw [tokenTexts_withReturns_newline, if_neg (by simp [Piece.tokens]), List.take_zero,
      Context.after_newline]
    exact (map_nil_append _).symm
  by_cases hrole : role = .directive
  · subst hrole
    rw [tokenTexts_withReturns_directive hcs h, if_neg (by simp [Piece.tokens])]
    exact (map_nil_append _).symm
  have hnext := hg.nextPiece_withReturns hc (fun hmem => hcs (.tail _ hmem)) h hrole
  have hline (kind : TokenKind) (hkind : role = .token kind) :=
    Grammar.newline_not_mem_of_nextPiece (hkind ▸ h)
  obtain ⟨n, rfl⟩ := Nat.exists_eq_add_of_le' (Grammar.takes_of_nextPiece h).bounds.1
  rw [Nat.add_sub_cancel] at hline ⊢
  rw [List.take_succ_cons, place_succ_cons hc] at hnext
  rw [withReturns_cons hc]
  by_cases hbreaks : role = .token .string ∧ g.escapesLineEnd (c :: cs.take n) = true
  · rw [if_pos hbreaks] at hnext
    obtain ⟨rfl, hescapes⟩ := hbreaks
    rw [tokenTexts_error hnext, if_pos (by simp [Piece.tokens, Grammar.breaks, hescapes])]
  · rw [if_neg hbreaks] at hnext
    rw [tokenTexts_cons hnext, Nat.add_sub_cancel, take_place, drop_place, ← withReturns_cons hc,
      Context.after_withReturns hline, Piece.tokens_withReturns, if_neg]
    cases role with
    | token kind => simpa [Piece.tokens, Grammar.breaks] using hbreaks
    | _ => simp [Piece.tokens]

/-- **A text has the same tokens with carriage returns**, or a literal escapes the end of its
line. -/
theorem tokenTexts_withReturns (hg : g.Literate) (hcs : '\r' ∉ cs)
    {tokens : List (TokenKind × List Char)} (h : tokenTexts g ctx cs = .ok tokens) :
    tokenTexts g ctx (withReturns cs) =
      if tokens.any g.breaks then .error .stringLiteral
      else .ok (tokens.map tokenWithReturns) := by
  fun_induction tokenTexts g ctx cs generalizing tokens with
  | case1 ctx =>
    cases h
    simp [tokenTexts]
  | case2 => cases h
  | case3 ctx c cs role n hnext piece ih =>
    cases hlater : tokenTexts g (ctx.after piece) (cs.drop (n - 1)) with
    | error cause =>
      rw [hlater] at h
      cases h
    | ok later =>
      rw [hlater] at h
      cases h
      have hrest := ih (fun hmem => hcs (.tail _ (List.mem_of_mem_drop hmem))) hlater
      rw [tokenTexts_withReturns_cons hg hcs hnext, hrest, List.any_append, List.map_append]
      generalize piece.tokens = first
      cases first.any g.breaks <;> cases later.any g.breaks <;> rfl

theorem newline_not_mem_of_tokenTexts {tokens : List (TokenKind × List Char)}
    (h : tokenTexts g ctx cs = .ok tokens) :
    ∀ t ∈ tokens, t.1 ≠ .string → t.1 ≠ .comment → '\n' ∉ t.2 := by
  fun_induction tokenTexts g ctx cs generalizing tokens with
  | case1 =>
    cases h
    simp
  | case2 => cases h
  | case3 ctx c cs role n hnext piece =>
    rename_i ih
    cases hlater : tokenTexts g (ctx.after piece) (cs.drop (n - 1)) with
    | error cause =>
      rw [hlater] at h
      cases h
    | ok later =>
      rw [hlater] at h
      cases h
      rw [List.forall_mem_append]
      refine ⟨?_, ih hlater⟩
      cases role with
      | token kind =>
        intro t ht
        cases List.mem_singleton.mp ht
        exact Grammar.newline_not_mem_of_nextPiece hnext
      | _ => simp [piece, Piece.tokens]

end Run

/-! ## The texts that are compared -/

namespace Text

theorem words_of_blank {cs : List Char} (h : cs.dropWhile isBlank = []) : words cs = [] := by
  rw [words]
  split
  · rfl
  case h_2 hcons =>
    rw [h] at hcons
    cases hcons

theorem words_of_solid {c : Char} {cs rest : List Char} (h : cs.dropWhile isBlank = c :: rest) :
    words cs = (c :: rest.takeWhile fun d => !isBlank d) ::
      words (rest.dropWhile fun d => !isBlank d) := by
  rw [words]
  split
  case h_1 hnil =>
    rw [h] at hnil
    cases hnil
  case h_2 hcons =>
    rw [h] at hcons
    cases hcons
    rfl

theorem words_withReturns (cs : List Char) : words (withReturns cs) = words cs := by
  have hdrop (cs : List Char) : (withReturns cs).dropWhile isBlank =
      withReturns (cs.dropWhile isBlank) := dropWhile_withReturns (by decide) cs
  fun_induction words cs with
  | case1 cs hnil => rw [words_of_blank (by rw [hdrop, hnil, withReturns_nil])]
  | case2 cs c rest hcons ih =>
    have hsolid : c ≠ '\n' := by
      rintro rfl
      have hhead := List.head?_dropWhile_not isBlank cs
      rw [hcons] at hhead
      exact absurd (id hhead : isBlank '\n' = false) (by decide)
    rw [words_of_solid (by rw [hdrop, hcons, withReturns_cons hsolid]),
      takeWhile_withReturns (by decide) (by decide), dropWhile_withReturns (by decide), ih]

theorem collapse_withReturns (cs : List Char) : collapse (withReturns cs) = collapse cs := by
  rw [collapse, collapse, words_withReturns]

end Text

namespace Grammar

/-- The kinds and texts that are compared of some tokens. -/
def compared (g : Grammar) (options : TokenizeOptions) (tokens : List (TokenKind × List Char)) :
    List (TokenKind × String) :=
  (tokens.filter fun t => g.keeps options ⟨t.1, t.2, 0⟩).map fun t =>
    (t.1, g.normalizedText options.normalization t.1 t.2)

theorem map_tokensOf (g : Grammar) (options : TokenizeOptions) (lexemes : List Lexeme) :
    ((g.tokensOf options lexemes).map fun t => (t.kind, t.text)).toList =
      g.compared options (lexemes.map fun l => (l.kind, l.chars)) := by
  simp only [tokensOf, compared, List.map_toArray, List.map_map, List.filter_map]
  rfl

/-- Where literals are not told apart, neither are the line ends. -/
theorem normalizedText_withReturns (g : Grammar) {kind : TokenKind} {chars : List Char}
    (h : kind ≠ .string → kind ≠ .comment → '\n' ∉ chars) :
    g.normalizedText .full kind (withReturns chars) = g.normalizedText .full kind chars := by
  cases kind with
  | string => rfl
  | comment => rw [normalizedText, normalizedText, Text.collapse_withReturns]
  | _ => rw [withReturns_of_not_mem (h (by decide) (by decide))]

theorem keeps_withReturns (g : Grammar) {kind : TokenKind} {chars : List Char}
    (h : kind ≠ .string → kind ≠ .comment → '\n' ∉ chars) (options : TokenizeOptions) :
    g.keeps options ⟨kind, withReturns chars, 0⟩ = g.keeps options ⟨kind, chars, 0⟩ := by
  cases kind with
  | string => rfl
  | comment => rfl
  | _ => rw [withReturns_of_not_mem (h (by decide) (by decide))]

theorem compared_withReturns (g : Grammar) (comments noise : Bool)
    {tokens : List (TokenKind × List Char)}
    (h : ∀ t ∈ tokens, t.1 ≠ .string → t.1 ≠ .comment → '\n' ∉ t.2) :
    g.compared ⟨.full, comments, noise⟩ (tokens.map tokenWithReturns) =
      g.compared ⟨.full, comments, noise⟩ tokens := by
  induction tokens with
  | nil => rfl
  | cons t tokens ih =>
    rw [List.forall_mem_cons] at h
    have hlater := ih h.2
    unfold compared at hlater ⊢
    rw [List.map_cons, List.filter_cons, List.filter_cons, tokenWithReturns,
      g.keeps_withReturns h.1]
    split
    · rw [List.map_cons, List.map_cons, hlater, g.normalizedText_withReturns h.1]
    · exact hlater

end Grammar

/-! ## Token streams -/

/-- The text with a carriage return in front of every newline. -/
def Text.toCrlf (text : String) : String :=
  String.ofList (withReturns text.toList)

theorem Text.decode_toUTF8 (text : String) : decode text.toUTF8 = .ok text := by
  have hvalid : text.toUTF8.IsValidUTF8 := text.isValidUTF8
  unfold decode String.fromUTF8?
  rw [dif_pos hvalid]
  rfl

section Tokenize

variable {tag : String} {language : Language} {text : String} {options : TokenizeOptions}

theorem tokenize_of_lex (htag : Language.ofTag? tag = some language) {lexemes : List Lexeme}
    (h : lex language.grammar text.toList = .ok lexemes) :
    tokenize text.toUTF8 tag options = .ok (language.grammar.tokensOf options lexemes) := by
  simp only [tokenize, htag, Language.tokenize, Text.decode_toUTF8, h]

theorem tokenize_of_lex_error (htag : Language.ofTag? tag = some language) {e : LexicalError}
    (h : lex language.grammar text.toList = .error e) : tokenize text.toUTF8 tag options =
      .error (.malformedSource e.offset e.cause.message) := by
  simp only [tokenize, htag, Language.tokenize, Text.decode_toUTF8, h]

/-- Whether some literal of a text has to end on its line and goes on after a newline, which a
backslash escapes. -/
def Language.escapesLineEnd (language : Language) (text : String) : Bool :=
  (lex language.grammar text.toList).toOption.any fun lexemes =>
    lexemes.any fun l => language.grammar.breaks (l.kind, l.chars)

theorem Language.escapesLineEnd_of_lex (language : Language) {lexemes : List Lexeme}
    (h : lex language.grammar text.toList = .ok lexemes) : language.escapesLineEnd text =
      (lexemes.map fun l => (l.kind, l.chars)).any language.grammar.breaks := by
  rw [Language.escapesLineEnd, h, List.any_map]
  rfl

theorem tokenTexts_eq_ok {g : Grammar} {cs : List Char} {lexemes : List Lexeme}
    (h : lex g cs = .ok lexemes) :
    tokenTexts g {} cs = .ok (lexemes.map fun l => (l.kind, l.chars)) := by
  rw [tokenTexts_of_lex, h]
  rfl

theorem tokenTexts_eq_error {g : Grammar} {cs : List Char} {e : LexicalError}
    (h : lex g cs = .error e) : tokenTexts g {} cs = .error e.cause := by
  rw [tokenTexts_of_lex, h]
  rfl

/-- **Line ends make no difference to what is compared**, as long as no literal escapes the end of
its line. Such a literal does not end if a carriage return stands in front of the newline. -/
theorem tokenize_toCrlf (htag : Language.ofTag? tag = some language)
    (hreturns : '\r' ∉ text.toList) {comments noise : Bool} {tokens : TokenStream}
    (h : tokenize text.toUTF8 tag ⟨.full, comments, noise⟩ = .ok tokens) :
    if language.escapesLineEnd text then
      ∃ offset, tokenize (Text.toCrlf text).toUTF8 tag ⟨.full, comments, noise⟩ =
        .error (.malformedSource offset "unterminated string literal")
    else
      ∃ tokens', tokenize (Text.toCrlf text).toUTF8 tag ⟨.full, comments, noise⟩ = .ok tokens' ∧
        tokens'.map (fun t => (t.kind, t.text)) = tokens.map fun t => (t.kind, t.text) := by
  have hcrlf : (Text.toCrlf text).toList = withReturns text.toList := String.toList_ofList
  cases hlex : lex language.grammar text.toList with
  | error e =>
    rw [tokenize_of_lex_error htag hlex] at h
    cases h
  | ok lexemes =>
    rw [tokenize_of_lex htag hlex] at h
    cases h
    have htexts := tokenTexts_eq_ok hlex
    have hescapes := language.escapesLineEnd_of_lex hlex
    have hrun := tokenTexts_withReturns language.literate hreturns htexts
    rw [← hescapes, ← hcrlf] at hrun
    cases hlex' : lex language.grammar (Text.toCrlf text).toList with
    | error e =>
      rw [tokenTexts_eq_error hlex'] at hrun
      split at hrun
      case isTrue hyes =>
        rw [if_pos hyes, tokenize_of_lex_error htag hlex', Except.error.inj hrun]
        exact ⟨e.offset, rfl⟩
      case isFalse => cases hrun
    | ok lexemes' =>
      rw [tokenTexts_eq_ok hlex'] at hrun
      split at hrun
      case isTrue => cases hrun
      case isFalse hno =>
        rw [if_neg hno]
        refine ⟨_, tokenize_of_lex htag hlex', Array.toList_inj.mp ?_⟩
        rw [Grammar.map_tokensOf, Grammar.map_tokensOf, Except.ok.inj hrun,
          Grammar.compared_withReturns _ _ _ (newline_not_mem_of_tokenTexts htexts)]

end Tokenize

/-- A directive, a comment and an escaped line end outside literals, each over two lines. -/
def directiveAndComment : String :=
  "#define A \\\n 1\n/* a\n b */ \"s\" \\\n x;\n"

/-- Over lines go a directive, a comment and a statement; the kinds and texts are the same. -/
theorem tokenize_toCrlf_directiveAndComment :
    tokenize directiveAndComment.toUTF8 "c" ⟨.full, true, true⟩ =
      .ok #[⟨.comment, "/* a b */", 15, 25⟩, ⟨.string, "$str", 26, 29⟩,
        ⟨.identifier, "$id", 33, 34⟩] ∧
    ∃ tokens, tokenize (Text.toCrlf directiveAndComment).toUTF8 "c" ⟨.full, true, true⟩ =
      .ok tokens ∧ tokens.map (fun t => (t.kind, t.text)) =
        #[(.comment, "/* a b */"), (.string, "$str"), (.identifier, "$id")] := by
  have htag : Language.ofTag? "c" = some .c := by decide +kernel
  have hlex : lex Language.c.grammar directiveAndComment.toList =
      .ok [⟨.comment, "/* a\n b */".toList, 15⟩, ⟨.string, "\"s\"".toList, 26⟩,
        ⟨.identifier, ['x'], 33⟩, ⟨.punctuation, [';'], 34⟩] := by
    decide +kernel
  have htokens : tokenize directiveAndComment.toUTF8 "c" ⟨.full, true, true⟩ =
      .ok #[⟨.comment, "/* a b */", 15, 25⟩, ⟨.string, "$str", 26, 29⟩,
        ⟨.identifier, "$id", 33, 34⟩] := by
    rw [tokenize_of_lex htag hlex]
    decide +kernel
  have hcrlf := tokenize_toCrlf htag (by decide +kernel) htokens
  rw [if_neg (by decide +kernel)] at hcrlf
  obtain ⟨tokens, hok, hsame⟩ := hcrlf
  exact ⟨htokens, tokens, hok, by simpa using hsame⟩

/-- **An escaped line end breaks a literal** once it is two characters. -/
theorem tokenize_toCrlf_escaped :
    tokenize "\"a\\\nb\"".toUTF8 "c" ⟨.full, false, false⟩ = .ok #[⟨.string, "$str", 0, 6⟩] ∧
      tokenize (Text.toCrlf "\"a\\\nb\"").toUTF8 "c" ⟨.full, false, false⟩ =
        .error (.malformedSource 0 "unterminated string literal") := by
  have htag : Language.ofTag? "c" = some .c := by decide +kernel
  have hlex : lex Language.c.grammar "\"a\\\nb\"".toList =
      .ok [⟨.string, "\"a\\\nb\"".toList, 0⟩] := by
    decide +kernel
  have hlex' : lex Language.c.grammar (Text.toCrlf "\"a\\\nb\"").toList =
      .error ⟨0, .stringLiteral⟩ := by
    decide +kernel
  rw [tokenize_of_lex htag hlex, tokenize_of_lex_error htag hlex']
  decide +kernel

end CloneDetection
