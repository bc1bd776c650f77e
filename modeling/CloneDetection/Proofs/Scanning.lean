import CloneDetection.Lexeme.Piece
import CloneDetection.Proofs.LexemeLengths

/-!
# What the scanner takes

`Grammar.Reads` lists what can be read at the start of a text and what is known there, and
`Grammar.Takes` does so for pieces. Whatever is taken is at least one character and at most the
whole text (`Grammar.Takes.bounds`). So cutting a text never has to help the scanner along: each
piece is exactly as long as the scanner says at its place (`scan_of_cut`).
-/

namespace CloneDetection

/-! ## What stands at the start of a text -/

namespace Grammar

variable {g : Grammar} {ctx : Context} {c : Char} {cs : List Char} {kind : TokenKind} {role : Role}
  {n : Nat}

/-- The marks that close a literal, or start the mark that does. -/
def closingMarks (g : Grammar) : List Char :=
  '"' :: (g.tripleQuotes ++ g.quotes.map (·.mark))

/-- Whether a literal can start with `c`: a mark, or the first letter of what may stand in front of
one. -/
def OpensLiteral (g : Grammar) (c : Char) : Prop :=
  c ∈ g.closingMarks ∨ c ∈ ['r', 'b', 'c'] ∨
    ∃ letters ∈ g.stringPrefixes ++ g.verbatimPrefixes,
      letters.head?.map Char.toLower = some c.toLower

/-- The text `c :: cs` starts with a literal of `n` characters. -/
def HasLiteral (g : Grammar) (c : Char) (cs : List Char) (n : Nat) : Prop :=
  g.OpensLiteral c ∧ ∃ opening close hashes, 1 ≤ opening ∧ close ∈ g.closingMarks ∧
    Lexeme.Closes (close :: List.replicate hashes '#') ((c :: cs).drop opening) opening n

theorem head?_eq_of_startsWithAnyCase {letters : List Char} (hne : letters ≠ [])
    (h : startsWithAnyCase letters (c :: cs) = true) :
    letters.head?.map Char.toLower = some c.toLower := by
  obtain ⟨l, ls, rfl⟩ := List.exists_cons_of_ne_nil hne
  rw [startsWithAnyCase, beq_iff_eq] at h
  simp only [List.length_cons, List.take_succ_cons, List.map_cons, List.cons.injEq] at h
  simp [h.1]

theorem rawOpening?_eq_some {opening hashes : Nat}
    (h : Lexeme.rawOpening? (c :: cs) = some (opening, hashes)) :
    c ∈ ['r', 'b', 'c'] ∧ 1 ≤ opening := by
  unfold Lexeme.rawOpening? at h
  rw [Option.bind_eq_some_iff] at h
  obtain ⟨⟨letters, rest⟩, hletters, hopening⟩ := h
  dsimp only at hopening
  split at hopening
  · cases hopening
    refine ⟨?_, by omega⟩
    split at hletters <;> simp_all
  · cases hopening

theorem hasLiteral_of_rawLiteral {afterWord : Bool}
    (h : g.rawLiteral afterWord (c :: cs) = .ok (some n)) : g.HasLiteral c cs n := by
  rw [rawLiteral] at h
  split at h
  · split at h
    · cases h
    case h_2 opening hashes hopening =>
      obtain ⟨hletter, hpos⟩ := rawOpening?_eq_some hopening
      split at h
      · cases h
      case h_2 m hm =>
        cases h
        exact ⟨.inr (.inl hletter), opening, '"', _, hpos, List.mem_cons_self,
          Lexeme.rawLength_closes hm⟩
  · cases h

theorem mem_closingMarks_of_tripleMark? {mark : Char} (h : g.tripleMark? cs = some mark) :
    mark ∈ g.closingMarks :=
  List.mem_cons_of_mem _ (List.mem_append_left _ (List.mem_of_find?_eq_some h))

theorem mem_closingMarks_of_quote {q : Quote} (h : q ∈ g.quotes) : q.mark ∈ g.closingMarks :=
  List.mem_cons_of_mem _ (List.mem_append_right _ (List.mem_map_of_mem h))

/-- The letters in front of a mark, or the mark itself if there are none, start the literal. -/
theorem opensLiteral_of_startsWithAnyCase {letters : List Char} {mark : Char}
    (hletters : letters ∈ g.stringPrefixes ++ g.verbatimPrefixes)
    (h : startsWithAnyCase letters (c :: cs) = true) (hmark : mark ∈ g.closingMarks)
    (hnext : ((c :: cs).drop letters.length).head? = some mark) : g.OpensLiteral c := by
  cases letters with
  | nil =>
    cases hnext
    exact .inl hmark
  | cons letter more => exact .inr (.inr ⟨_, hletters, head?_eq_of_startsWithAnyCase nofun h⟩)

theorem head?_eq_of_tripleMark? {mark : Char} (h : g.tripleMark? cs = some mark) :
    cs.head? = some mark := by
  have hmarks := List.find?_some h
  obtain ⟨rest, rfl⟩ := List.isPrefixOf_iff_prefix.mp hmarks
  rfl

theorem hasLiteral_of_verbatimLiteral (h : g.verbatimLiteral (c :: cs) = .ok (some n)) :
    g.HasLiteral c cs n := by
  unfold verbatimLiteral at h
  dsimp only at h
  split at h
  · cases h
  · cases h
  case h_3 m hopening =>
    cases h
    obtain ⟨letters, hletters, hfound⟩ := List.exists_of_findSome?_eq_some hopening
    have hmem := List.mem_append_right g.stringPrefixes hletters
    split at hfound
    case isTrue hstarts =>
      split at hfound
      case h_1 mark hmark =>
        have hclose := mem_closingMarks_of_tripleMark? hmark
        refine ⟨opensLiteral_of_startsWithAnyCase hmem hstarts hclose
          (head?_eq_of_tripleMark? hmark), letters.length + 3, mark, 0, by omega, hclose, ?_⟩
        rw [← List.drop_drop]
        exact Lexeme.tripleLength_closes (Option.some.inj hfound)
      case h_2 =>
        split at hfound
        case isTrue hquote =>
          refine ⟨opensLiteral_of_startsWithAnyCase hmem hstarts List.mem_cons_self hquote,
            letters.length + 1, '"', 0, by omega, List.mem_cons_self, ?_⟩
          rw [← List.drop_drop]
          exact Lexeme.verbatimLength_closes (Option.some.inj hfound)
        case isFalse => cases hfound
    case isFalse => cases hfound

/-- Where letters stand in front of a mark, they are among those the grammar allows. -/
theorem literalPrefixLength_cases (g : Grammar) (cs : List Char) :
    g.literalPrefixLength cs = 0 ∨
      ∃ letters ∈ g.stringPrefixes, startsWithAnyCase letters cs = true ∧
        g.literalPrefixLength cs = letters.length := by
  unfold literalPrefixLength
  dsimp only
  cases hfind : g.stringPrefixes.find? _ with
  | none => exact .inl rfl
  | some letters =>
    have hfound := List.find?_some hfind
    rw [Bool.and_eq_true] at hfound
    exact .inr ⟨letters, List.mem_of_find?_eq_some hfind, hfound.1, rfl⟩

theorem opensLiteral_of_literalPrefixLength {mark : Char} (hmark : mark ∈ g.closingMarks)
    (hnext : ((c :: cs).drop (g.literalPrefixLength (c :: cs))).head? = some mark) :
    g.OpensLiteral c := by
  rcases g.literalPrefixLength_cases (c :: cs) with hzero | ⟨letters, hletters, hstarts, hlength⟩
  · rw [hzero] at hnext
    cases hnext
    exact .inl hmark
  · rw [hlength] at hnext
    exact opensLiteral_of_startsWithAnyCase (List.mem_append_left _ hletters) hstarts hmark hnext

theorem hasLiteral_of_quotedLiteral (h : g.quotedLiteral (c :: cs) = .ok (some n)) :
    g.HasLiteral c cs n := by
  unfold quotedLiteral at h
  dsimp only at h
  split at h
  · cases h
  · cases h
  case h_3 m hlength =>
    cases h
    split at hlength
    case h_1 mark hmark =>
      have hclose := mem_closingMarks_of_tripleMark? hmark
      refine ⟨opensLiteral_of_literalPrefixLength hclose (head?_eq_of_tripleMark? hmark),
        g.literalPrefixLength (c :: cs) + 3, mark, 0, by omega, hclose, ?_⟩
      rw [← List.drop_drop]
      exact Lexeme.tripleLength_closes (Option.some.inj hlength)
    case h_2 =>
      split at hlength
      case h_1 => cases hlength
      case h_2 d rest hbody =>
        split at hlength
        · cases hlength
        case h_2 q hq =>
          have hclose := mem_closingMarks_of_quote (List.mem_of_find?_eq_some hq)
          have hmark : q.mark = d := by simpa using List.find?_some hq
          split at hlength
          · cases hlength
          · refine ⟨opensLiteral_of_literalPrefixLength hclose (by rw [hbody, hmark]; rfl),
              g.literalPrefixLength (c :: cs) + 1, q.mark, 0, by omega, hclose, ?_⟩
            rw [← List.drop_drop, hbody]
            exact Lexeme.quotedLength_closes (Option.some.inj hlength)

theorem hasLiteral_of_stringLiteral {afterWord : Bool}
    (h : g.stringLiteral afterWord (c :: cs) = .ok (some n)) : g.HasLiteral c cs n := by
  simp only [stringLiteral, bind, Except.bind, pure, Except.pure] at h
  split at h
  case h_1 => cases h
  case h_2 raw hraw =>
    cases raw with
    | some m =>
      cases h
      exact hasLiteral_of_rawLiteral hraw
    | none =>
      dsimp only at h
      split at h
      case h_1 => cases h
      case h_2 verbatim hverbatim =>
        cases verbatim with
        | some m =>
          cases h
          exact hasLiteral_of_verbatimLiteral hverbatim
        | none => exact hasLiteral_of_quotedLiteral h

/-- Whether a comment mark starts the text. -/
def opensComment (g : Grammar) (cs : List Char) : Bool :=
  g.lineComments.any (·.isPrefixOf cs) ||
    (g.blockComments != .absent && ['/', '*'].isPrefixOf cs)

/-- Whether a number starts the text. -/
def opensNumber (c : Char) (cs : List Char) : Bool :=
  c.isDigit || c == '.' && Lexeme.startsWithDigit cs

/-- The kind of a name. -/
def nameKind (g : Grammar) (name : List Char) : TokenKind :=
  if g.isKeyword (String.ofList name) then .keyword else .identifier

/-- What can be read at the start of the text `c :: cs`, the kind and the number of characters. -/
inductive Reads (g : Grammar) (ctx : Context) (c : Char) (cs : List Char) :
    TokenKind → Nat → Prop
  | lineComment {mark : List Char} (listed : mark ∈ g.lineComments) (opens : mark <+: c :: cs) :
    Reads g ctx c cs .comment (Lexeme.lineLength (c :: cs))
  | blockComment {n : Nat} (allowed : g.blockComments ≠ .absent) (opens : ['/', '*'] <+: c :: cs)
    (closes : Lexeme.Closes ['*', '/'] ((c :: cs).drop 2) 2 n) : Reads g ctx c cs .comment n
  | pattern {n : Nat} {flags : List Char} (opens : g.opensComment (c :: cs) = false)
    (due : g.regexLiterals = true ∧ ctx.operandDue = true) (slash : c = '/')
    (letters : ∀ d ∈ flags, d.isAlpha = true) (closes : Lexeme.Closes ('/' :: flags) cs 1 n) :
    Reads g ctx c cs .string n
  | literal {n : Nat} (opens : g.opensComment (c :: cs) = false) (literal : g.HasLiteral c cs n) :
    Reads g ctx c cs .string n
  | number (opens : g.opensComment (c :: cs) = false) (number : opensNumber c cs = true) :
    Reads g ctx c cs .number (Lexeme.numberLength (c :: cs))
  | name {kind : TokenKind} (opens : g.opensComment (c :: cs) = false)
    (number : opensNumber c cs = false) (starts : g.startsName c = true)
    (kind_eq : kind = g.nameKind ((c :: cs).take (g.nameLength (c :: cs)))) :
    Reads g ctx c cs kind (g.nameLength (c :: cs))
  | punctuation (opens : g.opensComment (c :: cs) = false) (number : opensNumber c cs = false)
    (starts : g.startsName c = false) (mark : isPunctuation c = true) :
    Reads g ctx c cs .punctuation (operatorLength (c :: cs))
  | unknown (opens : g.opensComment (c :: cs) = false) (number : opensNumber c cs = false)
    (starts : g.startsName c = false) (mark : isPunctuation c = false) :
    Reads g ctx c cs .unknown 1

theorem regexLiteral?_eq_some {operandDue : Bool}
    (h : g.regexLiteral? operandDue (c :: cs) = some n) :
    (g.regexLiterals = true ∧ operandDue = true) ∧ c = '/' ∧
      Lexeme.regexLength false 1 cs = some n := by
  unfold regexLiteral? at h
  split at h
  case isTrue hdue =>
    rw [Bool.and_eq_true] at hdue
    split at h
    case h_1 rest hslash =>
      cases hslash
      exact ⟨hdue, rfl, h⟩
    case h_2 => cases h
  case isFalse => cases h

theorem reads_of_nextToken (h : g.nextToken ctx c cs = .ok (kind, n)) :
    g.Reads ctx c cs kind n := by
  unfold nextToken at h
  split at h
  case isTrue hline =>
    cases h
    obtain ⟨mark, hmark, hopens⟩ := List.any_eq_true.mp hline
    exact .lineComment hmark (List.isPrefixOf_iff_prefix.mp hopens)
  case isFalse hline =>
  split at h
  case isTrue hblock =>
    split at h
    case h_1 m hm =>
      cases h
      exact .blockComment hblock.1 (List.isPrefixOf_iff_prefix.mp hblock.2)
        (Lexeme.blockLength_closes hm)
    case h_2 => cases h
  case isFalse hblock =>
  have hopens : g.opensComment (c :: cs) = false := by
    rw [opensComment, Bool.eq_false_iff.mpr hline, Bool.false_or, Bool.eq_false_iff]
    simpa only [ne_eq, Bool.and_eq_true, bne_iff_ne] using hblock
  split at h
  case h_1 m hm =>
    cases h
    obtain ⟨hdue, hslash, hlength⟩ := regexLiteral?_eq_some hm
    obtain ⟨flags, hletters, hcloses⟩ := Lexeme.regexLength_closes hlength
    exact .pattern hopens hdue hslash hletters hcloses
  case h_2 =>
  simp only [bind, Except.bind, pure, Except.pure] at h
  split at h
  case h_1 => cases h
  case h_2 literal hliteral =>
  cases literal with
  | some m =>
    cases h
    exact .literal hopens (hasLiteral_of_stringLiteral hliteral)
  | none =>
    dsimp only at h
    rw [← opensNumber] at h
    cases hnumber : opensNumber c cs with
    | true =>
      rw [hnumber, if_pos rfl] at h
      cases h
      exact .number hopens hnumber
    | false =>
      rw [hnumber, if_neg nofun] at h
      cases hstarts : g.startsName c with
      | true =>
        have hkind : kind = g.nameKind ((c :: cs).take (g.nameLength (c :: cs))) ∧
            n = g.nameLength (c :: cs) := by
          rw [hstarts, if_pos rfl] at h
          unfold nameKind
          split at h <;> cases h <;> simp_all
        obtain ⟨hkind, rfl⟩ := hkind
        exact .name hopens hnumber hstarts hkind
      | false =>
        rw [hstarts, if_neg nofun] at h
        cases hmark : isPunctuation c with
        | true =>
          rw [hmark, if_pos rfl] at h
          cases h
          exact .punctuation hopens hnumber hstarts hmark
        | false =>
          rw [hmark, if_neg nofun] at h
          cases h
          exact .unknown hopens hnumber hstarts hmark

/-! ## Lengths -/

theorem continuesName_of_startsName (h : g.startsName c = true) : g.continuesName c = true := by
  unfold startsName at h
  unfold continuesName
  simp only [Text.isAlphanumeric, Bool.or_eq_true] at h ⊢
  rcases h with (halpha | hscore) | hdollar
  · exact .inl (.inl (.inl halpha))
  · exact .inl (.inr hscore)
  · exact .inr hdollar

theorem nameLength_bounds (h : g.startsName c = true) :
    1 ≤ g.nameLength (c :: cs) ∧ g.nameLength (c :: cs) ≤ cs.length + 1 := by
  have hle := (List.takeWhile_sublist (l := c :: cs) g.continuesName).length_le
  refine ⟨?_, hle⟩
  rw [nameLength, List.takeWhile_cons_of_pos (continuesName_of_startsName h), List.length_cons]
  omega

theorem operatorLength_cases (c : Char) (cs : List Char) :
    operatorLength (c :: cs) = 1 ∨ ∃ operator ∈ operators, operator <+: c :: cs ∧
      operatorLength (c :: cs) = operator.length := by
  unfold operatorLength
  cases hfind : operators.find? (·.isPrefixOf (c :: cs)) with
  | none => exact .inl rfl
  | some operator =>
    exact .inr ⟨operator, List.mem_of_find?_eq_some hfind,
      List.isPrefixOf_iff_prefix.mp (by simpa using List.find?_some hfind), rfl⟩

/-- Whatever is read is not empty and lies inside the text. -/
theorem Reads.bounds (h : g.Reads ctx c cs kind n) (hc : c ≠ '\n' ∧ c ≠ '\r') :
    1 ≤ n ∧ n ≤ cs.length + 1 := by
  cases h with
  | lineComment =>
    have hfirst : [c] <+: c :: cs := ⟨cs, rfl⟩
    exact ⟨Lexeme.le_lineLength hfirst (by simpa using hc), Lexeme.lineLength_le (c :: cs)⟩
  | blockComment allowed opens closes =>
    have hbounds := closes.bounds nofun
    rw [List.length_cons] at hbounds
    omega
  | pattern opens due slash letters closes =>
    have hdrop : Lexeme.Closes _ ((c :: cs).drop 1) 1 n := closes
    have hbounds := hdrop.bounds nofun
    rw [List.length_cons] at hbounds
    omega
  | literal opens literal =>
    obtain ⟨-, opening, close, hashes, hpos, -, hcloses⟩ := literal
    have hbounds := hcloses.bounds nofun
    rw [List.length_cons] at hbounds
    omega
  | number opens number =>
    have hbounds := Lexeme.numberLength_bounds number
    exact ⟨hbounds.1, hbounds.2.1⟩
  | name opens number starts => exact nameLength_bounds starts
  | punctuation =>
    have hpos : ∀ operator ∈ operators, 1 ≤ operator.length := by decide
    rcases operatorLength_cases c cs with hone | ⟨operator, hmem, hstarts, hlength⟩
    · omega
    · rw [hlength]
      exact ⟨hpos operator hmem, hstarts.length_le⟩
  | unknown => omega

/-! ## Pieces -/

/-- What a piece at the start of the text `c :: cs` can be, its role and number of characters. -/
inductive Takes (g : Grammar) (ctx : Context) (c : Char) (cs : List Char) : Role → Nat → Prop
  | lineEnd (newline : c = '\n') : Takes g ctx c cs .lineEnd 1
  | blank (newline : c ≠ '\n') (blank : Text.isBlank c = true ∨ c = '\ufeff') :
    Takes g ctx c cs .blank 1
  | splice (backslash : c = '\\') (escapes : startsWithLineEnd cs = true) :
    Takes g ctx c cs .splice 1
  | directive (allowed : g.directives = true) (sign : c = '#') (first : ctx.lineStart = true) :
    Takes g ctx c cs .directive (Lexeme.directiveLength 0 (c :: cs))
  | token {kind : TokenKind} {n : Nat} (solid : Text.isBlank c = false ∧ c ≠ '\ufeff')
    (reads : g.Reads ctx c cs kind n) : Takes g ctx c cs (.token kind) n

theorem takes_of_nextPiece (h : g.nextPiece ctx c cs = .ok (role, n)) :
    g.Takes ctx c cs role n := by
  unfold nextPiece at h
  split at h
  case isTrue hnewline =>
    cases h
    exact .lineEnd hnewline
  case isFalse hnewline =>
  split at h
  case isTrue hblank =>
    cases h
    exact .blank hnewline (by simpa using hblank)
  case isFalse hblank =>
  split at h
  case isTrue hsplice =>
    cases h
    exact .splice hsplice.1 hsplice.2
  case isFalse =>
  split at h
  case isTrue hdirective =>
    cases h
    simp only [Bool.and_eq_true, beq_iff_eq] at hdirective
    exact .directive hdirective.1.1 hdirective.1.2 hdirective.2
  case isFalse =>
  simp only [bind, Except.bind, pure, Except.pure] at h
  split at h
  case h_1 => cases h
  case h_2 token htoken =>
    cases h
    exact .token (by simpa using hblank) (reads_of_nextToken htoken)

/-- A piece is not empty and lies inside the text. -/
theorem Takes.bounds (h : g.Takes ctx c cs role n) : 1 ≤ n ∧ n ≤ cs.length + 1 := by
  cases h with
  | lineEnd => omega
  | blank => omega
  | splice => omega
  | directive allowed sign first =>
    subst sign
    exact Lexeme.directiveLength_sign_bounds cs
  | token solid reads =>
    refine reads.bounds ⟨?_, ?_⟩ <;> rintro rfl <;> exact absurd solid.1 (by decide)

end Grammar

/-! ## A whole text -/

theorem byteSize_flatMap_chars (pieces : List Piece) :
    Text.byteSize (pieces.reverse.flatMap Piece.chars) = piecesSize pieces := by
  induction pieces with
  | nil => rfl
  | cons piece pieces ih =>
    rw [List.reverse_cons, List.flatMap_append, Text.byteSize_append, ih, List.flatMap_singleton,
      Nat.add_comm]
    rfl

section Cut

variable {g : Grammar} {ctx : Context} {done : List Piece} {c : Char} {cs before : List Char}
  {role : Role} {n : Nat}

/-- A piece is cut off and the scanner goes on behind it. -/
theorem cutFrom_of_ok (h : g.nextPiece ctx c cs = .ok (role, n)) :
    cutFrom g ctx done (c :: cs) = cutFrom g (ctx.after ⟨role, (c :: cs).take n⟩)
      (⟨role, (c :: cs).take n⟩ :: done) ((c :: cs).drop n) := by
  obtain ⟨n, rfl⟩ := Nat.exists_eq_add_of_le' (Grammar.takes_of_nextPiece h).bounds.1
  rw [cutFrom, h]
  rfl

/-- A token that does not end is reported at the place where it starts. -/
theorem cutFrom_of_error {cause : Unterminated} (h : g.nextPiece ctx c cs = .error cause)
    (hdone : done.reverse.flatMap Piece.chars = before) :
    cutFrom g ctx done (c :: cs) = .error ⟨Text.byteSize before, cause⟩ := by
  rw [cutFrom, h, ← hdone, byteSize_flatMap_chars]

end Cut

/-- The pieces make up the text, and each is as long as the scanner says at its place. -/
inductive Scan (g : Grammar) : Context → List Char → List Piece → Prop
  | nil {ctx : Context} : Scan g ctx [] []
  | cons {ctx : Context} {c : Char} {more rest : List Char} {role : Role} {pieces : List Piece}
    (takes : g.Takes ctx c (more ++ rest) role (more.length + 1))
    (later : Scan g (ctx.after ⟨role, c :: more⟩) rest pieces) :
    Scan g ctx (c :: (more ++ rest)) (⟨role, c :: more⟩ :: pieces)

theorem scan_of_cutFrom {g : Grammar} {ctx : Context} {done pieces : List Piece} {cs : List Char}
    (h : cutFrom g ctx done cs = .ok pieces) :
    ∃ later, pieces = done.reverse ++ later ∧ Scan g ctx cs later := by
  fun_induction cutFrom g ctx done cs with
  | case1 ctx done =>
    cases h
    exact ⟨[], (List.append_nil _).symm, .nil⟩
  | case2 => cases h
  | case3 ctx done c cs role n hnext piece ih =>
    obtain ⟨later, rfl, hscan⟩ := ih h
    have htakes := Grammar.takes_of_nextPiece hnext
    have hbounds := htakes.bounds
    have hlength : (cs.take (n - 1)).length + 1 = n := by
      rw [List.length_take]
      omega
    have hcons : Scan g ctx (c :: (cs.take (n - 1) ++ cs.drop (n - 1))) (piece :: later) :=
      .cons (by rwa [List.take_append_drop, hlength]) hscan
    rw [List.take_append_drop] at hcons
    exact ⟨piece :: later, by simp, hcons⟩

/-- No scanner has to be helped along: what it takes is what becomes the piece. -/
theorem scan_of_cut {g : Grammar} {cs : List Char} {pieces : List Piece}
    (h : cut g cs = .ok pieces) : Scan g {} cs pieces := by
  obtain ⟨later, rfl, hscan⟩ := scan_of_cutFrom h
  exact hscan

theorem scan_of_lex {g : Grammar} {cs : List Char} {lexemes : List Lexeme}
    (h : lex g cs = .ok lexemes) : ∃ pieces, Scan g {} cs pieces ∧
      lexemes = lexemesFrom 0 [] pieces := by
  obtain ⟨pieces, hcut, rfl⟩ := lex_eq_ok_iff.mp h
  exact ⟨pieces, scan_of_cut hcut, rfl⟩

end CloneDetection
