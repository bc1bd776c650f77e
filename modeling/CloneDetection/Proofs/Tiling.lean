import CloneDetection.Proofs.Offsets
import CloneDetection.Proofs.Scanning

/-!
# Tokens and what is left out between them

A text is tokens and stretches that are left out, in turn (`Tiles`). A stretch is made of blanks,
backslashes at the end of a line and, where the grammar has them, directives (`Skips`). A directive
starts with the first `#` of a line that has only blanks before it, and ends in front of the first
newline that is not escaped (`IsDirective`).

The scanner finds such a division of every text that it can read (`tiles_of_scan`), so each stretch
between two tokens, before the first and after the last is of this kind (`lex_leaves_gaps`).
-/

namespace CloneDetection

/-! ## Directives -/

/-- A newline after this text is escaped. -/
def Escaped (cs : List Char) : Prop :=
  ['\\'] <:+ cs ∨ ['\\', '\r'] <:+ cs

/-- The text `d` in front of `after` is a directive: it runs up to the first newline that is not
escaped, or to the end. -/
structure IsDirective (d after : List Char) : Prop where
  head : d.head? = some '#'
  escaped : ∀ u v, d = u ++ '\n' :: v → Escaped u
  ends : after = [] ∨ after.head? = some '\n' ∧ ¬ Escaped d

theorem Escaped.append_left {cs : List Char} (h : Escaped cs) (ds : List Char) :
    Escaped (ds ++ cs) :=
  h.imp (·.trans (List.suffix_append ds cs)) (·.trans (List.suffix_append ds cs))

/-- A character adds an escape only where the newline, or the carriage return before it, follows
directly. -/
theorem escaped_cons_iff {c : Char} {cs : List Char} :
    Escaped (c :: cs) ↔ Escaped cs ∨ c = '\\' ∧ (cs = [] ∨ cs = ['\r']) := by
  simp only [Escaped, List.suffix_cons_iff, List.cons.injEq]
  constructor
  · rintro ((⟨rfl, rfl⟩ | h) | (⟨rfl, rfl⟩ | h))
    · exact .inr ⟨rfl, .inl rfl⟩
    · exact .inl (.inl h)
    · exact .inr ⟨rfl, .inr rfl⟩
    · exact .inl (.inr h)
  · rintro ((h | h) | ⟨rfl, rfl | rfl⟩)
    · exact .inl (.inr h)
    · exact .inr (.inr h)
    · exact .inl (.inl ⟨rfl, rfl⟩)
    · exact .inr (.inl ⟨rfl, rfl⟩)

/-- A newline starts afresh. -/
theorem escaped_append_newline {ds cs : List Char} : Escaped (ds ++ '\n' :: cs) ↔ Escaped cs := by
  induction ds with
  | nil => simp [escaped_cons_iff]
  | cons d ds ih => simp [escaped_cons_iff, ih, List.append_eq_singleton_iff]

/-- Newlines behind one that is escaped are looked at as if the text started there. -/
theorem escaped_of_append_newline {e d u v : List Char} (he : Escaped e) (hnewline : '\n' ∉ e)
    (hd : ∀ u v, d = u ++ '\n' :: v → Escaped u) (h : e ++ '\n' :: d = u ++ '\n' :: v) :
    Escaped u := by
  rcases List.append_eq_append_iff.mp h with ⟨a, rfl, ha⟩ | ⟨a, rfl, ha⟩
  · cases a with
    | nil => simpa using he
    | cons c a =>
      have hescaped := (hd a v (List.cons.inj ha).2).append_left (e ++ [c])
      rwa [List.append_assoc, List.singleton_append] at hescaped
  · cases a with
    | nil => simpa using he
    | cons c a =>
      cases (List.cons.inj ha).1
      exact absurd (List.mem_append_right u List.mem_cons_self) hnewline

/-- A directive takes what `directiveLength` counts, and stops there. -/
theorem directiveLength_spec (n : Nat) (cs : List Char) :
    ∃ d rest, cs = d ++ rest ∧ Lexeme.directiveLength n cs = n + d.length ∧
      (∀ u v, d = u ++ '\n' :: v → Escaped u) ∧
      (rest = [] ∨ rest.head? = some '\n' ∧ ¬ Escaped d) := by
  fun_induction Lexeme.directiveLength n cs with
  | case1 n => exact ⟨[], [], rfl, rfl, by simp, .inl rfl⟩
  | case2 n cs ih =>
    obtain ⟨d, rest, rfl, hlength, hescaped, hends⟩ := ih
    refine ⟨['\\'] ++ '\n' :: d, rest, rfl, by rw [hlength]; simp; omega, fun u v huv => ?_,
      hends.imp_right (And.imp_right (mt escaped_append_newline.mp))⟩
    exact escaped_of_append_newline (.inl List.suffix_rfl) (by decide) hescaped huv
  | case3 n cs ih =>
    obtain ⟨d, rest, rfl, hlength, hescaped, hends⟩ := ih
    refine ⟨['\\', '\r'] ++ '\n' :: d, rest, rfl, by rw [hlength]; simp; omega, fun u v huv => ?_,
      hends.imp_right (And.imp_right (mt escaped_append_newline.mp))⟩
    exact escaped_of_append_newline (.inr List.suffix_rfl) (by decide) hescaped huv
  | case4 n cs _ _ => exact ⟨[], '\n' :: cs, rfl, rfl, by simp, .inr ⟨rfl, by simp [Escaped]⟩⟩
  | case5 n c cs hpair htriple hc ih =>
    obtain ⟨d, rest, rfl, hlength, hescaped, hends⟩ := ih
    refine ⟨c :: d, rest, rfl, by rw [hlength, List.length_cons]; omega, ?_, ?_⟩
    · intro u v huv
      cases u with
      | nil => exact absurd (List.cons.inj huv).1 hc
      | cons a u => exact (hescaped u v (List.cons.inj huv).2).append_left [a]
    · refine hends.imp_right fun hnewline => ⟨hnewline.1, ?_⟩
      obtain ⟨r, rfl⟩ : ∃ r, rest = '\n' :: r := by
        exact List.head?_eq_some_iff.mp hnewline.1
      rw [escaped_cons_iff]
      rintro (h | ⟨rfl, rfl | rfl⟩)
      · exact hnewline.2 h
      · exact hpair r rfl rfl
      · exact htriple r rfl rfl

/-- What the scanner takes as a directive is one. -/
theorem isDirective_of_length {more rest : List Char}
    (hlength : more.length + 1 = Lexeme.directiveLength 0 ('#' :: (more ++ rest))) :
    IsDirective ('#' :: more) rest := by
  obtain ⟨d, rest', htext, hcount, hescaped, hends⟩ :=
    directiveLength_spec 0 ('#' :: (more ++ rest))
  rw [Nat.zero_add, ← hlength, ← List.length_cons (a := '#')] at hcount
  obtain ⟨rfl, rfl⟩ := List.append_inj htext hcount
  exact ⟨rfl, hescaped, hends⟩

/-! ## Stretches that are left out -/

/-- A character that is left out wherever it stands between tokens. -/
def IsGap (c : Char) : Prop :=
  Text.isBlank c = true ∨ c = '\ufeff'

/-- Only blanks stand on the last line of the text. -/
def AtLineStart (before : List Char) : Prop :=
  ∀ c ∈ before.reverse.takeWhile (· != '\n'), IsGap c

/-- The part `gap` of the text `before ++ gap ++ after` is left out: each of its characters is a
blank, a backslash in front of a line end, or belongs to a directive. -/
inductive Skips (g : Grammar) : List Char → List Char → List Char → Prop
  | nil {before after : List Char} : Skips g before [] after
  | blank {before gap after : List Char} {c : Char} (blank : IsGap c)
    (more : Skips g (before ++ [c]) gap after) : Skips g before (c :: gap) after
  | splice {before gap after : List Char} (lineEnd : ['\n'] <+: gap ∨ ['\r', '\n'] <+: gap)
    (more : Skips g (before ++ ['\\']) gap after) : Skips g before ('\\' :: gap) after
  | directive {before d gap after : List Char} (allowed : g.directives = true)
    (first : AtLineStart before) (directive : IsDirective d (gap ++ after))
    (more : Skips g (before ++ d) gap after) : Skips g before (d ++ gap) after

/-- The text after `before` is stretches that are left out and tokens, in turn. -/
inductive Tiles (g : Grammar) : List Char → List Char → List Lexeme → Prop
  | last {before gap : List Char} (skips : Skips g before gap []) : Tiles g before gap []
  | token {before gap rest : List Char} {l : Lexeme} {lexemes : List Lexeme}
    (skips : Skips g before gap (l.chars ++ rest)) (solid : ∃ c ∈ l.chars.head?, ¬ IsGap c)
    (start : l.start = Text.byteSize (before ++ gap))
    (later : Tiles g (before ++ gap ++ l.chars) rest lexemes) :
    Tiles g before (gap ++ (l.chars ++ rest)) (l :: lexemes)

section Scan

variable {g : Grammar} {before cs gap after : List Char} {c : Char} {lexemes : List Lexeme}

theorem startsWithLineEnd_iff :
    Grammar.startsWithLineEnd cs = true ↔ ['\n'] <+: cs ∨ ['\r', '\n'] <+: cs := by
  unfold Grammar.startsWithLineEnd
  split
  · simp
  · simp
  case h_3 hlf hcrlf =>
    refine ⟨nofun, ?_⟩
    rintro (⟨rest, rfl⟩ | ⟨rest, rfl⟩)
    · exact absurd rfl (hlf rest)
    · exact absurd rfl (hcrlf rest)

theorem atLineStart_newline : AtLineStart (before ++ ['\n']) := by
  simp [AtLineStart]

theorem AtLineStart.append_gap (h : AtLineStart before) (hc : IsGap c) :
    AtLineStart (before ++ [c]) := by
  by_cases hnewline : c = '\n'
  · exact hnewline ▸ atLineStart_newline
  · rw [AtLineStart, List.reverse_append, List.reverse_singleton, List.singleton_append,
      List.takeWhile_cons_of_pos (by simpa using hnewline), List.forall_mem_cons]
    exact ⟨hc, h⟩

/-- More can be left out in front of a division of the rest, where the first stretch allows it. -/
theorem Tiles.prepend {d : List Char} (h : Tiles g (before ++ d) cs lexemes)
    (hskips : ∀ gap after, cs = gap ++ after → (∀ c ∈ after.head?, ¬ IsGap c) →
      Skips g (before ++ d) gap after → Skips g before (d ++ gap) after) :
    Tiles g before (d ++ cs) lexemes := by
  cases h with
  | last skips => exact .last (hskips cs [] (List.append_nil cs).symm nofun skips)
  | @token _ gap rest l lexemes skips solid start later =>
    have hsolid : ∀ c ∈ (l.chars ++ rest).head?, ¬ IsGap c := by
      obtain ⟨c, hc, hgap⟩ := solid
      rw [List.head?_append, Option.mem_def.mp hc]
      rintro d ⟨rfl⟩
      exact hgap
    rw [← List.append_assoc]
    refine .token (hskips gap _ rfl hsolid skips) solid ?_ ?_
    · rw [start, List.append_assoc]
    · rwa [← List.append_assoc]

/-- A line end in front of a token is left out as a whole. -/
theorem lineEnd_of_append (h : Grammar.startsWithLineEnd (gap ++ after) = true)
    (hsolid : ∀ c ∈ after.head?, ¬ IsGap c) : ['\n'] <+: gap ∨ ['\r', '\n'] <+: gap := by
  have absent {c : Char} (hc : Text.isBlank c = true) : ¬ [c] <+: after := by
    rintro ⟨rest, rfl⟩
    exact hsolid c rfl (.inl hc)
  rcases startsWithLineEnd_iff.mp h with hlf | hcrlf
  · rcases gap with _ | ⟨a, gap⟩
    · exact absurd hlf (absent (by decide))
    · exact .inl (by simpa using hlf)
  · rcases gap with _ | ⟨a, _ | ⟨b, gap⟩⟩
    · exact absurd (List.IsPrefix.trans ⟨['\n'], rfl⟩ hcrlf) (absent (by decide))
    · rw [List.singleton_append, List.cons_prefix_cons] at hcrlf
      exact absurd hcrlf.2 (absent (by decide))
    · exact .inr (by simpa using hcrlf)

theorem startsWithLineEnd_tail (h : Grammar.startsWithLineEnd (c :: cs) = true) (hc : c ≠ '\n') :
    Grammar.startsWithLineEnd cs = true := by
  rw [startsWithLineEnd_iff] at h ⊢
  simp only [List.cons_prefix_cons] at h
  rcases h with ⟨rfl, -⟩ | ⟨-, hlf⟩
  · exact absurd rfl hc
  · exact .inl hlf

/-- The scanner divides every text it can read. While it takes the line for empty, it is, unless an
escaped line end comes next. -/
theorem tiles_of_scan {ctx : Context} {pieces : List Piece} (h : Scan g ctx cs pieces)
    (hline : ctx.lineStart = true → AtLineStart before ∨ Grammar.startsWithLineEnd cs = true) :
    Tiles g before cs (lexemesFrom (Text.byteSize before) [] pieces) := by
  induction h generalizing before with
  | nil => exact .last .nil
  | @cons ctx c more rest role pieces takes later ih =>
    specialize @ih (before ++ c :: more)
    rw [Text.byteSize_append] at ih
    generalize hn : more.length + 1 = n at takes
    cases takes with
    | lineEnd newline =>
      obtain rfl := List.eq_nil_of_length_eq_zero (Nat.succ.inj hn)
      subst newline
      exact (ih fun _ => .inl atLineStart_newline).prepend fun _ _ _ _ more =>
        .blank (.inl (by decide)) more
    | blank newline blank =>
      obtain rfl := List.eq_nil_of_length_eq_zero (Nat.succ.inj hn)
      refine (ih fun hstart => ?_).prepend fun _ _ _ _ more => .blank blank more
      exact (hline hstart).imp (·.append_gap blank) (startsWithLineEnd_tail · newline)
    | splice backslash escapes =>
      obtain rfl := List.eq_nil_of_length_eq_zero (Nat.succ.inj hn)
      subst backslash
      refine (ih fun _ => .inr escapes).prepend fun gap after hrest hsolid more => ?_
      exact .splice (lineEnd_of_append (hrest ▸ escapes) hsolid) more
    | directive allowed sign first =>
      subst sign
      have hempty := (hline first).resolve_right (by simp [Grammar.startsWithLineEnd])
      refine (ih nofun).prepend fun gap after hrest _ more => .directive allowed hempty ?_ more
      exact hrest ▸ isDirective_of_length hn
    | @token kind n solid reads =>
      rw [lexemesFrom_token]
      refine @Tiles.token g before [] rest ⟨kind, c :: more, Text.byteSize before⟩ _ .nil
        ⟨c, rfl, by simpa [IsGap] using solid⟩ ?_ ?_
      · rw [List.append_nil]
      · rw [List.append_nil]
        exact ih nofun

/-- Every stretch of the text between the end of some of the tokens and the start of the next. -/
theorem Tiles.exists_gap (h : Tiles g before cs lexemes) {left right : List Lexeme}
    (hsplit : lexemes = left ++ right) : ∃ done gap after, before ++ cs = done ++ gap ++ after ∧
      Text.byteSize done = (left.getLast?.map Lexeme.stop).getD (Text.byteSize before) ∧
      Text.byteSize (done ++ gap) =
        (right.head?.map Lexeme.start).getD (Text.byteSize (before ++ cs)) ∧
      Skips g done gap after := by
  induction h generalizing left right with
  | @last before gap skips =>
    obtain ⟨rfl, rfl⟩ := List.nil_eq_append_iff.mp hsplit
    exact ⟨before, gap, [], (List.append_nil _).symm, rfl, rfl, skips⟩
  | @token before gap rest l lexemes skips solid start later ih =>
    cases left with
    | nil =>
      cases hsplit
      exact ⟨before, gap, l.chars ++ rest, (List.append_assoc _ _ _).symm, rfl, start.symm, skips⟩
    | cons _ left =>
      cases hsplit
      obtain ⟨done, gap', after, htext, hdone, hgap, hskips⟩ := ih rfl
      have hstop : Text.byteSize (before ++ gap ++ l.chars) = l.stop := by
        rw [Lexeme.stop, start, Text.byteSize_append _ l.chars]
      refine ⟨done, gap', after, by simpa using htext, ?_, ?_, hskips⟩
      · rw [hdone, hstop, List.getLast?_cons]
        cases left.getLast? <;> rfl
      · rw [hgap]
        simp

end Scan

/-- **The scanner loses nothing.** The tokens of a text are not empty, stand in it at the boundaries
of its characters and follow one another. What stands between the end of some of them (or the start
of the text) and the start of the next (or the end of the text) is left out for a reason. -/
theorem lex_leaves_gaps {g : Grammar} {cs : List Char} {lexemes : List Lexeme}
    (h : lex g cs = .ok lexemes) :
    (∀ l ∈ lexemes, l.StandsIn 0 cs) ∧ (lexemes.Pairwise fun l m => l.stop ≤ m.start) ∧
      ∀ left right, lexemes = left ++ right → ∃ before gap after, cs = before ++ gap ++ after ∧
        Text.byteSize before = (left.getLast?.map Lexeme.stop).getD 0 ∧
        Text.byteSize (before ++ gap) = (right.head?.map Lexeme.start).getD (Text.byteSize cs) ∧
        Skips g before gap after := by
  obtain ⟨hin, hordered⟩ := lex_spec h
  refine ⟨hin, hordered, fun left right hsplit => ?_⟩
  obtain ⟨pieces, hscan, rfl⟩ := scan_of_lex h
  have htiles : Tiles g [] cs (lexemesFrom 0 [] pieces) :=
    tiles_of_scan hscan fun _ => .inl nofun
  exact htiles.exists_gap hsplit

/-- A directive over two lines, left out in front of a token. -/
theorem lex_leaves_gaps_directive :
    lex Language.c.grammar ['#', 'x', '\\', '\n', '\n', 'y'] = .ok [⟨.identifier, ['y'], 5⟩] ∧
      ∃ before gap after, ['#', 'x', '\\', '\n', '\n', 'y'] = before ++ gap ++ after ∧
        Text.byteSize before = 0 ∧ Text.byteSize (before ++ gap) = 5 ∧
        Skips Language.c.grammar before gap after := by
  have hlex : lex Language.c.grammar ['#', 'x', '\\', '\n', '\n', 'y'] =
      .ok [⟨.identifier, ['y'], 5⟩] := by
    decide +kernel
  exact ⟨hlex, (lex_leaves_gaps hlex).2.2 [] [_] rfl⟩

end CloneDetection
