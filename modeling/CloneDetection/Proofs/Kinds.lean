import CloneDetection.Proofs.Offsets
import CloneDetection.Proofs.Scanning

/-!
# The kind of a token shows in its text

What is read at a place depends on what came before: a slash divides or opens a pattern, a letter is
a name or stands in front of a literal. Still the text that is cut out tells its kind
(`Grammar.kindOf`), in every grammar in which marks, letters in front of literals and operators do
not get in each other's way (`Grammar.Unambiguous`), and the grammars of all languages are of this
sort (`Language.unambiguous`). This holds of the text that is compared as well, where the blanks of
a comment are collapsed (`kindOf_normalizedText_raw`).
-/

namespace CloneDetection

/-- The characters of a list are looked at one by one, not all characters there are. -/
local instance decidableForallMemChar (l : List Char) (p : Char → Prop) [DecidablePred p] :
    Decidable (∀ c ∈ l, p c) :=
  List.decidableBAll p l

namespace Grammar

/-- Whether a text that starts with `c` closes a literal later on. -/
def closesLiteral (g : Grammar) (c : Char) (rest : List Char) : Bool :=
  rest.any (g.closingMarks.contains ·) || g.regexLiterals && c == '/' && rest.contains '/'

/-- The kind that a text shows, wherever it was cut out. -/
def kindOf (g : Grammar) : List Char → TokenKind
  | [] => .unknown
  | c :: rest =>
    if g.opensComment (c :: rest) then .comment
    else if opensNumber c rest then .number
    else if g.closesLiteral c rest then .string
    else if g.startsName c then g.nameKind (c :: rest)
    else if isPunctuation c then .punctuation
    else .unknown

/-- A grammar in which texts of different kinds differ. -/
structure Unambiguous (g : Grammar) : Prop where
  comments : ∀ mark ∈ g.lineComments, mark ≠ [] ∧ ∀ c ∈ mark, Text.isBlank c = false
  marks : ∀ c ∈ g.closingMarks, c ∈ ['"', '\'', '\x60']
  letters : ∀ letters ∈ g.stringPrefixes ++ g.verbatimPrefixes,
    ∀ c ∈ letters.take 1, c.toLower.isDigit = false ∧ c.toLower ≠ '.'
  patterns : g.regexLiterals = true → ['/', '/'] ∈ g.lineComments

variable {g : Grammar} {ctx : Context} {c : Char} {cs more after : List Char} {kind : TokenKind}

/-! ## Beginnings -/

theorem opensComment_iff : g.opensComment cs = true ↔
    (∃ mark ∈ g.lineComments, mark <+: cs) ∨ g.blockComments ≠ .absent ∧ ['/', '*'] <+: cs := by
  simp [opensComment]

theorem opensComment_append (h : g.opensComment (cs ++ after) = false) :
    g.opensComment cs = false := by
  rw [Bool.eq_false_iff, Ne, opensComment_iff] at h ⊢
  refine mt (Or.imp ?_ ?_) h
  · rintro ⟨mark, hmark, hopens⟩
    exact ⟨mark, hmark, hopens.trans (List.prefix_append cs after)⟩
  · rintro ⟨hallowed, hopens⟩
    exact ⟨hallowed, hopens.trans (List.prefix_append cs after)⟩

theorem opensNumber_append (h : opensNumber c (more ++ after) = false) :
    opensNumber c more = false := by
  cases more with
  | nil => simp_all [opensNumber, Lexeme.startsWithDigit]
  | cons d more => exact h

/-- What is taken of a text is enough to see the mark that it starts with. -/
theorem prefix_of_length_le {mark : List Char} (h : mark <+: c :: (more ++ after))
    (hlength : mark.length ≤ more.length + 1) : mark <+: c :: more := by
  rw [← List.cons_append] at h
  exact List.prefix_of_prefix_length_le h (List.prefix_append (c :: more) after) hlength

/-! ## One lemma a kind -/

theorem nameKind_ne_comment (name : List Char) : g.nameKind name ≠ .comment := by
  unfold nameKind
  split <;> decide

/-- The mark that opens a comment is in what is taken. -/
theorem exists_mark_of_comment (hg : g.Unambiguous)
    (h : g.Reads ctx c (more ++ after) .comment (more.length + 1)) :
    ∃ mark, mark ≠ [] ∧ (∀ d ∈ mark, Text.isBlank d = false) ∧ mark <+: c :: more ∧
      ∀ cs, mark <+: cs → g.opensComment cs = true := by
  generalize hn : more.length + 1 = n at h
  cases h with
  | @lineComment mark listed opens =>
    obtain ⟨hne, hsolid⟩ := hg.comments mark listed
    have hlength : mark.length ≤ more.length + 1 := by
      rw [hn]
      refine Lexeme.le_lineLength opens fun d hd => ⟨?_, ?_⟩ <;> rintro rfl <;>
        exact absurd (hsolid _ hd) (by decide)
    exact ⟨mark, hne, hsolid, prefix_of_length_le opens hlength, fun cs hcs =>
      opensComment_iff.mpr (.inl ⟨mark, listed, hcs⟩)⟩
  | blockComment allowed opens closes =>
    have hbounds := closes.bounds nofun
    exact ⟨['/', '*'], nofun, by decide, prefix_of_length_le opens (by simp; omega), fun cs hcs =>
      opensComment_iff.mpr (.inr ⟨allowed, hcs⟩)⟩
  | name _ _ _ kind_eq => exact absurd kind_eq (nameKind_ne_comment _).symm

theorem opensNumber_of_length (h : opensNumber c (more ++ after) = true)
    (hlength : more.length + 1 = Lexeme.numberLength (c :: (more ++ after))) :
    opensNumber c more = true := by
  cases more with
  | nil =>
    have hdigit : c.isDigit = true := by
      by_contra hdigit
      have := (Lexeme.numberLength_bounds h).2.2 (by simpa using hdigit)
      rw [← hlength, List.length_nil] at this
      omega
    rw [opensNumber, hdigit, Bool.true_or]
  | cons d more => exact h

theorem toLower_of_isDigit (h : c.isDigit = true) : c.toLower = c := by
  unfold Char.toLower
  rw [dif_neg]
  rintro ⟨hcapital, -⟩
  simp only [Char.isDigit, Bool.and_eq_true, decide_eq_true_eq] at h
  have hle := UInt32.le_iff_toNat_le.mp (UInt32.le_trans hcapital h.2)
  exact absurd hle (by decide)

/-- No literal starts like a number. -/
theorem opensNumber_eq_false (hg : g.Unambiguous) (h : g.OpensLiteral c) (more : List Char) :
    opensNumber c more = false := by
  suffices hc : c.isDigit = false ∧ c ≠ '.' by simp [opensNumber, hc]
  rcases h with hmark | hletter | ⟨letters, hletters, hhead⟩
  · have marks : ∀ d ∈ ['"', '\'', '\x60'], d.isDigit = false ∧ d ≠ '.' := by decide
    exact marks c (hg.marks c hmark)
  · have letters : ∀ d ∈ ['r', 'b', 'c'], d.isDigit = false ∧ d ≠ '.' := by decide
    exact letters c hletter
  · obtain ⟨letter, hfirst, hsame⟩ := Option.map_eq_some_iff.mp hhead
    obtain ⟨later, rfl⟩ := List.head?_eq_some_iff.mp hfirst
    have hlower := hg.letters _ hletters letter List.mem_cons_self
    rw [hsame] at hlower
    refine ⟨?_, ?_⟩
    · rw [Bool.eq_false_iff]
      intro hdigit
      rw [toLower_of_isDigit hdigit, hdigit] at hlower
      cases hlower.1
    · rintro rfl
      exact absurd rfl hlower.2

theorem closesLiteral_of_hasLiteral (h : g.HasLiteral c (more ++ after) (more.length + 1)) :
    g.closesLiteral c more = true := by
  obtain ⟨-, opening, close, hashes, hpos, hclose, hcloses⟩ := h
  obtain ⟨body, hbody⟩ := hcloses.exists_drop_take
  obtain ⟨k, rfl⟩ := Nat.exists_eq_succ_of_ne_zero (Nat.one_le_iff_ne_zero.mp hpos)
  rw [List.take_succ_cons, List.take_left' rfl, List.drop_succ_cons] at hbody
  have hmem : close ∈ more.drop k := by
    rw [hbody]
    simp
  rw [closesLiteral, Bool.or_eq_true, List.any_eq_true]
  exact .inl ⟨close, List.mem_of_mem_drop hmem, by simpa using hclose⟩

theorem closesLiteral_of_closes {flags : List Char} (hregex : g.regexLiterals = true)
    (h : Lexeme.Closes ('/' :: flags) (more ++ after) 1 (more.length + 1)) :
    g.closesLiteral '/' more = true := by
  have hdrop : Lexeme.Closes _ (('/' :: (more ++ after)).drop 1) 1 (more.length + 1) := h
  obtain ⟨body, hbody⟩ := hdrop.exists_drop_take
  rw [List.take_succ_cons, List.take_left' rfl, List.drop_one, List.tail_cons] at hbody
  simp [closesLiteral, hregex, hbody]

theorem closesLiteral_eq_false (hmarks : ∀ d ∈ more, d ∉ g.closingMarks)
    (hslash : g.regexLiterals = true → c = '/' → '/' ∉ more) : g.closesLiteral c more = false := by
  rw [Bool.eq_false_iff]
  intro h
  simp only [closesLiteral, Bool.or_eq_true, List.any_eq_true, List.contains_iff_mem,
    Bool.and_eq_true, beq_iff_eq] at h
  rcases h with ⟨d, hd, hmark⟩ | ⟨⟨hregex, hc⟩, htail⟩
  · exact hmarks d hd hmark
  · exact hslash hregex hc htail

theorem continuesName_mark (g : Grammar) :
    ∀ d ∈ ['"', '\'', '\x60', '/'], g.continuesName d = false := by
  have hmarks : ∀ d ∈ ['"', '\'', '\x60', '/'],
      Text.isAlphanumeric d = false ∧ d ≠ '_' ∧ d ≠ '$' := by decide +kernel
  intro d hd
  simp [continuesName, hmarks d hd]

/-- A name has no mark in it. -/
theorem closesLiteral_name (hg : g.Unambiguous)
    (h : ∀ d ∈ c :: more, g.continuesName d = true) : g.closesLiteral c more = false := by
  have absent {d : Char} (hd : d ∈ c :: more) : d ∉ ['"', '\'', '\x60', '/'] := fun hmark => by
    have hcontinues := h d hd
    rw [g.continuesName_mark d hmark] at hcontinues
    cases hcontinues
  refine closesLiteral_eq_false (fun d hd hmark => ?_) fun _ hslash => ?_
  · exact absent (List.mem_cons_of_mem c hd)
      (List.mem_append_left ['/'] (hg.marks d hmark))
  · subst hslash
    exact absurd (by decide) (absent List.mem_cons_self)

/-- An operator has no mark in it, and one that starts with two slashes is no token where patterns
are read. -/
theorem closesLiteral_operator (hg : g.Unambiguous) (hmem : c :: more ∈ operators)
    (hopens : g.opensComment (c :: more) = false) : g.closesLiteral c more = false := by
  have hmarks : ∀ operator ∈ operators, ∀ d ∈ ['"', '\'', '\x60'], d ∉ operator := by decide
  have hslashes : ∀ operator ∈ operators,
      operator.head? = some '/' → '/' ∈ operator.tail → ['/', '/'] <+: operator := by decide
  refine closesLiteral_eq_false (fun d hd hmark => ?_) fun hregex hslash htail => ?_
  · exact hmarks _ hmem d (hg.marks d hmark) (List.mem_cons_of_mem c hd)
  · subst hslash
    have hcomment := opensComment_iff.mpr
      (.inl ⟨_, hg.patterns hregex, hslashes _ hmem rfl htail⟩)
    rw [hopens] at hcomment
    cases hcomment

theorem closesLiteral_nil (g : Grammar) (c : Char) : g.closesLiteral c [] = false := by
  simp [closesLiteral]

/-! ## The kind -/

/-- **What is cut out shows its kind.** -/
theorem kindOf_eq (hg : g.Unambiguous) (h : g.Reads ctx c (more ++ after) kind (more.length + 1)) :
    g.kindOf (c :: more) = kind := by
  have hnone (hopens : g.opensComment (c :: (more ++ after)) = false) :
      g.opensComment (c :: more) = false := opensComment_append hopens
  by_cases hcomment : kind = .comment
  · subst hcomment
    obtain ⟨mark, -, -, hmark, hopens⟩ := exists_mark_of_comment hg h
    rw [kindOf, if_pos (hopens _ hmark)]
  generalize hn : more.length + 1 = n at h
  cases h with
  | lineComment => exact absurd rfl hcomment
  | blockComment => exact absurd rfl hcomment
  | pattern opens due slash letters closes =>
    subst slash hn
    have hcloses := closesLiteral_of_closes due.1 closes
    simp [kindOf, hnone opens, opensNumber, hcloses]
  | literal opens literal =>
    subst hn
    have hnumber := opensNumber_eq_false hg literal.1 more
    have hcloses := closesLiteral_of_hasLiteral literal
    simp [kindOf, hnone opens, hnumber, hcloses]
  | number opens number =>
    have hnumber := opensNumber_of_length number hn
    simp [kindOf, hnone opens, hnumber]
  | name opens number starts kind_eq =>
    have hname : (c :: (more ++ after)).take (g.nameLength (c :: (more ++ after))) = c :: more := by
      rw [← hn, List.take_succ_cons, List.take_left' rfl]
    have hcontinues : ∀ d ∈ c :: more, g.continuesName d = true := fun d hd => by
      rw [← hname, nameLength,
        ← List.prefix_iff_eq_take.mp (List.takeWhile_prefix g.continuesName)] at hd
      exact List.mem_takeWhile_imp hd
    have hcloses := closesLiteral_name hg hcontinues
    rw [kind_eq, hname]
    simp [kindOf, hnone opens, opensNumber_append number, hcloses, starts]
  | punctuation opens number starts mark =>
    have hcloses : g.closesLiteral c more = false := by
      rcases operatorLength_cases c (more ++ after) with hone | ⟨operator, hmem, hstarts, hlength⟩
      · obtain rfl := List.eq_nil_of_length_eq_zero (Nat.succ.inj (hn.trans hone))
        exact closesLiteral_nil g c
      · have hoperator : operator = c :: more := by
          rw [List.prefix_iff_eq_take.mp hstarts, ← hlength, ← hn, List.take_succ_cons,
            List.take_left' rfl]
        exact closesLiteral_operator hg (hoperator ▸ hmem) (hnone opens)
    simp [kindOf, hnone opens, opensNumber_append number, hcloses, starts, mark]
  | unknown opens number starts mark =>
    obtain rfl := List.eq_nil_of_length_eq_zero (Nat.succ.inj hn)
    simp [kindOf, hnone opens, opensNumber_append number, closesLiteral_nil, starts, mark]

/-! ## The text that is compared -/

theorem prefix_intercalate {α : Type} (sep first : List α) (later : List (List α)) :
    first <+: sep.intercalate (first :: later) := by
  cases later with
  | nil => simp
  | cons next later => simp [List.intercalate]

/-- Collapsing blanks keeps a beginning without blanks. -/
theorem prefix_collapse {mark : List Char} (hne : mark ≠ [])
    (hsolid : ∀ d ∈ mark, Text.isBlank d = false) (h : mark <+: cs) :
    mark <+: Text.collapse cs := by
  obtain ⟨rest, rfl⟩ := h
  obtain ⟨c, mark, rfl⟩ := List.exists_cons_of_ne_nil hne
  rw [List.forall_mem_cons] at hsolid
  have hdrop : (c :: mark ++ rest).dropWhile Text.isBlank = c :: (mark ++ rest) :=
    List.dropWhile_cons_of_neg (by simp [hsolid.1])
  rw [Text.collapse, Text.words]
  split
  case h_1 hnil =>
    rw [hdrop] at hnil
    cases hnil
  case h_2 d later hcons =>
    rw [hdrop] at hcons
    cases hcons
    refine List.IsPrefix.trans ?_ (prefix_intercalate _ _ _)
    rw [List.takeWhile_append_of_pos fun d hd => by simp [hsolid.2 d hd]]
    exact ⟨_, rfl⟩

theorem normalizedText_raw {chars : List Char} (h : kind ≠ .comment) :
    g.normalizedText .raw kind chars = String.ofList chars := by
  cases kind <;> simp [normalizedText, Normalization.blindsIdentifiers,
    Normalization.blindsLiterals] at h ⊢

/-- **The compared text shows the kind** where nothing is blinded. -/
theorem kindOf_normalizedText_raw (hg : g.Unambiguous)
    (h : g.Reads ctx c (more ++ after) kind (more.length + 1)) :
    g.kindOf (g.normalizedText .raw kind (c :: more)).toList = kind := by
  by_cases hcomment : kind = .comment
  · subst hcomment
    obtain ⟨mark, hne, hsolid, hmark, hopens⟩ := exists_mark_of_comment hg h
    have hcollapse := prefix_collapse hne hsolid hmark
    rw [normalizedText, String.toList_ofList]
    cases htext : Text.collapse (c :: more) with
    | nil => exact absurd (List.prefix_nil.mp (htext ▸ hcollapse)) hne
    | cons d rest => rw [kindOf, if_pos (hopens _ (htext ▸ hcollapse))]
  · rw [normalizedText_raw hcomment, String.toList_ofList, kindOf_eq hg h]

end Grammar

theorem Language.unambiguous (language : Language) : language.grammar.Unambiguous := by
  cases language <;> exact ⟨by decide, by decide, by decide, by decide⟩

/-! ## Lexemes -/

theorem exists_reads_of_scan {g : Grammar} {ctx : Context} {cs : List Char} {pieces : List Piece}
    {offset : Nat} {l : Lexeme} (h : Scan g ctx cs pieces)
    (hl : l ∈ lexemesFrom offset [] pieces) : ∃ ctx c more after, l.chars = c :: more ∧
      Text.isBlank c = false ∧ g.Reads ctx c (more ++ after) l.kind (more.length + 1) := by
  induction h generalizing offset with
  | nil => cases hl
  | @cons ctx c more rest role pieces takes later ih =>
    cases role with
    | token kind =>
      rw [lexemesFrom_token, List.mem_cons] at hl
      rcases hl with rfl | hl
      · generalize hn : more.length + 1 = n at takes
        cases takes with
        | token solid reads => exact ⟨ctx, c, more, rest, rfl, solid.1, hn ▸ reads⟩
      · exact ih hl
    | _ => exact ih hl

/-- A lexeme is what was read at its place. -/
theorem exists_reads_of_mem_lex {g : Grammar} {cs : List Char} {lexemes : List Lexeme}
    (h : lex g cs = .ok lexemes) {l : Lexeme} (hl : l ∈ lexemes) : ∃ ctx c more after,
      l.chars = c :: more ∧ Text.isBlank c = false ∧
        g.Reads ctx c (more ++ after) l.kind (more.length + 1) := by
  obtain ⟨pieces, hscan, rfl⟩ := scan_of_lex h
  exact exists_reads_of_scan hscan hl

end CloneDetection
