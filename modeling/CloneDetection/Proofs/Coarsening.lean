import CloneDetection.Proofs.Consistency
import CloneDetection.Proofs.Coverage
import CloneDetection.Proofs.Kinds

/-!
# Coarser normalization finds more

The text that a token is compared by at a coarser level is a function of its text at a finer level
(`Grammar.exists_recoding`), as the kind of the token shows in the latter. So a source has the same
tokens at every level but for their texts, texts that are equal stay equal
(`Language.exists_recoding`), and every match at a finer level lies in one at a coarser level
(`Match.exists_isMatch_recode`).
-/

namespace CloneDetection

/-- What is blinded at `finer` is blinded at `coarser`. -/
def Normalization.Refines (finer coarser : Normalization) : Prop :=
  (finer.blindsIdentifiers = true → coarser.blindsIdentifiers = true) ∧
    (finer.blindsLiterals = true → coarser.blindsLiterals = true)

instance (finer coarser : Normalization) : Decidable (finer.Refines coarser) :=
  inferInstanceAs (Decidable (_ ∧ _))

example : Normalization.all.Pairwise Normalization.Refines := by decide

/-! ## Texts -/

namespace Grammar

variable {g : Grammar} {ctx : Context} {c : Char} {more after : List Char} {kind : TokenKind}
  {level : Normalization}

/-- The text of a token at a level, read off its text at a finer one. -/
def recode (g : Grammar) (level : Normalization) (text : String) : String :=
  let kind := g.kindOf text.toList
  if kind = .comment then text else g.normalizedText level kind text.toList

/-- From the texts as they stand, every text can be computed. -/
theorem recode_raw (hg : g.Unambiguous)
    (h : g.Reads ctx c (more ++ after) kind (more.length + 1)) :
    g.recode level (g.normalizedText .raw kind (c :: more)) =
      g.normalizedText level kind (c :: more) := by
  rw [recode, kindOf_normalizedText_raw hg h]
  by_cases hcomment : kind = .comment
  · subst hcomment
    rfl
  · rw [if_neg hcomment, normalizedText_raw hcomment, String.toList_ofList]

/-- The placeholder of identifiers does not look like a number or a string. -/
theorem kindOf_identifierPlaceholder (hg : g.Unambiguous) :
    g.kindOf identifierPlaceholder.toList ≠ .number ∧
      g.kindOf identifierPlaceholder.toList ≠ .string := by
  have hcloses : g.closesLiteral '$' ['i', 'd'] = false := by
    refine closesLiteral_eq_false (fun d hd hmark => ?_) fun _ hslash => ?_
    · have hquote := hg.marks d hmark
      simp only [List.mem_cons, List.not_mem_nil, or_false] at hd hquote
      rcases hd with rfl | rfl <;> exact absurd hquote (by decide)
    · exact absurd hslash (by decide)
  have hnumber : opensNumber '$' ['i', 'd'] = false := by decide
  rw [show identifierPlaceholder.toList = ['$', 'i', 'd'] by decide]
  simp only [kindOf, hnumber, hcloses, Bool.false_eq_true, if_false, nameKind]
  split_ifs <;> decide

theorem recode_identifierPlaceholder (hg : g.Unambiguous) :
    g.recode .full identifierPlaceholder = identifierPlaceholder := by
  obtain ⟨hnumber, hstring⟩ := kindOf_identifierPlaceholder hg
  rw [recode]
  cases hkind : g.kindOf identifierPlaceholder.toList with
  | number => exact absurd hkind hnumber
  | string => exact absurd hkind hstring
  | comment => rfl
  | identifier => rfl
  | keyword =>
    rw [if_neg (by decide), normalizedText]
    split
    · rfl
    · exact String.ofList_toList
  | _ => exact String.ofList_toList

/-- Blinding identifiers keeps a text or leaves the placeholder. -/
theorem normalizedText_identifierBlind (g : Grammar) (kind : TokenKind) (chars : List Char) :
    g.normalizedText .identifierBlind kind chars = g.normalizedText .raw kind chars ∨
      g.normalizedText .identifierBlind kind chars = identifierPlaceholder ∧
        g.normalizedText .full kind chars = identifierPlaceholder := by
  cases kind with
  | identifier => exact .inr ⟨rfl, rfl⟩
  | keyword =>
    by_cases hprimitive : g.isPrimitiveType (String.ofList chars) = true
    · exact .inr (by simp [normalizedText, Normalization.blindsIdentifiers, hprimitive])
    · exact .inl (by simp [normalizedText, Normalization.blindsIdentifiers, hprimitive])
  | _ => exact .inl rfl

/-- The text at a coarser level is a function of the text at a finer one. -/
theorem exists_recoding (hg : g.Unambiguous) {finer coarser : Normalization}
    (hle : finer.Refines coarser) : ∃ f : String → String, ∀ ctx c more after kind,
      g.Reads ctx c (more ++ after) kind (more.length + 1) →
        f (g.normalizedText finer kind (c :: more)) =
          g.normalizedText coarser kind (c :: more) := by
  by_cases heq : finer = coarser
  · exact ⟨id, fun ctx c more after kind _ => by rw [heq, id]⟩
  refine ⟨g.recode coarser, fun ctx c more after kind h => ?_⟩
  cases finer with
  | raw => exact recode_raw hg h
  | identifierBlind =>
    cases coarser with
    | raw => exact absurd hle (by decide)
    | identifierBlind => exact absurd rfl heq
    | full =>
      rcases g.normalizedText_identifierBlind kind (c :: more) with hraw | ⟨hblind, hfull⟩
      · rw [hraw, recode_raw hg h]
      · rw [hblind, hfull, recode_identifierPlaceholder hg]
  | full =>
    cases coarser with
    | full => exact absurd rfl heq
    | _ => exact absurd hle (by decide)

end Grammar

/-! ## Streams -/

/-- What a token is and where it stands. -/
def Token.place (t : Token) : TokenKind × Nat × Nat :=
  (t.kind, t.start, t.stop)

/-- A stream with other texts. -/
def TokenStream.recode (f : String → String) (tokens : TokenStream) : TokenStream :=
  tokens.map fun t => { t with text := f t.text }

/-- The text of a token of some streams. -/
def textAt (streams : List TokenStream) (s i : Nat) : Option String :=
  streams[s]?.bind fun tokens => tokens[i]?.map Token.text

section Recode

variable (f : String → String) (tokens : TokenStream) (streams : List TokenStream)

@[simp]
theorem size_recode : (tokens.recode f).size = tokens.size := by
  simp [TokenStream.recode]

theorem texts_recode : (tokens.recode f).texts = tokens.texts.map f := by
  simp [TokenStream.recode, TokenStream.texts]

/-- Texts that become equal make runs longer. -/
theorem exists_maximalRun_recode {x y : TokenStream} {i j n : Nat}
    (h : MaximalRun x.texts y.texts i j n) : ∃ i' j' n',
      MaximalRun (x.recode f).texts (y.recode f).texts i' j' n' ∧ i' ≤ i ∧ i + n ≤ i' + n' ∧
      i + j' = j + i' := by
  have hequal : EqualRun (x.recode f).texts (y.recode f).texts i j n := by
    rw [texts_recode, texts_recode]
    refine h.run.congr Array.size_map.symm Array.size_map.symm fun p q _ _ he => ?_
    rw [Array.getElem?_map, Array.getElem?_map, he]
  exact hequal.exists_maximal

theorem map_place_recode : (tokens.recode f).map Token.place = tokens.map Token.place := by
  simp [TokenStream.recode, Function.comp_def, Token.place]

theorem textAt_map_recode (s i : Nat) :
    textAt (streams.map (TokenStream.recode f)) s i = (textAt streams s i).map f := by
  rw [textAt, textAt, List.getElem?_map]
  cases streams[s]? with
  | none => rfl
  | some tokens => simp [TokenStream.recode, Function.comp_def]

end Recode

namespace Language

/-- At a coarser level a source has the tokens that it has at a finer level, with other texts. -/
theorem exists_recoding (language : Language) {finer coarser : Normalization}
    (hle : finer.Refines coarser) (comments noise : Bool) : ∃ f : String → String, ∀ source,
      language.tokenize source ⟨coarser, comments, noise⟩ =
        (language.tokenize source ⟨finer, comments, noise⟩).map (TokenStream.recode f) := by
  obtain ⟨f, hf⟩ := Grammar.exists_recoding language.unambiguous hle
  refine ⟨f, fun source => ?_⟩
  unfold tokenize
  split
  · rfl
  · split
    · rfl
    case h_2 lexemes hlexemes =>
      have htokens : ∀ l ∈ lexemes, language.grammar.tokenOf coarser l =
          { language.grammar.tokenOf finer l with
            text := f (language.grammar.tokenOf finer l).text } := fun l hl => by
        obtain ⟨ctx, c, more, after, hchars, -, hreads⟩ := exists_reads_of_mem_lex hlexemes hl
        simp only [Grammar.tokenOf, hchars, hf ctx c more after _ hreads]
      simp only [Except.map, Grammar.tokensOf, TokenStream.recode, List.map_toArray, List.map_map]
      congr 2
      exact List.map_congr_left fun l hl => htokens l (List.mem_of_mem_filter hl)

end Language

/-! ## Matches -/

namespace Match

/-- Every match lies in one of the streams with other texts, on its diagonal. -/
theorem exists_isMatch_recode {streams : List TokenStream} {revisions : List Nat} {query : Query}
    {c : Candidate} (f : String → String) (h : IsMatch streams revisions query c) :
    ∃ d, IsMatch (streams.map (TokenStream.recode f)) revisions query d ∧ d.Covers c ∧
      c.a.start + d.b.start = c.b.start + d.a.start := by
  obtain ⟨s, t, i, j, n, x, y, hx, hy, hlt, hrevisions, hmin, hrun, rfl⟩ := h
  obtain ⟨i', j', n', hmaximal, hstart, hstop, hdiagonal⟩ := exists_maximalRun_recode f hrun
  refine ⟨⟨⟨s, i', i' + n'⟩, ⟨t, j', j' + n'⟩, n'⟩, ⟨s, t, i', j', n', x.recode f, y.recode f, ?_,
    ?_, hlt, hrevisions, by omega, hmaximal, rfl⟩, ⟨⟨rfl, hstart, hstop⟩, ⟨rfl, ?_, ?_⟩, ?_⟩,
    hdiagonal⟩
  · rw [List.getElem?_map, hx, Option.map_some]
  · rw [List.getElem?_map, hy, Option.map_some]
  all_goals dsimp only; omega

end Match

/-! ## A list of sources -/

theorem mapM_map {α β ε : Type} {p q : α → Except ε β} {f : β → β} (h : ∀ a, q a = (p a).map f)
    (l : List α) : l.mapM q = (l.mapM p).map (List.map f) := by
  induction l with
  | nil => rfl
  | cons a l ih =>
    rw [List.mapM_cons, List.mapM_cons, ih, h]
    cases p a with
    | error e => rfl
    | ok b => cases l.mapM p <;> rfl

/-- **Normalization only coarsens.** Sources of one language can be read at one level if they can be
at another one. At the coarser level their tokens have the same kinds and places, texts that were
equal are equal, and each match found at the finer level lies in one on its diagonal. -/
theorem normalization_coarsens (language : Language) (sources : List ByteArray)
    (comments noise : Bool) {finer coarser : Normalization} (hle : finer.Refines coarser) :
    ((∃ streams, sources.mapM (language.tokenize · ⟨finer, comments, noise⟩) = .ok streams) ↔
      ∃ streams, sources.mapM (language.tokenize · ⟨coarser, comments, noise⟩) = .ok streams) ∧
    ∀ streams streams', sources.mapM (language.tokenize · ⟨finer, comments, noise⟩) = .ok streams →
      sources.mapM (language.tokenize · ⟨coarser, comments, noise⟩) = .ok streams' →
      streams'.map (·.map Token.place) = streams.map (·.map Token.place) ∧
      (∀ s i t j, textAt streams s i = textAt streams t j →
        textAt streams' s i = textAt streams' t j) ∧
      ∀ (revisions : List Nat) (query : Match.Query) (index index' : TokenIndex),
        1 ≤ query.minLength → query.maxGap = 0 →
        TokenIndex.build streams revisions .suffixArray query.minLength query.maxBucket =
          .ok index →
        TokenIndex.build streams' revisions .suffixArray query.minLength query.maxBucket =
          .ok index' →
        (Match.find index query).truncated = 0 → (Match.find index' query).truncated = 0 →
        ∀ c ∈ (Match.find index query).candidates, ∃ d ∈ (Match.find index' query).candidates,
          d.Covers c ∧ c.a.start + d.b.start = c.b.start + d.a.start := by
  obtain ⟨f, hf⟩ := language.exists_recoding hle comments noise
  rw [mapM_map hf sources]
  constructor
  · cases sources.mapM (language.tokenize · ⟨finer, comments, noise⟩) <;> simp [Except.map]
  · intro streams streams' hstreams hstreams'
    rw [hstreams] at hstreams'
    cases hstreams'
    refine ⟨?_, fun s i t j htext => ?_, ?_⟩
    · rw [List.map_map]
      exact List.map_congr_left fun tokens _ => map_place_recode f tokens
    · rw [textAt_map_recode, textAt_map_recode, htext]
    · intro revisions query index index' hmin hgap hb hb' ht ht' c hc
      rw [Match.mem_candidates_iff hmin hb nofun hgap ht] at hc
      obtain ⟨d, hd, hcovers, hdiagonal⟩ := Match.exists_isMatch_recode f hc
      rw [← Match.mem_candidates_iff hmin hb' nofun hgap ht'] at hd
      exact ⟨d, hd, hcovers, hdiagonal⟩

/-- Two assignments that differ in a name. -/
def assignments : List ByteArray :=
  ["x = 1".toUTF8, "y = 1".toUTF8]

/-- The streams of two assignments with the given names. -/
def assignmentStreams (names : List String) : List TokenStream :=
  names.map fun name =>
    #[⟨.identifier, name, 0, 1⟩, ⟨.punctuation, "=", 2, 3⟩, ⟨.number, "1", 4, 5⟩]

theorem normalization_coarsens_assignments : ∃ index index',
    TokenIndex.build (assignmentStreams ["x", "y"]) [0, 1] .suffixArray 2 8 = .ok index ∧
      TokenIndex.build (assignmentStreams ["$id", "$id"]) [0, 1] .suffixArray 2 8 = .ok index' ∧
      ⟨⟨0, 1, 3⟩, ⟨1, 1, 3⟩, 2⟩ ∈ (Match.find index ⟨2, 0, 8, true⟩).candidates ∧
      ∃ d ∈ (Match.find index' ⟨2, 0, 8, true⟩).candidates,
        d.Covers ⟨⟨0, 1, 3⟩, ⟨1, 1, 3⟩, 2⟩ ∧ 1 + d.b.start = 1 + d.a.start := by
  have hraw : assignments.mapM (Language.java.tokenize · ⟨.raw, false, false⟩) =
      .ok (assignmentStreams ["x", "y"]) := by
    decide +kernel
  have hblind : assignments.mapM (Language.java.tokenize · ⟨.identifierBlind, false, false⟩) =
      .ok (assignmentStreams ["$id", "$id"]) := by
    decide +kernel
  have hrevisions : (assignmentStreams ["x", "y"]).length = [0, 1].length := rfl
  obtain ⟨index, hindex⟩ :=
    TokenIndex.exists_build_eq_ok .suffixArray 2 8 hrevisions (by decide)
  have hrevisions' : (assignmentStreams ["$id", "$id"]).length = [0, 1].length := rfl
  obtain ⟨index', hindex'⟩ :=
    TokenIndex.exists_build_eq_ok .suffixArray 2 8 hrevisions' (by decide)
  have ht : (Match.find index ⟨2, 0, 8, true⟩).truncated = 0 :=
    Match.truncated_eq_zero_of_le hindex (by decide)
  have ht' : (Match.find index' ⟨2, 0, 8, true⟩).truncated = 0 :=
    Match.truncated_eq_zero_of_le hindex' (by decide)
  have hmatch : Match.IsMatch (assignmentStreams ["x", "y"]) [0, 1] ⟨2, 0, 8, true⟩
      ⟨⟨0, 1, 3⟩, ⟨1, 1, 3⟩, 2⟩ :=
    ⟨0, 1, 1, 1, 2, _, _, rfl, rfl, by decide, by decide, by decide, by decide +kernel, rfl⟩
  have hc : ⟨⟨0, 1, 3⟩, ⟨1, 1, 3⟩, 2⟩ ∈ (Match.find index ⟨2, 0, 8, true⟩).candidates := by
    have hbucket : Strategy.suffixArray = .winnowing → 1 ≤ 8 := nofun
    exact (Match.mem_candidates_iff (by decide) hindex hbucket rfl ht).mpr hmatch
  obtain ⟨-, hstreams⟩ := normalization_coarsens .java assignments false false
    (show Normalization.raw.Refines .identifierBlind by decide)
  exact ⟨index, index', hindex, hindex', hc, (hstreams _ _ hraw hblind).2.2 _ _ _ _ (by decide) rfl
    hindex hindex' ht ht' _ hc⟩

end CloneDetection
