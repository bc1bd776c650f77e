import CloneDetection.Token.Stream
import Mathlib.Data.List.Basic

/-!
# Where tokens stand in a source

The pieces of a text make it up (`cut_spec`), so a token starts and stops at offsets that are sizes
of beginnings of the text, its boundaries. The bytes between two boundaries encode a part of the text
(`Boundary.isValidUTF8_extract`). The tokens of a source are not empty and follow one another
(`TokenStream.Ordered`), and the bytes from one to a later one are well-formed
(`TokenStream.Placed.exists_byteRange`).
-/

namespace CloneDetection

/-! ## Boundaries -/

namespace Text

theorem size_utf8Encode (cs : List Char) : cs.utf8Encode.size = byteSize cs := by
  induction cs with
  | nil => rfl
  | cons c cs ih =>
    rw [List.utf8Encode_cons, ByteArray.size_append, ih, List.utf8Encode_singleton, byteSize_cons,
      List.size_toByteArray, String.length_utf8EncodeChar]

/-- The size of a beginning of a text. -/
def Boundary (cs : List Char) (n : Nat) : Prop :=
  ∃ before after, cs = before ++ after ∧ n = byteSize before

variable {cs : List Char} {m n : Nat}

/-- Two boundaries of a text bound a part of it. -/
theorem Boundary.exists_part (hm : Boundary cs m) (hn : Boundary cs n) (hle : m ≤ n) :
    ∃ before part after, cs = before ++ part ++ after ∧ m = byteSize before ∧
      n = byteSize before + byteSize part := by
  obtain ⟨before, rest, rfl, rfl⟩ := hm
  obtain ⟨before', after, hcs, rfl⟩ := hn
  rcases List.append_eq_append_iff.mp hcs with ⟨part, rfl, rfl⟩ | ⟨part, rfl, rfl⟩
  · exact ⟨before, part, after, (List.append_assoc _ _ _).symm, rfl, byteSize_append _ _⟩
  · obtain rfl : part = [] := by
      by_contra hne
      have := byteSize_pos hne
      rw [byteSize_append] at hle
      omega
    exact ⟨before', [], rest, by simp, by simp, by simp⟩

/-- The bytes of a part of a text. -/
theorem extract_utf8Encode (before part after : List Char) :
    (before ++ part ++ after).utf8Encode.extract (byteSize before)
      (byteSize before + byteSize part) = part.utf8Encode := by
  rw [List.utf8Encode_append, ByteArray.extract_append, List.utf8Encode_append,
    ByteArray.extract_append_eq_right (size_utf8Encode before).symm
      (by rw [size_utf8Encode, size_utf8Encode])]
  simp [size_utf8Encode]

/-- The bytes between two boundaries of a text are well-formed. -/
theorem Boundary.isValidUTF8_extract (hm : Boundary cs m) (hn : Boundary cs n) (hle : m ≤ n) :
    n ≤ cs.utf8Encode.size ∧ (cs.utf8Encode.extract m n).IsValidUTF8 := by
  obtain ⟨before, part, after, rfl, rfl, rfl⟩ := hm.exists_part hn hle
  constructor
  · rw [size_utf8Encode, byteSize_append, byteSize_append]
    omega
  · rw [extract_utf8Encode]
    exact ByteArray.isValidUTF8_utf8Encode

end Text

/-! ## Pieces and lexemes -/

/-- Cutting goes on with pieces that are not empty and make up the rest of the text. -/
theorem cutFrom_spec {g : Grammar} {ctx : Context} {done pieces : List Piece} {cs : List Char}
    (h : cutFrom g ctx done cs = .ok pieces) : ∃ rest, pieces = done.reverse ++ rest ∧
      rest.flatMap Piece.chars = cs ∧ ∀ piece ∈ rest, piece.chars ≠ [] := by
  fun_induction cutFrom g ctx done cs with
  | case1 ctx done =>
    cases h
    exact ⟨[], (List.append_nil _).symm, rfl, by simp⟩
  | case2 => cases h
  | case3 ctx done c cs role n hnext piece ih =>
    obtain ⟨rest, rfl, hrest, hne⟩ := ih h
    refine ⟨piece :: rest, by simp, ?_, ?_⟩
    · rw [List.flatMap_cons, hrest, List.cons_append, List.take_append_drop]
    · exact List.forall_mem_cons.mpr ⟨List.cons_ne_nil _ _, hne⟩

/-- The pieces of a text are not empty and make it up. -/
theorem cut_spec {g : Grammar} {cs : List Char} {pieces : List Piece}
    (h : cut g cs = .ok pieces) :
    pieces.flatMap Piece.chars = cs ∧ ∀ piece ∈ pieces, piece.chars ≠ [] := by
  obtain ⟨rest, rfl, hspec⟩ := cutFrom_spec h
  exact hspec

theorem lexemesFrom_eq (offset : Nat) (found : List Lexeme) (pieces : List Piece) :
    lexemesFrom offset found pieces = found.reverse ++ lexemesFrom offset [] pieces := by
  induction pieces generalizing offset found with
  | nil => simp [lexemesFrom]
  | cons piece pieces ih =>
    rw [lexemesFrom, lexemesFrom]
    split
    · rw [ih, ih _ [_]]
      simp
    · exact ih _ _

theorem lexemesFrom_token (offset : Nat) (kind : TokenKind) (chars : List Char)
    (pieces : List Piece) :
    lexemesFrom offset [] (⟨.token kind, chars⟩ :: pieces) =
      ⟨kind, chars, offset⟩ :: lexemesFrom (offset + Text.byteSize chars) [] pieces :=
  lexemesFrom_eq _ [_] _

/-- A lexeme stands in a text that starts at an offset. -/
def Lexeme.StandsIn (l : Lexeme) (offset : Nat) (cs : List Char) : Prop :=
  l.chars ≠ [] ∧ ∃ before after, cs = before ++ l.chars ++ after ∧
    l.start = offset + Text.byteSize before

theorem Lexeme.StandsIn.append_left {l : Lexeme} {offset : Nat} {cs : List Char} (ds : List Char)
    (h : l.StandsIn (offset + Text.byteSize ds) cs) : l.StandsIn offset (ds ++ cs) := by
  obtain ⟨hne, before, after, rfl, hstart⟩ := h
  refine ⟨hne, ds ++ before, after, by simp, ?_⟩
  rw [hstart, Text.byteSize_append, Nat.add_assoc]

theorem Lexeme.StandsIn.start_ge {l : Lexeme} {offset : Nat} {cs : List Char}
    (h : l.StandsIn offset cs) : offset ≤ l.start := by
  obtain ⟨-, before, after, -, hstart⟩ := h
  omega

/-- The tokens among some pieces stand in their text, each after the one before. -/
theorem lexemesFrom_spec {offset : Nat} {pieces : List Piece}
    (h : ∀ piece ∈ pieces, piece.chars ≠ []) :
    (∀ l ∈ lexemesFrom offset [] pieces, l.StandsIn offset (pieces.flatMap Piece.chars)) ∧
      (lexemesFrom offset [] pieces).Pairwise fun l m => l.stop ≤ m.start := by
  induction pieces generalizing offset with
  | nil => simp [lexemesFrom]
  | cons piece pieces ih =>
    obtain ⟨hpiece, hpieces⟩ := List.forall_mem_cons.mp h
    obtain ⟨hin, hordered⟩ := @ih (offset + Text.byteSize piece.chars) hpieces
    have hlater : ∀ l ∈ lexemesFrom (offset + Text.byteSize piece.chars) [] pieces,
        l.StandsIn offset ((piece :: pieces).flatMap Piece.chars) :=
      fun l hl => (hin l hl).append_left piece.chars
    rw [lexemesFrom]
    split
    · rename_i kind hrole
      rw [lexemesFrom_eq, List.reverse_singleton, List.singleton_append, List.forall_mem_cons,
        List.pairwise_cons]
      refine ⟨⟨⟨hpiece, [], pieces.flatMap Piece.chars, ?_, rfl⟩, hlater⟩, fun l hl => ?_, hordered⟩
      · simp
      · exact (hin l hl).start_ge
    · exact ⟨hlater, hordered⟩

/-- The tokens of a text stand in it, each after the one before. -/
theorem lex_spec {g : Grammar} {cs : List Char} {lexemes : List Lexeme}
    (h : lex g cs = .ok lexemes) : (∀ l ∈ lexemes, l.StandsIn 0 cs) ∧
      lexemes.Pairwise fun l m => l.stop ≤ m.start := by
  obtain ⟨pieces, hcut, rfl⟩ := lex_eq_ok_iff.mp h
  obtain ⟨rfl, hne⟩ := cut_spec hcut
  exact lexemesFrom_spec hne

/-! ## Tokens -/

namespace TokenStream

/-- Tokens that are not empty and follow one another. -/
structure Ordered (tokens : TokenStream) : Prop where
  start_lt_stop : ∀ t ∈ tokens, t.start < t.stop
  pairwise : tokens.toList.Pairwise fun t u => t.stop ≤ u.start

/-- Tokens that stand in a source: it encodes a text, and they start and stop at its boundaries. -/
structure Placed (tokens : TokenStream) (source : ByteArray) : Prop extends Ordered tokens where
  boundaries : ∃ cs : List Char, source = cs.utf8Encode ∧
    ∀ t ∈ tokens, Text.Boundary cs t.start ∧ Text.Boundary cs t.stop

namespace Ordered

variable {tokens : TokenStream} (h : tokens.Ordered) {i j : Nat} {t u : Token}

include h

theorem stop_le_start (hi : tokens[i]? = some t) (hj : tokens[j]? = some u) (hlt : i < j) :
    t.stop ≤ u.start := by
  obtain ⟨hi', rfl⟩ := Array.getElem?_eq_some_iff.mp hi
  obtain ⟨hj', rfl⟩ := Array.getElem?_eq_some_iff.mp hj
  exact List.pairwise_iff_getElem.mp h.pairwise i j hi' hj' hlt

theorem lt_of_getElem? (hi : tokens[i]? = some t) : t.start < t.stop :=
  h.start_lt_stop t (Array.mem_of_getElem? hi)

/-- The starts and the stops are in the order of the tokens. -/
theorem le_iff (hi : tokens[i]? = some t) (hj : tokens[j]? = some u) :
    (t.start ≤ u.start ↔ i ≤ j) ∧ (t.stop ≤ u.stop ↔ i ≤ j) := by
  have ht := h.lt_of_getElem? hi
  have hu := h.lt_of_getElem? hj
  rcases Nat.lt_trichotomy i j with hlt | rfl | hlt
  · have := h.stop_le_start hi hj hlt
    omega
  · rw [hi, Option.some.injEq] at hj
    simp [hj]
  · have := h.stop_le_start hj hi hlt
    omega

end Ordered

/-- The bytes from one token to a later one are a well-formed part of the source. -/
theorem Placed.exists_byteRange {tokens : TokenStream} {source : ByteArray}
    (h : tokens.Placed source) {first last : Nat} (hlt : first < last)
    (hlast : last ≤ tokens.size) : ∃ start stop, tokens.byteRange first last = some (start, stop) ∧
      start ≤ stop ∧ stop ≤ source.size ∧ (source.extract start stop).IsValidUTF8 := by
  obtain ⟨cs, rfl, hboundaries⟩ := h.boundaries
  have hhead := Array.getElem?_eq_getElem (show first < tokens.size by omega)
  have htail := Array.getElem?_eq_getElem (show last - 1 < tokens.size by omega)
  have hpos := h.lt_of_getElem? htail
  have hle := (h.le_iff hhead htail).1.mpr (by omega)
  have hbounds := (hboundaries _ (Array.mem_of_getElem? hhead)).1.isValidUTF8_extract
    (hboundaries _ (Array.mem_of_getElem? htail)).2 (by omega)
  exact ⟨_, _, byteRange_eq_some_iff.mpr ⟨hlt, _, _, hhead, htail, rfl, rfl⟩, by omega, hbounds⟩

end TokenStream

theorem Text.eq_utf8Encode_of_decode {source : ByteArray} {text : String}
    (h : decode source = .ok text) : source = text.toList.utf8Encode := by
  rw [decode] at h
  split at h
  · rename_i s hs
    cases h
    rw [String.fromUTF8?] at hs
    split at hs
    · rename_i hvalid
      cases hs
      exact (String.utf8Encode_toList (b := String.fromUTF8 source hvalid)).symm
    · cases hs
  · cases h

theorem tokenize_eq_ok {source : ByteArray} {tag : String} {options : TokenizeOptions}
    {tokens : TokenStream} (h : tokenize source tag options = .ok tokens) :
    ∃ (language : Language) (cs : List Char) (lexemes : List Lexeme), source = cs.utf8Encode ∧
      lex language.grammar cs = .ok lexemes ∧
        tokens = language.grammar.tokensOf options lexemes := by
  rw [tokenize] at h
  split at h
  · cases h
  · rename_i language hlanguage
    rw [Language.tokenize] at h
    split at h
    · cases h
    · rename_i text htext
      split at h
      · cases h
      · rename_i lexemes hlexemes
        exact ⟨language, text.toList, lexemes, Text.eq_utf8Encode_of_decode htext, hlexemes,
          (Except.ok.inj h).symm⟩

/-- A token has the place of a lexeme. -/
theorem Grammar.exists_lexeme_of_mem_tokensOf {g : Grammar} {options : TokenizeOptions}
    {lexemes : List Lexeme} {t : Token} (h : t ∈ g.tokensOf options lexemes) :
    ∃ l ∈ lexemes, t.start = l.start ∧ t.stop = l.stop := by
  rw [tokensOf, List.mem_toArray, List.mem_map] at h
  obtain ⟨l, hl, rfl⟩ := h
  exact ⟨l, List.mem_of_mem_filter hl, rfl, rfl⟩

/-- The tokens of a source stand in it. -/
theorem placed_of_tokenize {source : ByteArray} {tag : String} {options : TokenizeOptions}
    {tokens : TokenStream} (h : tokenize source tag options = .ok tokens) :
    tokens.Placed source := by
  obtain ⟨language, cs, lexemes, rfl, hlex, rfl⟩ := tokenize_eq_ok h
  obtain ⟨hin, hordered⟩ := lex_spec hlex
  refine ⟨⟨fun t ht => ?_, ?_⟩, cs, rfl, fun t ht => ?_⟩
  · obtain ⟨l, hl, hstart, hstop⟩ := Grammar.exists_lexeme_of_mem_tokensOf ht
    obtain ⟨hne, -⟩ := hin l hl
    rw [hstart, hstop, Lexeme.stop]
    exact Nat.lt_add_of_pos_right (Text.byteSize_pos hne)
  · rw [Grammar.tokensOf, List.toList_toArray, List.pairwise_map]
    exact hordered.sublist List.filter_sublist
  · obtain ⟨l, hl, hstart, hstop⟩ := Grammar.exists_lexeme_of_mem_tokensOf ht
    obtain ⟨-, before, after, rfl, hbefore⟩ := hin l hl
    rw [Nat.zero_add] at hbefore
    rw [hstart, hstop, Lexeme.stop, hbefore]
    exact ⟨⟨before, l.chars ++ after, List.append_assoc _ _ _, rfl⟩,
      ⟨before ++ l.chars, after, rfl, (Text.byteSize_append _ _).symm⟩⟩

end CloneDetection
