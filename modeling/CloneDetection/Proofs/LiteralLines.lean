import CloneDetection.Proofs.CarriageReturns
import CloneDetection.Proofs.Kinds
import Mathlib.Data.List.Find

/-!
# Literals with carriage returns

With carriage returns in front of its newlines, a literal is read up to the same mark, whatever
opens it (`Grammar.Literate.stringLiteral_withReturns`). There is one exception, a literal in plain
marks that has to end on its line and goes on after an escaped newline (`Grammar.escapesLineEnd`):
then the carriage return is escaped, and the literal does not end. This holds in every grammar in
which the letters in front of a mark tell how the literal ends (`Grammar.Literate`), and the
grammars of all languages are of this sort (`Language.literate`).
-/

namespace CloneDetection

open Text

/-- The characters of a list are looked at one by one, not all characters there are. -/
local instance decidableForallMemLetter (l : List Char) (p : Char → Prop) [DecidablePred p] :
    Decidable (∀ c ∈ l, p c) :=
  List.decidableBAll p l

namespace Grammar

variable {g : Grammar} {c : Char} {cs letters : List Char} {n : Nat}

/-! ## Letters in front of a mark -/

/-- What a literal starts with that is not in plain marks. -/
def otherOpenings (g : Grammar) : List (List Char) :=
  ['/'] :: g.verbatimPrefixes ++ if g.rawStrings then [['r'], ['b', 'r'], ['c', 'r']] else []

/-- Letters in either case are neither line ends nor marks. -/
def Solid (letters : List Char) : Prop :=
  ∀ c ∈ letters.map Char.toLower, c ∉ ['\n', '\r', '"', '\'', '\x60']

instance decidableSolid (letters : List Char) : Decidable (Solid letters) :=
  List.decidableBAll _ _

/-- A grammar in which the letters in front of a mark tell how the literal ends. -/
structure Literate (g : Grammar) : Prop extends Unambiguous g where
  solid : ∀ letters ∈ g.stringPrefixes ++ g.otherOpenings, Solid letters
  apart : ∀ opening ∈ g.otherOpenings, ∀ letters ∈ [] :: g.stringPrefixes,
    ¬ opening.map Char.toLower <+: letters.map Char.toLower
  triple : ∀ mark ∈ g.tripleQuotes, mark ∈ g.quotes.map (·.mark)

theorem toLower_eq_newline_iff : c.toLower = '\n' ↔ c = '\n' := by
  refine ⟨fun h => ?_, by rintro rfl; rfl⟩
  unfold Char.toLower at h
  split at h
  case isTrue hcapital =>
    -- a capital becomes a letter
    have hvalue := congrArg (·.val.toNat) h
    have hlow := UInt32.le_iff_toNat_le.mp hcapital.1
    have hhigh := UInt32.le_iff_toNat_le.mp hcapital.2
    simp at hvalue hlow hhigh
    omega
  case isFalse => exact h

theorem map_toLower_withReturns (cs : List Char) :
    (withReturns cs).map Char.toLower = withReturns (cs.map Char.toLower) := by
  induction cs with
  | nil => rfl
  | cons c cs ih =>
    by_cases hc : c = '\n'
    · subst hc
      simp [ih]
    · rw [withReturns_cons hc, List.map_cons, List.map_cons,
        withReturns_cons (mt toLower_eq_newline_iff.mp hc), ih]

theorem startsWithAnyCase_iff :
    startsWithAnyCase letters cs = true ↔ letters.map Char.toLower <+: cs.map Char.toLower := by
  rw [startsWithAnyCase, beq_iff_eq, List.prefix_iff_eq_take, List.length_map, List.map_take,
    eq_comm]

theorem startsWithAnyCase_append (mark rest : List Char) :
    startsWithAnyCase mark (mark ++ rest) = true := by
  rw [startsWithAnyCase_iff, List.map_append]
  exact List.prefix_append _ _

theorem startsWithAnyCase_take (h : startsWithAnyCase letters cs = true)
    (hn : letters.length ≤ n) : startsWithAnyCase letters (cs.take n) = true := by
  rw [startsWithAnyCase_iff, List.map_take, List.prefix_take_iff, List.length_map]
  exact ⟨startsWithAnyCase_iff.mp h, hn⟩

theorem startsWithAnyCase_withReturns (h : Solid letters) (cs : List Char) :
    startsWithAnyCase letters (withReturns cs) = startsWithAnyCase letters cs := by
  rw [Bool.eq_iff_iff, startsWithAnyCase_iff, startsWithAnyCase_iff, map_toLower_withReturns,
    prefix_withReturns_iff (fun hmem => h _ hmem (by simp)) (fun hmem => h _ hmem (by simp))]

/-- Letters stand on one line. -/
theorem onLine_of_startsWithAnyCase (h : Solid letters)
    (hstarts : startsWithAnyCase letters cs = true) : OnLine cs letters.length := by
  have hprefix := startsWithAnyCase_iff.mp hstarts
  refine ⟨by simpa using hprefix.length_le, fun hmem => ?_⟩
  rw [startsWithAnyCase, beq_iff_eq] at hstarts
  have hlower := List.mem_map_of_mem (f := Char.toLower) hmem
  rw [hstarts] at hlower
  exact h _ hlower (by decide)

/-- A text starts with no more letters than stand in front of its first mark. -/
theorem length_le_of_startsWithAnyCase (h : Solid letters)
    (hstarts : startsWithAnyCase letters cs = true) {mark : Char}
    (hmark : mark ∈ ['"', '\'', '\x60']) (hnext : (cs.drop n).head? = some mark) :
    letters.length ≤ n := by
  by_contra! hlt
  have hprefix := startsWithAnyCase_iff.mp hstarts
  have hlower : ∀ d ∈ ['"', '\'', '\x60'], d.toLower = d := by decide
  rw [List.head?_drop] at hnext
  have hletter : (letters.map Char.toLower)[n]? = some mark := by
    obtain ⟨rest, hrest⟩ := hprefix
    rw [← List.getElem?_append_left (by simpa using hlt), hrest]
    simp [hnext, hlower mark hmark]
  exact h _ (List.mem_of_getElem? hletter) (by simp_all)

/-- Whether a text starts with a mark that opens a literal. -/
def opensQuote (g : Grammar) (cs : List Char) : Bool :=
  cs.head?.any fun c => g.quotes.any (·.mark == c)

theorem opensQuote_iff : g.opensQuote cs = true ↔ ∃ q ∈ g.quotes, cs.head? = some q.mark := by
  simp only [opensQuote, Option.any_eq_true, List.any_eq_true, beq_iff_eq]
  refine ⟨?_, ?_⟩
  · rintro ⟨c, hc, q, hq, rfl⟩
    exact ⟨q, hq, hc⟩
  · rintro ⟨q, hq, hc⟩
    exact ⟨q.mark, hc, q, hq, rfl⟩

theorem literalPrefixLength_eq_find? (g : Grammar) (cs : List Char) : g.literalPrefixLength cs =
    ((g.stringPrefixes.find? fun letters => startsWithAnyCase letters cs &&
      g.opensQuote (cs.drop letters.length)).map List.length).getD 0 := by
  unfold literalPrefixLength
  dsimp only
  congr 3
  funext letters
  congr 1
  unfold opensQuote
  split
  case h_1 hnil => rw [hnil]; rfl
  case h_2 hcons => rw [hcons]; rfl

namespace Literate

theorem mark_ne (hg : g.Literate) {q : Quote} (hq : q ∈ g.quotes) :
    q.mark ≠ '\n' ∧ q.mark ≠ '\r' := by
  have hmarks : ∀ d ∈ ['"', '\'', '\x60'], d ≠ '\n' ∧ d ≠ '\r' := by decide
  exact hmarks _ (hg.marks _ (mem_closingMarks_of_quote hq))

theorem opensQuote_withReturns (hg : g.Literate) (cs : List Char) :
    g.opensQuote (withReturns cs) = g.opensQuote cs := by
  refine any_head?_withReturns ?_ ?_ cs
  · simpa using fun q hq => (hg.mark_ne hq).1
  · simpa using fun q hq => (hg.mark_ne hq).2

theorem literalPrefixLength_withReturns (hg : g.Literate) (cs : List Char) :
    g.literalPrefixLength (withReturns cs) = g.literalPrefixLength cs := by
  rw [literalPrefixLength_eq_find?, literalPrefixLength_eq_find?]
  congr 2
  refine List.find?_congr fun letters hletters => ?_
  have hsolid := hg.solid letters (List.mem_append_left _ hletters)
  rw [startsWithAnyCase_withReturns hsolid]
  cases hstarts : startsWithAnyCase letters cs with
  | false => rfl
  | true =>
    rw [drop_withReturns (onLine_of_startsWithAnyCase hsolid hstarts).newline,
      hg.opensQuote_withReturns]

/-- The letters in front of a mark are among those that the grammar allows, or there are none. -/
theorem exists_letters (g : Grammar) (cs : List Char) : ∃ letters ∈ [] :: g.stringPrefixes,
    startsWithAnyCase letters cs = true ∧ g.literalPrefixLength cs = letters.length := by
  rcases g.literalPrefixLength_cases cs with hzero | ⟨letters, hletters, hstarts, hlength⟩
  · exact ⟨[], List.mem_cons_self, rfl, hzero⟩
  · exact ⟨letters, List.mem_cons_of_mem _ hletters, hstarts, hlength⟩

theorem solid_letters (hg : g.Literate) (hletters : letters ∈ [] :: g.stringPrefixes) :
    Solid letters := by
  rcases List.mem_cons.mp hletters with rfl | hletters
  · exact List.forall_mem_nil _
  · exact hg.solid letters (List.mem_append_left _ hletters)

/-- All letters up to a mark are in front of it. -/
theorem literalPrefixLength_eq (hg : g.Literate) (hletters : letters ∈ [] :: g.stringPrefixes)
    (hstarts : startsWithAnyCase letters cs = true)
    (hquote : g.opensQuote (cs.drop letters.length) = true) :
    g.literalPrefixLength cs = letters.length := by
  have hmark {n : Nat} (h : g.opensQuote (cs.drop n) = true) :
      ∃ mark ∈ ['"', '\'', '\x60'], (cs.drop n).head? = some mark := by
    obtain ⟨q, hq, hnext⟩ := opensQuote_iff.mp h
    exact ⟨q.mark, hg.marks _ (mem_closingMarks_of_quote hq), hnext⟩
  obtain ⟨mark, hmem, hnext⟩ := hmark hquote
  rw [literalPrefixLength_eq_find?]
  cases hfind : g.stringPrefixes.find? _ with
  | none =>
    rcases List.mem_cons.mp hletters with rfl | hletters
    · rfl
    · have hnot := List.find?_eq_none.mp hfind letters hletters
      rw [hstarts, hquote] at hnot
      exact absurd rfl hnot
  | some found =>
    have hfound := List.find?_some hfind
    rw [Bool.and_eq_true] at hfound
    obtain ⟨mark', hmem', hnext'⟩ := hmark hfound.2
    have hsolid := hg.solid found (List.mem_append_left _ (List.mem_of_find?_eq_some hfind))
    have hle := length_le_of_startsWithAnyCase hsolid hfound.1 hmem hnext
    have hge := length_le_of_startsWithAnyCase (hg.solid_letters hletters) hstarts hmem' hnext'
    exact Nat.le_antisymm hle hge

/-- The letters in front of a mark are the same in what is cut out behind the mark. -/
theorem literalPrefixLength_take (hg : g.Literate)
    (hquote : g.opensQuote (cs.drop (g.literalPrefixLength cs)) = true)
    (hn : g.literalPrefixLength cs < n) :
    g.literalPrefixLength (cs.take n) = g.literalPrefixLength cs := by
  obtain ⟨letters, hletters, hstarts, hlength⟩ := exists_letters g cs
  rw [hlength] at hquote hn ⊢
  refine hg.literalPrefixLength_eq hletters (startsWithAnyCase_take hstarts (Nat.le_of_lt hn)) ?_
  rw [opensQuote] at hquote ⊢
  rwa [List.drop_take, List.head?_take, if_neg (by omega)]

end Literate

/-! ## Literals that end on their line -/

/-- The mark at the start of a text that opens a literal. -/
def quote? (g : Grammar) (cs : List Char) : Option Quote :=
  cs.head?.bind fun c => g.quotes.find? (·.mark == c)

/-- Whether a literal with the given text is in plain marks and has to end on its line. -/
def endsOnLine (g : Grammar) (chars : List Char) : Bool :=
  let body := chars.drop (g.literalPrefixLength chars)
  (g.tripleMark? body).isNone && (g.quote? body).any (!·.multiline)

/-- Whether a literal with the given text has to end on its line and goes on after a newline, which
a backslash escapes. -/
def escapesLineEnd (g : Grammar) (chars : List Char) : Bool :=
  g.endsOnLine chars && chars.contains '\n'

theorem quote?_eq_some {q : Quote} (h : g.quote? cs = some q) :
    q ∈ g.quotes ∧ cs.head? = some q.mark := by
  obtain ⟨c, hc, hfind⟩ := Option.bind_eq_some_iff.mp h
  have hmark : q.mark = c := by simpa using List.find?_some hfind
  exact ⟨List.mem_of_find?_eq_some hfind, hmark ▸ hc⟩

theorem opensQuote_of_quote? {q : Quote} (h : g.quote? cs = some q) : g.opensQuote cs = true :=
  opensQuote_iff.mpr ⟨q, quote?_eq_some h⟩

theorem tripleMark?_take (h : 3 ≤ n) (cs : List Char) :
    g.tripleMark? (cs.take n) = g.tripleMark? cs := by
  refine List.find?_congr fun mark _ => ?_
  rw [Bool.eq_iff_iff, List.isPrefixOf_iff_prefix, List.isPrefixOf_iff_prefix,
    List.prefix_take_iff, and_iff_left (by simpa using h)]

theorem tripleMark?_take_eq_none (h : g.tripleMark? cs = none) (n : Nat) :
    g.tripleMark? (cs.take n) = none := by
  unfold tripleMark? at h ⊢
  simp only [List.find?_eq_none, List.isPrefixOf_iff_prefix] at h ⊢
  exact fun mark hmark hopens => h mark hmark (hopens.trans (List.take_prefix n cs))

namespace Literate

/-- Letters and a plain mark start nothing else. -/
theorem startsWithAnyCase_eq_false (hg : g.Literate) {opening chars : List Char} {q : Quote}
    (hopening : opening ∈ g.otherOpenings)
    (hquote : g.quote? (chars.drop (g.literalPrefixLength chars)) = some q) :
    startsWithAnyCase opening chars = false := by
  obtain ⟨hq, hnext⟩ := quote?_eq_some hquote
  obtain ⟨letters, hletters, hstarts, hlength⟩ := exists_letters g chars
  rw [hlength] at hnext
  rw [Bool.eq_false_iff]
  intro h
  have hle := length_le_of_startsWithAnyCase (hg.solid opening (List.mem_append_right _ hopening)) h
    (hg.marks _ (mem_closingMarks_of_quote hq)) hnext
  exact hg.apart opening hopening letters hletters (List.prefix_of_prefix_length_le
    (startsWithAnyCase_iff.mp h) (startsWithAnyCase_iff.mp hstarts) (by simpa using hle))

/-- What opens with something else is not in plain marks. -/
theorem endsOnLine_eq_false (hg : g.Literate) {opening chars : List Char}
    (hopening : opening ∈ g.otherOpenings) (h : startsWithAnyCase opening chars = true) :
    g.endsOnLine chars = false := by
  rw [Bool.eq_false_iff]
  intro hline
  rw [endsOnLine, Bool.and_eq_true, Option.any_eq_true] at hline
  obtain ⟨-, q, hquote, -⟩ := hline
  rw [hg.startsWithAnyCase_eq_false hopening hquote] at h
  cases h

/-- A literal in plain marks shows by its text whether it has to end on its line. -/
theorem endsOnLine_take (hg : g.Literate) {q : Quote}
    (htriple : g.tripleMark? (cs.drop (g.literalPrefixLength cs)) = none)
    (hquote : g.quote? (cs.drop (g.literalPrefixLength cs)) = some q)
    (hn : g.literalPrefixLength cs < n) : g.endsOnLine (cs.take n) = !q.multiline := by
  have hsame : g.quote? ((cs.drop (g.literalPrefixLength cs)).take (n - g.literalPrefixLength cs)) =
      some q := by
    rwa [quote?, List.head?_take, if_neg (by omega)]
  unfold endsOnLine
  dsimp only
  rw [hg.literalPrefixLength_take (opensQuote_of_quote? hquote) hn, List.drop_take,
    tripleMark?_take_eq_none htriple, hsame]
  rfl

theorem endsOnLine_take_of_triple (hg : g.Literate) {mark : Char}
    (htriple : g.tripleMark? (cs.drop (g.literalPrefixLength cs)) = some mark)
    (hn : g.literalPrefixLength cs + 3 ≤ n) : g.endsOnLine (cs.take n) = false := by
  obtain ⟨q, hq, rfl⟩ := List.mem_map.mp (hg.triple mark (List.mem_of_find?_eq_some htriple))
  have hquote := opensQuote_iff.mpr ⟨q, hq, head?_eq_of_tripleMark? htriple⟩
  unfold endsOnLine
  dsimp only
  rw [hg.literalPrefixLength_take hquote (by omega), List.drop_take, tripleMark?_take (by omega),
    htriple]
  rfl

theorem quote?_withReturns (hg : g.Literate) (cs : List Char) :
    g.quote? (withReturns cs) = g.quote? cs := by
  cases cs with
  | nil => rfl
  | cons c cs =>
    by_cases hc : c = '\n'
    · subst hc
      have hnone (d : Char) (hd : ∀ q ∈ g.quotes, q.mark ≠ d) (cs : List Char) :
          g.quote? (d :: cs) = none :=
        List.find?_eq_none.mpr fun q hq => by simpa using hd q hq
      rw [withReturns_newline, hnone _ fun q hq => (hg.mark_ne hq).2,
        hnone _ fun q hq => (hg.mark_ne hq).1]
    · rw [withReturns_cons hc]
      rfl

theorem tripleMark?_withReturns (hg : g.Literate) (cs : List Char) :
    g.tripleMark? (withReturns cs) = g.tripleMark? cs := by
  refine List.find?_congr fun mark hmark => ?_
  obtain ⟨q, hq, rfl⟩ := List.mem_map.mp (hg.triple mark hmark)
  have hne := hg.mark_ne hq
  exact isPrefixOf_withReturns (by simp [hne.1.symm]) (by simp [hne.2.symm]) cs

/-- Behind letters, a literal in triple marks ends at the same place. -/
theorem tripleLength_drop (hg : g.Literate) {mark : Char} (escapes : Bool) (hn : OnLine cs n)
    (hmark : g.tripleMark? (cs.drop n) = some mark) :
    Lexeme.tripleLength mark escapes (n + 3) (((withReturns cs).drop n).drop 3) =
      (Lexeme.tripleLength mark escapes (n + 3) ((cs.drop n).drop 3)).map (place cs) := by
  obtain ⟨q, hq, rfl⟩ := List.mem_map.mp (hg.triple mark (List.mem_of_find?_eq_some hmark))
  have hne := hg.mark_ne hq
  have hopens := List.find?_some hmark
  rw [List.isPrefixOf_iff_prefix] at hopens
  rw [List.drop_drop, List.drop_drop]
  exact Lexeme.SameStop.scan_drop (fun m n cs => Lexeme.tripleLength_withReturns hne escapes m n cs)
    (hn.add hopens (by simp [hne.1.symm]))

end Literate

/-! ## Verbatim and raw literals -/

/-- What one of the verbatim marks opens, if it starts a text: the length of a literal, if that
ends. -/
def verbatimAfter (g : Grammar) (cs mark : List Char) : Option (Option Nat) :=
  if startsWithAnyCase mark cs then
    let body := cs.drop mark.length
    match g.tripleMark? body with
    | some quote => some (Lexeme.tripleLength quote false (mark.length + 3) (body.drop 3))
    | none =>
      if body.head? = some '"' then some (Lexeme.verbatimLength (mark.length + 1) (body.drop 1))
      else none
  else none

theorem verbatimLiteral_eq (g : Grammar) (cs : List Char) : g.verbatimLiteral cs =
    match g.verbatimPrefixes.findSome? (g.verbatimAfter cs) with
    | none => .ok none
    | some none => .error .stringLiteral
    | some (some n) => .ok (some n) := rfl

theorem verbatimAfter_eq_some {mark : List Char} (h : g.verbatimAfter cs mark = some (some n)) :
    startsWithAnyCase mark cs = true ∧ mark.length ≤ n := by
  unfold verbatimAfter at h
  split at h
  case isTrue hstarts =>
    refine ⟨hstarts, ?_⟩
    dsimp only at h
    split at h
    case h_1 =>
      obtain ⟨body, rest, -, rfl⟩ := Lexeme.tripleLength_closes (Option.some.inj h)
      omega
    case h_2 =>
      split at h
      · obtain ⟨body, rest, -, rfl⟩ := Lexeme.verbatimLength_closes (Option.some.inj h)
        omega
      · cases h
  case isFalse => cases h

theorem findSome?_congr_mem {α β : Type} {f f' : α → Option β} {l : List α}
    (h : ∀ a ∈ l, f a = f' a) : l.findSome? f = l.findSome? f' := by
  induction l with
  | nil => rfl
  | cons a l ih =>
    rw [List.forall_mem_cons] at h
    rw [List.findSome?_cons, List.findSome?_cons, h.1, ih h.2]

namespace Literate

theorem verbatimAfter_withReturns (hg : g.Literate) {mark : List Char}
    (hmark : mark ∈ g.verbatimPrefixes) (cs : List Char) :
    g.verbatimAfter (withReturns cs) mark =
      (g.verbatimAfter cs mark).map (Option.map (place cs)) := by
  have hsolid := hg.solid mark (by simp [otherOpenings, hmark])
  unfold verbatimAfter
  rw [startsWithAnyCase_withReturns hsolid]
  cases hstarts : startsWithAnyCase mark cs with
  | false => rfl
  | true =>
    have hline := onLine_of_startsWithAnyCase hsolid hstarts
    simp only [if_true]
    rw [drop_withReturns hline.newline, hg.tripleMark?_withReturns]
    cases htriple : g.tripleMark? (cs.drop mark.length) with
    | some quote =>
      simp only [Option.map_some]
      rw [← drop_withReturns hline.newline, hg.tripleLength_drop false hline htriple]
    | none =>
      simp only [head?_withReturns_eq_some_iff (c := '"') (by decide) (by decide)]
      split
      case isTrue hquote =>
        obtain ⟨rest, hrest⟩ := List.head?_eq_some_iff.mp hquote
        have hmark : ['"'] <+: cs.drop mark.length := ⟨rest, hrest.symm⟩
        rw [← drop_withReturns hline.newline, List.drop_drop, List.drop_drop]
        exact congrArg some (Lexeme.SameStop.scan_drop Lexeme.verbatimLength_withReturns
          (hline.add hmark (by decide)))
      case isFalse => rfl

theorem verbatimLiteral_withReturns (hg : g.Literate) (cs : List Char) :
    g.verbatimLiteral (withReturns cs) = (g.verbatimLiteral cs).map (Option.map (place cs)) := by
  have hafter : g.verbatimPrefixes.findSome? (g.verbatimAfter (withReturns cs)) =
      (g.verbatimPrefixes.findSome? (g.verbatimAfter cs)).map (Option.map (place cs)) := by
    rw [List.map_findSome?]
    exact findSome?_congr_mem fun mark hmark => hg.verbatimAfter_withReturns hmark cs
  rw [verbatimLiteral_eq, verbatimLiteral_eq, hafter]
  rcases g.verbatimPrefixes.findSome? (g.verbatimAfter cs) with _ | _ | n <;> rfl

theorem endsOnLine_of_verbatimLiteral (hg : g.Literate) (h : g.verbatimLiteral cs = .ok (some n)) :
    g.endsOnLine (cs.take n) = false := by
  rw [verbatimLiteral_eq] at h
  split at h
  · cases h
  · cases h
  case h_3 n hfound =>
    cases h
    obtain ⟨mark, hmark, hafter⟩ := List.exists_of_findSome?_eq_some hfound
    obtain ⟨hstarts, hle⟩ := verbatimAfter_eq_some hafter
    exact hg.endsOnLine_eq_false (by simp [otherOpenings, hmark])
      (startsWithAnyCase_take hstarts hle)

theorem rawLiteral_withReturns (afterWord : Bool) (cs : List Char) :
    g.rawLiteral afterWord (withReturns cs) =
      (g.rawLiteral afterWord cs).map (Option.map (place cs)) := by
  unfold rawLiteral
  rw [Lexeme.rawOpening?_withReturns]
  split
  case isTrue =>
    cases hopening : Lexeme.rawOpening? cs with
    | none => rfl
    | some opened =>
      obtain ⟨opening, hashes⟩ := opened
      dsimp only
      rw [Lexeme.SameStop.scan_drop (Lexeme.rawLength_withReturns hashes)
        (Lexeme.onLine_of_rawOpening? hopening)]
      cases Lexeme.rawLength hashes opening (cs.drop opening) <;> rfl
  case isFalse => rfl

theorem endsOnLine_of_rawLiteral (hg : g.Literate) {afterWord : Bool}
    (h : g.rawLiteral afterWord cs = .ok (some n)) : g.endsOnLine (cs.take n) = false := by
  unfold rawLiteral at h
  split at h
  case isTrue hraw =>
    split at h
    case h_1 => cases h
    case h_2 opening hashes hopening =>
      obtain ⟨letters, hletters, rest, rfl, rfl⟩ := Lexeme.exists_of_rawOpening? hopening
      split at h
      case h_1 => cases h
      case h_2 m hm =>
        cases h
        obtain ⟨body, after, -, rfl⟩ := Lexeme.rawLength_closes hm
        rw [Bool.and_eq_true] at hraw
        have hopens : letters ∈ g.otherOpenings := by simp [otherOpenings, hraw.1, hletters]
        refine hg.endsOnLine_eq_false hopens (startsWithAnyCase_take ?_ (by omega))
        rw [startsWithAnyCase_iff, List.map_append]
        exact List.prefix_append _ _
  case isFalse => cases h

end Literate

/-! ## Literals in plain and triple marks -/

theorem continuesName_lineEnd (g : Grammar) :
    g.continuesName '\n' = false ∧ g.continuesName '\r' = false := by
  have hblank : ∀ d ∈ ['\n', '\r'], Text.isAlphanumeric d = false ∧ d ≠ '_' ∧ d ≠ '$' := by
    decide +kernel
  constructor
  · simp [continuesName, hblank '\n' (by simp)]
  · simp [continuesName, hblank '\r' (by simp)]

theorem startsName_lineEnd (g : Grammar) :
    g.startsName '\n' = false ∧ g.startsName '\r' = false := by
  simp only [Bool.eq_false_iff]
  refine ⟨fun h => ?_, fun h => ?_⟩
  · exact absurd (continuesName_of_startsName h) (by simp [g.continuesName_lineEnd])
  · exact absurd (continuesName_of_startsName h) (by simp [g.continuesName_lineEnd])

theorem nameLength_withReturns (g : Grammar) (cs : List Char) :
    g.nameLength (withReturns cs) = g.nameLength cs := by
  rw [nameLength, nameLength,
    takeWhile_withReturns g.continuesName_lineEnd.1 g.continuesName_lineEnd.2]

theorem isLabel_withReturns (g : Grammar) (cs : List Char) :
    g.isLabel (withReturns cs) = g.isLabel cs := by
  cases cs with
  | nil => rfl
  | cons c cs =>
    by_cases hc : c = '\n'
    · subst hc
      simp [isLabel, g.startsName_lineEnd]
    · have hnext : ((withReturns (c :: cs)).drop (g.nameLength (withReturns (c :: cs)))).head? =
          some '\'' ↔ ((c :: cs).drop (g.nameLength (c :: cs))).head? = some '\'' := by
        rw [nameLength_withReturns, nameLength,
          drop_takeWhile_withReturns g.continuesName_lineEnd.1,
          head?_withReturns_eq_some_iff (by decide) (by decide)]
      rw [withReturns_cons hc] at hnext ⊢
      rw [Bool.eq_iff_iff]
      simp only [isLabel, Bool.and_eq_true, bne_iff_ne, ne_eq, hnext]

/-- What a mark behind `letters` letters opens: the length of a literal, if that ends. -/
def quotedAfter (g : Grammar) (letters : Nat) (cs : List Char) : Option (Option Nat) :=
  let body := cs.drop letters
  match g.tripleMark? body with
  | some mark => some (Lexeme.tripleLength mark g.tripleEscapes (letters + 3) (body.drop 3))
  | none =>
    (g.quote? body).bind fun q =>
      if g.lifetimes && q.mark == '\'' && letters == 0 && g.isLabel (body.drop 1) then none
      else some (Lexeme.quotedLength q (letters + 1) (body.drop 1))

theorem quotedLiteral_eq (g : Grammar) (cs : List Char) : g.quotedLiteral cs =
    match g.quotedAfter (g.literalPrefixLength cs) cs with
    | none => .ok none
    | some none => .error .stringLiteral
    | some (some n) => .ok (some n) := by
  unfold quotedLiteral quotedAfter
  dsimp only
  generalize g.literalPrefixLength cs = letters
  cases g.tripleMark? (cs.drop letters) with
  | some mark => rfl
  | none =>
    cases cs.drop letters with
    | nil => rfl
    | cons c rest =>
      simp only [quote?, List.head?_cons, Option.bind_some, List.drop_one, List.tail_cons]
      cases hfind : g.quotes.find? (·.mark == c) with
      | none => rfl
      | some q =>
        have hmark : q.mark = c := by simpa using List.find?_some hfind
        subst hmark
        rfl

theorem quotedAfter_of_quotedLiteral {x : Option Nat} (h : g.quotedLiteral cs = .ok x) :
    g.quotedAfter (g.literalPrefixLength cs) cs = x.map some := by
  rw [quotedLiteral_eq] at h
  split at h
  case h_1 hafter =>
    cases h
    exact hafter
  case h_2 => cases h
  case h_3 hafter =>
    cases h
    exact hafter

namespace Literate

/-- Behind letters, a literal in plain marks ends at the same place or not at all. -/
theorem quotedLength_drop (hg : g.Literate) {q : Quote}
    (hline : OnLine cs (g.literalPrefixLength cs))
    (htriple : g.tripleMark? (cs.drop (g.literalPrefixLength cs)) = none)
    (hquote : g.quote? (cs.drop (g.literalPrefixLength cs)) = some q)
    (h : Lexeme.quotedLength q (g.literalPrefixLength cs + 1)
      ((cs.drop (g.literalPrefixLength cs)).drop 1) = some n) :
    Lexeme.quotedLength q (g.literalPrefixLength cs + 1)
      (((withReturns cs).drop (g.literalPrefixLength cs)).drop 1) =
        if g.escapesLineEnd (cs.take n) then none else some (place cs n) := by
  obtain ⟨hq, hnext⟩ := quote?_eq_some hquote
  obtain ⟨rest, hrest⟩ := List.head?_eq_some_iff.mp hnext
  have hmark : [q.mark] <+: cs.drop (g.literalPrefixLength cs) := ⟨rest, hrest.symm⟩
  have hne := hg.mark_ne hq
  have hopening : OnLine cs (g.literalPrefixLength cs + 1) :=
    hline.add hmark (by simpa using hne.1.symm)
  have hn : g.literalPrefixLength cs < n := by
    obtain ⟨body, after, -, rfl⟩ := Lexeme.quotedLength_closes h
    omega
  rw [List.drop_drop] at h ⊢
  rw [escapesLineEnd, hg.endsOnLine_take htriple hquote hn]
  cases hlines : q.multiline with
  | true =>
    have hstop := Lexeme.quotedLength_withReturns_of_multiline hne hlines
    rw [Lexeme.SameStop.scan_drop hstop hopening, h]
    rfl
  | false =>
    obtain ⟨taken, rest', hsplit, rfl, hreturns⟩ :=
      Lexeme.quotedLength_withReturns_of_oneLine hne hlines h (g.literalPrefixLength cs + 1)
    rw [drop_withReturns hopening.newline, hreturns, List.take_add, hsplit, List.take_left]
    have hbefore := hopening.newline
    by_cases hmem : '\n' ∈ taken
    · simp [hmem]
    · have hlast := (hopening.add ⟨rest', hsplit.symm⟩ hmem).place_eq
      simp [hmem, hbefore, hlast]

/-- The length of a literal behind letters, in both texts. -/
theorem quotedAfter_withReturns (hg : g.Literate) {x : Option Nat}
    (h : g.quotedLiteral cs = .ok x) :
    g.quotedAfter (g.literalPrefixLength cs) (withReturns cs) =
      x.map fun n => if g.escapesLineEnd (cs.take n) then none else some (place cs n) := by
  obtain ⟨letters, hletters, hstarts, hlength⟩ := exists_letters g cs
  have hline := onLine_of_startsWithAnyCase (hg.solid_letters hletters) hstarts
  rw [← hlength] at hline
  have hafter := quotedAfter_of_quotedLiteral h
  unfold quotedAfter at hafter ⊢
  dsimp only at hafter ⊢
  rw [drop_withReturns hline.newline, hg.tripleMark?_withReturns, hg.quote?_withReturns]
  cases htriple : g.tripleMark? (cs.drop (g.literalPrefixLength cs)) with
  | some mark =>
    simp only [htriple] at hafter ⊢
    obtain ⟨n, rfl, hn⟩ := Option.map_eq_some_iff.mp hafter.symm
    have hle : g.literalPrefixLength cs + 3 ≤ n := by
      obtain ⟨body, rest, -, rfl⟩ := Lexeme.tripleLength_closes hn.symm
      omega
    rw [← drop_withReturns hline.newline, hg.tripleLength_drop _ hline htriple, ← hn,
      Option.map_some, Option.map_some, escapesLineEnd, hg.endsOnLine_take_of_triple htriple hle]
    rfl
  | none =>
    simp only [htriple] at hafter ⊢
    cases hquote : g.quote? (cs.drop (g.literalPrefixLength cs)) with
    | none =>
      rw [hquote, Option.bind_none, eq_comm, Option.map_eq_none_iff] at hafter
      rw [hafter]
      rfl
    | some q =>
      obtain ⟨hq, hnext⟩ := quote?_eq_some hquote
      have hlabel : g.isLabel ((withReturns (cs.drop (g.literalPrefixLength cs))).drop 1) =
          g.isLabel ((cs.drop (g.literalPrefixLength cs)).drop 1) := by
        obtain ⟨rest, hrest⟩ := List.head?_eq_some_iff.mp hnext
        rw [hrest, withReturns_cons (hg.mark_ne hq).1]
        exact g.isLabel_withReturns rest
      rw [hquote, Option.bind_some] at hafter
      rw [Option.bind_some, hlabel]
      split at hafter
      case isTrue hname =>
        rw [eq_comm, Option.map_eq_none_iff] at hafter
        rw [if_pos hname, hafter]
        rfl
      case isFalse hname =>
        obtain ⟨n, rfl, hn⟩ := Option.map_eq_some_iff.mp hafter.symm
        rw [if_neg hname, ← drop_withReturns hline.newline,
          hg.quotedLength_drop hline htriple hquote hn.symm]
        rfl

theorem quotedLiteral_withReturns (hg : g.Literate) {x : Option Nat}
    (h : g.quotedLiteral cs = .ok x) : g.quotedLiteral (withReturns cs) =
      if x.any fun n => g.escapesLineEnd (cs.take n) then .error .stringLiteral
      else .ok (x.map (place cs)) := by
  rw [quotedLiteral_eq, hg.literalPrefixLength_withReturns, hg.quotedAfter_withReturns h]
  cases x with
  | none => rfl
  | some n =>
    rw [Option.map_some, Option.any_some]
    cases g.escapesLineEnd (cs.take n) <;> rfl

/-- **A literal ends at the same place with carriage returns**, or not at all if it escapes the end
of its line. -/
theorem stringLiteral_withReturns (hg : g.Literate) {afterWord : Bool} {x : Option Nat}
    (h : g.stringLiteral afterWord cs = .ok x) : g.stringLiteral afterWord (withReturns cs) =
      if x.any fun n => g.escapesLineEnd (cs.take n) then .error .stringLiteral
      else .ok (x.map (place cs)) := by
  simp only [stringLiteral, bind, Except.bind, pure, Except.pure] at h ⊢
  rw [rawLiteral_withReturns]
  split at h
  case h_1 => cases h
  case h_2 raw hraw =>
    rw [hraw]
    cases raw with
    | some n =>
      cases h
      simp [Except.map, escapesLineEnd, hg.endsOnLine_of_rawLiteral hraw]
    | none =>
      dsimp only [Except.map, Option.map] at h ⊢
      rw [hg.verbatimLiteral_withReturns]
      split at h
      case h_1 => cases h
      case h_2 verbatim hverbatim =>
        rw [hverbatim]
        cases verbatim with
        | some n =>
          cases h
          simp [Except.map, escapesLineEnd, hg.endsOnLine_of_verbatimLiteral hverbatim]
        | none => exact hg.quotedLiteral_withReturns h

end Literate

end Grammar

theorem Language.literate (language : Language) : language.grammar.Literate := by
  cases language <;> exact ⟨Language.unambiguous _, by decide, by decide, by decide⟩

end CloneDetection
