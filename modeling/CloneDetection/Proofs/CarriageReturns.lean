import CloneDetection.Proofs.LexemeLengths

/-!
# Scanners and carriage returns

`Text.withReturns` writes a carriage return in front of every newline. A scanner that looks for a
closing mark finds the same one in such a text (`Lexeme.SameStop`), whether the body goes over lines
or not. The one exception is a literal that has to end on its line: there an escape takes the
carriage return instead of the newline, and no end is found
(`Lexeme.quotedLength_withReturns_of_oneLine`). Numbers and line comments take the same characters,
and a directive takes the carriage return at its end along.
-/

namespace CloneDetection

/-! ## Texts with carriage returns -/

namespace Text

/-- The text with a carriage return in front of every newline. -/
def withReturns (cs : List Char) : List Char :=
  cs.flatMap fun c => if c = '\n' then ['\r', '\n'] else [c]

variable {c d : Char} {cs ds : List Char}

@[simp]
theorem withReturns_nil : withReturns [] = [] := rfl

@[simp]
theorem withReturns_newline (cs : List Char) :
    withReturns ('\n' :: cs) = '\r' :: '\n' :: withReturns cs := rfl

theorem withReturns_cons (h : c ≠ '\n') (cs : List Char) :
    withReturns (c :: cs) = c :: withReturns cs := by
  simp [withReturns, h]

theorem withReturns_append (cs ds : List Char) :
    withReturns (cs ++ ds) = withReturns cs ++ withReturns ds :=
  List.flatMap_append

theorem withReturns_of_not_mem (h : '\n' ∉ cs) : withReturns cs = cs := by
  induction cs with
  | nil => rfl
  | cons c cs ih =>
    rw [List.mem_cons, not_or] at h
    rw [withReturns_cons (Ne.symm h.1), ih h.2]

/-- What a text with carriage returns starts with, the text starts with too. -/
theorem exists_of_withReturns_eq_cons (h : withReturns cs = d :: ds) (hd : d ≠ '\r') :
    ∃ rest, cs = d :: rest ∧ ds = withReturns rest := by
  cases cs with
  | nil => cases h
  | cons c cs =>
    by_cases hc : c = '\n'
    · subst hc
      cases h
      exact absurd rfl hd
    · rw [withReturns_cons hc] at h
      cases h
      exact ⟨cs, rfl, rfl⟩

theorem exists_of_withReturns_eq_return (h : withReturns cs = '\r' :: ds) (hcs : '\r' ∉ cs) :
    ∃ rest, cs = '\n' :: rest := by
  cases cs with
  | nil => cases h
  | cons c cs =>
    by_cases hc : c = '\n'
    · exact ⟨cs, by rw [hc]⟩
    · rw [withReturns_cons hc] at h
      cases h
      exact absurd List.mem_cons_self hcs

/-- A beginning without line ends is the same with carriage returns. -/
theorem prefix_withReturns_iff {mark : List Char} (h : '\n' ∉ mark) (h' : '\r' ∉ mark) :
    mark <+: withReturns cs ↔ mark <+: cs := by
  induction mark generalizing cs with
  | nil => simp
  | cons d mark ih =>
    rw [List.mem_cons, not_or] at h h'
    cases cs with
    | nil => simp
    | cons c cs =>
      by_cases hc : c = '\n'
      · subst hc
        simp [Ne.symm h.1, Ne.symm h'.1]
      · rw [withReturns_cons hc, List.cons_prefix_cons, List.cons_prefix_cons, ih h.2 h'.2]

theorem isPrefixOf_withReturns {mark : List Char} (h : '\n' ∉ mark) (h' : '\r' ∉ mark)
    (cs : List Char) : mark.isPrefixOf (withReturns cs) = mark.isPrefixOf cs := by
  rw [Bool.eq_iff_iff, List.isPrefixOf_iff_prefix, List.isPrefixOf_iff_prefix]
  exact prefix_withReturns_iff h h'

/-- A run of characters other than line ends is the same with carriage returns. -/
theorem takeWhile_withReturns {p : Char → Bool} (h : p '\n' = false) (h' : p '\r' = false)
    (cs : List Char) : (withReturns cs).takeWhile p = cs.takeWhile p := by
  induction cs with
  | nil => rfl
  | cons c cs ih =>
    by_cases hc : c = '\n'
    · subst hc
      simp [h, h']
    · rw [withReturns_cons hc, List.takeWhile_cons, List.takeWhile_cons, ih]

theorem dropWhile_withReturns {p : Char → Bool} (h : p '\r' = p '\n') (cs : List Char) :
    (withReturns cs).dropWhile p = withReturns (cs.dropWhile p) := by
  induction cs with
  | nil => rfl
  | cons c cs ih =>
    by_cases hc : c = '\n'
    · subst hc
      cases hp : p '\n' <;> simp [h, hp, ih]
    · rw [withReturns_cons hc, List.dropWhile_cons, List.dropWhile_cons, ih]
      split
      · rfl
      · rw [withReturns_cons hc]

/-- Behind a beginning without newlines the rest is the same with carriage returns. -/
theorem drop_withReturns {k : Nat} (h : '\n' ∉ cs.take k) :
    (withReturns cs).drop k = withReturns (cs.drop k) := by
  induction k generalizing cs with
  | zero => rfl
  | succ k ih =>
    cases cs with
    | nil => rfl
    | cons c cs =>
      rw [List.take_succ_cons, List.mem_cons, not_or] at h
      rw [withReturns_cons (Ne.symm h.1), List.drop_succ_cons, List.drop_succ_cons, ih h.2]

/-- What comes first is a line end in both texts, or it is the same. -/
theorem any_head?_withReturns {p : Char → Bool} (h : p '\n' = false) (h' : p '\r' = false)
    (cs : List Char) : (withReturns cs).head?.any p = cs.head?.any p := by
  cases cs with
  | nil => rfl
  | cons c cs =>
    by_cases hc : c = '\n'
    · subst hc
      simp [h, h']
    · rw [withReturns_cons hc, List.head?_cons, List.head?_cons]

theorem head?_withReturns_eq_some_iff (h : c ≠ '\n') (h' : c ≠ '\r') :
    (withReturns cs).head? = some c ↔ cs.head? = some c := by
  cases cs with
  | nil => rfl
  | cons d cs =>
    by_cases hd : d = '\n'
    · subst hd
      simp [h.symm, h'.symm]
    · rw [withReturns_cons hd, List.head?_cons, List.head?_cons]

theorem getLast?_withReturns (cs : List Char) : (withReturns cs).getLast? = cs.getLast? := by
  induction cs with
  | nil => rfl
  | cons c cs ih =>
    by_cases hc : c = '\n'
    · subst hc
      rw [withReturns_newline, List.getLast?_cons_cons, List.getLast?_cons, List.getLast?_cons, ih]
    · rw [withReturns_cons hc, List.getLast?_cons, List.getLast?_cons, ih]

/-- The number of characters of a text with carriage returns that stand for the first `n`. -/
def place (cs : List Char) (n : Nat) : Nat :=
  (withReturns (cs.take n)).length

/-- The first `n` characters stand on one line. -/
structure OnLine (cs : List Char) (n : Nat) : Prop where
  le : n ≤ cs.length
  newline : '\n' ∉ cs.take n

theorem OnLine.place_eq {n : Nat} (h : OnLine cs n) : place cs n = n := by
  rw [place, withReturns_of_not_mem h.newline, List.length_take_of_le h.le]

theorem OnLine.of_mark {mark : List Char} (h : mark <+: cs) (hline : '\n' ∉ mark) :
    OnLine cs mark.length :=
  ⟨h.length_le, by rwa [← List.prefix_iff_eq_take.mp h]⟩

theorem OnLine.first (hc : c ≠ '\n') (cs : List Char) : OnLine (c :: cs) 1 :=
  .of_mark (List.cons_prefix_cons.mpr ⟨rfl, List.nil_prefix⟩) (by simpa using hc.symm)

theorem OnLine.mono {m n : Nat} (h : OnLine cs n) (hle : m ≤ n) : OnLine cs m :=
  ⟨Nat.le_trans hle h.le, fun hmem => h.newline ((List.take_prefix_take_left hle).mem hmem)⟩

theorem OnLine.takeWhile {p : Char → Bool} (h : p '\n' = false) (cs : List Char) :
    OnLine cs (cs.takeWhile p).length := by
  refine .of_mark (List.takeWhile_prefix p) fun hmem => ?_
  have hnewline := List.mem_takeWhile_imp hmem
  rw [h] at hnewline
  cases hnewline

/-- Behind a run of characters other than line ends the rest is the same with carriage returns. -/
theorem drop_takeWhile_withReturns {p : Char → Bool} (h : p '\n' = false) (cs : List Char) :
    (withReturns cs).drop (cs.takeWhile p).length =
      withReturns (cs.drop (cs.takeWhile p).length) :=
  drop_withReturns (OnLine.takeWhile h cs).newline

/-- A mark without newlines goes on with the line. -/
theorem OnLine.add {n : Nat} {mark : List Char} (h : OnLine cs n) (hmark : mark <+: cs.drop n)
    (hline : '\n' ∉ mark) : OnLine cs (n + mark.length) := by
  have hle := hmark.length_le
  have hn := h.le
  rw [List.length_drop] at hle
  refine ⟨by omega, ?_⟩
  rw [List.take_add, ← List.prefix_iff_eq_take.mp hmark, List.mem_append, not_or]
  exact ⟨h.newline, hline⟩

theorem place_succ_cons (hc : c ≠ '\n') (cs : List Char) (n : Nat) :
    place (c :: cs) (n + 1) = place cs n + 1 := by
  rw [place, List.take_succ_cons, withReturns_cons hc, List.length_cons, place]

theorem take_place (cs : List Char) (n : Nat) :
    (withReturns cs).take (place cs n) = withReturns (cs.take n) := by
  have hsplit := withReturns_append (cs.take n) (cs.drop n)
  rw [List.take_append_drop] at hsplit
  rw [hsplit]
  exact List.take_left' rfl

theorem drop_place (cs : List Char) (n : Nat) :
    (withReturns cs).drop (place cs n) = withReturns (cs.drop n) := by
  have hsplit := withReturns_append (cs.take n) (cs.drop n)
  rw [List.take_append_drop] at hsplit
  rw [hsplit]
  exact List.drop_left' rfl

/-- The first line of a text with carriage returns has one at its end, if it has an end. -/
theorem takeWhile_line_withReturns (cs : List Char) :
    (withReturns cs).takeWhile (· != '\n') =
      cs.takeWhile (· != '\n') ++ if '\n' ∈ cs then ['\r'] else [] := by
  induction cs with
  | nil => rfl
  | cons c cs ih =>
    by_cases hc : c = '\n'
    · subst hc
      simp
    · simp [withReturns_cons hc, hc, Ne.symm hc, ih]

end Text

open Text

/-! ## The same end -/

namespace Lexeme

/-- A scanner stops in a text, and in the text with carriage returns, after the same characters, or
in neither; `m` and `n` are counted before. -/
inductive SameStop (cs : List Char) (m n : Nat) : Option Nat → Option Nat → Prop
  | none : SameStop cs m n none none
  | some (taken rest : List Char) (split : cs = taken ++ rest) :
    SameStop cs m n (some (m + taken.length)) (some (n + (withReturns taken).length))

namespace SameStop

variable {c : Char} {cs : List Char} {m n : Nat} {x y : Option Nat}

theorem cons (hc : c ≠ '\n') (h : SameStop cs (m + 1) (n + 1) x y) :
    SameStop (c :: cs) m n x y := by
  cases h with
  | none => exact .none
  | some taken rest split =>
    have hsame := SameStop.some (m := m) (n := n) (c :: taken) rest (congrArg (c :: ·) split)
    rw [withReturns_cons hc, List.length_cons, List.length_cons] at hsame
    rwa [Nat.add_assoc, Nat.add_comm 1, Nat.add_assoc, Nat.add_comm 1]

theorem newline (h : SameStop cs (m + 1) (n + 2) x y) : SameStop ('\n' :: cs) m n x y := by
  cases h with
  | none => exact .none
  | some taken rest split =>
    have hsame := SameStop.some (m := m) (n := n) ('\n' :: taken) rest (congrArg ('\n' :: ·) split)
    rw [withReturns_newline, List.length_cons, List.length_cons, List.length_cons] at hsame
    rwa [Nat.add_assoc, Nat.add_comm 1, Nat.add_assoc, Nat.add_comm 2]

/-- Behind an opening of `k` characters on one line. -/
theorem eq_map_place {k : Nat} (hk : OnLine cs k) (h : SameStop (cs.drop k) k k x y) :
    y = x.map (place cs) := by
  cases h with
  | none => rfl
  | some taken rest split =>
    have htake : cs.take (k + taken.length) = cs.take k ++ taken := by
      rw [List.take_add, split, List.take_left]
    rw [Option.map_some, place, htake, withReturns_append, withReturns_of_not_mem hk.newline,
      List.length_append, List.length_take_of_le hk.le]

theorem scan_drop {f : Nat → List Char → Option Nat}
    (hf : ∀ m n cs, SameStop cs m n (f m cs) (f n (withReturns cs))) {k : Nat} (hk : OnLine cs k) :
    f k ((withReturns cs).drop k) = (f k (cs.drop k)).map (place cs) := by
  rw [drop_withReturns hk.newline]
  exact (hf k k _).eq_map_place hk

/-- A scanner that goes on after a character, and after a carriage return with a newline. -/
theorem skip {f : Nat → List Char → Option Nat}
    (ih : ∀ n, SameStop cs (m + 1) n x (f n (withReturns cs)))
    (hnewline : c = '\n' → f n ('\r' :: '\n' :: withReturns cs) = f (n + 2) (withReturns cs))
    (hskip : c ≠ '\n' → f n (c :: withReturns cs) = f (n + 1) (withReturns cs)) :
    SameStop (c :: cs) m n x (f n (withReturns (c :: cs))) := by
  by_cases hc : c = '\n'
  · have hnext := hnewline hc
    subst hc
    rw [withReturns_newline, hnext]
    exact (ih (n + 2)).newline
  · rw [withReturns_cons hc, hskip hc]
    exact (ih (n + 1)).cons hc

end SameStop

variable {cs : List Char} {m n : Nat}

theorem flatLength_withReturns (m n : Nat) (cs : List Char) :
    SameStop cs m n (flatLength m cs) (flatLength n (withReturns cs)) := by
  fun_induction flatLength m cs generalizing n with
  | case1 => exact .none
  | case2 m cs => exact .some ['*', '/'] cs rfl
  | case3 m c cs hmark ih =>
    refine .skip ih (fun _ => by simp [flatLength]) fun hc => ?_
    rw [flatLength]
    rintro rest rfl hrest
    obtain ⟨rest, rfl, -⟩ := exists_of_withReturns_eq_cons hrest (by decide)
    exact hmark rest rfl rfl

theorem nestedLength_withReturns (depth m n : Nat) (cs : List Char) :
    SameStop cs m n (nestedLength depth m cs) (nestedLength depth n (withReturns cs)) := by
  fun_induction nestedLength depth m cs generalizing n with
  | case1 => exact .none
  | case2 depth m cs hdepth =>
    rw [withReturns_cons (by decide), withReturns_cons (by decide), nestedLength, if_pos hdepth]
    exact .some ['*', '/'] cs rfl
  | case3 depth m cs hdepth ih =>
    rw [withReturns_cons (by decide), withReturns_cons (by decide), nestedLength, if_neg hdepth]
    exact ((ih (n + 2)).cons (by decide)).cons (by decide)
  | case4 depth m cs ih => exact ((ih (n + 2)).cons (by decide)).cons (by decide)
  | case5 depth m c cs hclose hopen ih =>
    refine .skip ih (fun _ => by simp [nestedLength]) fun hc => ?_
    rw [nestedLength]
    · rintro rest rfl hrest
      obtain ⟨rest, rfl, -⟩ := exists_of_withReturns_eq_cons hrest (by decide)
      exact hclose rest rfl rfl
    · rintro rest rfl hrest
      obtain ⟨rest, rfl, -⟩ := exists_of_withReturns_eq_cons hrest (by decide)
      exact hopen rest rfl rfl

theorem blockLength_withReturns (nested : Bool) (h : ['/', '*'] <+: cs) :
    SameStop cs 0 0 (blockLength nested cs) (blockLength nested (withReturns cs)) := by
  obtain ⟨rest, rfl⟩ := h
  have hstop : SameStop rest 2 2 (blockLength nested ('/' :: '*' :: rest))
      (blockLength nested ('/' :: '*' :: withReturns rest)) := by
    cases nested with
    | false => exact flatLength_withReturns 2 2 rest
    | true => exact nestedLength_withReturns 1 2 2 rest
  exact (hstop.cons (by decide)).cons (by decide)

theorem verbatimLength_withReturns (m n : Nat) (cs : List Char) :
    SameStop cs m n (verbatimLength m cs) (verbatimLength n (withReturns cs)) := by
  fun_induction verbatimLength m cs generalizing n with
  | case1 => exact .none
  | case2 m cs ih => exact ((ih (n + 2)).cons (by decide)).cons (by decide)
  | case3 m cs hnext =>
    have hstop : verbatimLength n ('"' :: withReturns cs) = some (n + 1) := by
      rw [verbatimLength, if_pos rfl]
      rintro rest - hrest
      obtain ⟨rest, rfl, -⟩ := exists_of_withReturns_eq_cons hrest (by decide)
      exact hnext rest rfl rfl
    rw [withReturns_cons (by decide), hstop]
    exact .some ['"'] cs rfl
  | case4 m c cs hnext hmark ih =>
    refine .skip ih (fun _ => by simp [verbatimLength]) fun hc => ?_
    rw [verbatimLength, if_neg hmark]
    rintro rest rfl
    exact absurd rfl hmark

theorem rawLength_withReturns (hashes m n : Nat) (cs : List Char) :
    SameStop cs m n (rawLength hashes m cs) (rawLength hashes n (withReturns cs)) := by
  have hsigns (cs : List Char) : (List.replicate hashes '#').isPrefixOf (withReturns cs) =
      (List.replicate hashes '#').isPrefixOf cs :=
    isPrefixOf_withReturns (by simp) (by simp) cs
  fun_induction rawLength hashes m cs generalizing n with
  | case1 => exact .none
  | case2 m c cs hclose =>
    have hmark := hclose
    rw [Bool.and_eq_true, beq_iff_eq, List.isPrefixOf_iff_prefix] at hmark
    obtain ⟨rfl, rest, rfl⟩ := hmark
    rw [withReturns_cons (by decide), rawLength, hsigns, if_pos hclose]
    have hstop := SameStop.some (m := m) (n := n) ('"' :: List.replicate hashes '#') rest rfl
    rw [withReturns_of_not_mem (by simp)] at hstop
    simpa [Nat.add_assoc, Nat.add_comm 1] using hstop
  | case3 m c cs hclose ih =>
    refine .skip ih (fun _ => by simp [rawLength]) fun hc => ?_
    rw [rawLength, hsigns, if_neg hclose]

/-- A character that escapes nothing closes a literal in triple marks or belongs to its body. -/
theorem tripleLength_cons {mark c : Char} {escapes : Bool} (h : ¬ (escapes && c == '\\') = true)
    (n : Nat) (cs : List Char) : tripleLength mark escapes n (c :: cs) =
      if [mark, mark, mark].isPrefixOf (c :: cs) then
        some (n + ((c :: cs).takeWhile (· == mark)).length)
      else tripleLength mark escapes (n + 1) cs := by
  cases cs with
  | nil => simp [tripleLength, h]
  | cons d cs => rw [tripleLength, if_neg h]

theorem tripleLength_withReturns {mark : Char} (hmark : mark ≠ '\n' ∧ mark ≠ '\r')
    (escapes : Bool) (m n : Nat) (cs : List Char) :
    SameStop cs m n (tripleLength mark escapes m cs)
      (tripleLength mark escapes n (withReturns cs)) := by
  have hmarks (cs : List Char) : [mark, mark, mark].isPrefixOf (withReturns cs) =
      [mark, mark, mark].isPrefixOf cs :=
    isPrefixOf_withReturns (by simp [hmark.1.symm]) (by simp [hmark.2.symm]) cs
  fun_induction tripleLength mark escapes m cs generalizing n with
  | case1 => exact .none
  | case2 m c hescape =>
    obtain ⟨-, rfl⟩ : escapes = true ∧ c = '\\' := by simpa using hescape
    rw [withReturns_cons (by decide), withReturns_nil, tripleLength, if_pos hescape]
    exact .none
  | case3 m c hescape d cs ih =>
    obtain ⟨-, rfl⟩ : escapes = true ∧ c = '\\' := by simpa using hescape
    rw [withReturns_cons (by decide)]
    by_cases hd : d = '\n'
    · -- the escape takes the carriage return, and the newline stands alone
      subst hd
      rw [withReturns_newline, tripleLength, if_pos hescape, tripleLength_cons (by simp),
        if_neg (by simp [hmark.1])]
      exact ((ih (n + 3)).newline).cons (by decide)
    · rw [withReturns_cons hd, tripleLength, if_pos hescape]
      exact ((ih (n + 2)).cons hd).cons (by decide)
  | case4 m c cs hescape hclose =>
    have hc : c ≠ '\n' := by
      rintro rfl
      simp [hmark.1] at hclose
    rw [withReturns_cons hc, tripleLength_cons hescape, ← withReturns_cons hc, hmarks,
      if_pos hclose, takeWhile_withReturns (by simpa using hmark.1.symm)
        (by simpa using hmark.2.symm)]
    have hrun : '\n' ∉ (c :: cs).takeWhile (· == mark) := by
      intro hmem
      have hsame := List.mem_takeWhile_imp hmem
      exact hmark.1 (beq_iff_eq.mp hsame).symm
    have hstop := SameStop.some (m := m) (n := n) ((c :: cs).takeWhile (· == mark))
      ((c :: cs).dropWhile (· == mark)) List.takeWhile_append_dropWhile.symm
    rwa [withReturns_of_not_mem hrun] at hstop
  | case5 m c cs hescape hclose ih =>
    refine .skip ih (fun _ => ?_) fun hc => ?_
    · rw [tripleLength_cons (by simp), if_neg (by simp [hmark.2]), tripleLength_cons (by simp),
        if_neg (by simp [hmark.1])]
    · rw [tripleLength_cons hescape, ← withReturns_cons hc, hmarks, if_neg hclose]

theorem regexLength_withReturns (inBrackets : Bool) (m n : Nat) (cs : List Char) :
    SameStop cs m n (regexLength inBrackets m cs) (regexLength inBrackets n (withReturns cs)) := by
  fun_induction regexLength inBrackets m cs generalizing n with
  | case1 => exact .none
  | case2 => exact .none
  | case3 inBrackets m cs =>
    have hnone : regexLength inBrackets n ('\\' :: '\r' :: '\n' :: withReturns cs) = none := by
      simp [regexLength]
    rw [withReturns_cons (by decide), withReturns_newline, hnone]
    exact .none
  | case4 inBrackets m c cs hc ih =>
    rw [withReturns_cons (by decide), withReturns_cons hc, regexLength, if_neg hc]
    exact ((ih (n + 2)).cons hc).cons (by decide)
  | case5 inBrackets m cs =>
    have hnone : regexLength inBrackets n ('\r' :: '\n' :: withReturns cs) = none := by
      simp [regexLength]
    rw [withReturns_newline, hnone]
    exact .none
  | case6 inBrackets m c cs hlast hescape hc hclose =>
    have hmark := hclose
    rw [Bool.and_eq_true, beq_iff_eq] at hmark
    obtain ⟨rfl, -⟩ := hmark
    have hflags : '\n' ∉ '/' :: cs.takeWhile Char.isAlpha := by
      rw [List.mem_cons, not_or]
      exact ⟨by decide, fun hmem => absurd (List.mem_takeWhile_imp hmem) (by decide)⟩
    have hstop : SameStop ('/' :: cs) m n _ _ := .some ('/' :: cs.takeWhile Char.isAlpha)
      (cs.dropWhile Char.isAlpha) (by simp)
    rw [withReturns_of_not_mem hflags, List.length_cons, Nat.add_comm _ 1, ← Nat.add_assoc,
      ← Nat.add_assoc] at hstop
    rw [withReturns_cons (by decide), regexLength, if_neg (by decide), if_pos hclose,
      takeWhile_withReturns (by decide) (by decide)]
    · exact hstop
    · simp
    · simp
  | case7 inBrackets m c cs hlast hescape hc hclose ih =>
    have hplain : c ≠ '\\' := by
      rintro rfl
      cases cs with
      | nil => exact hlast rfl rfl
      | cons d cs => exact hescape d cs rfl rfl
    rw [withReturns_cons hc, regexLength, if_neg hc, if_neg hclose]
    · exact (ih (n + 1)).cons hc
    · simp [hplain]
    · simp [hplain]

theorem quotedLength_cons {q : Quote} {c : Char} (h : ¬ (q.escapes && c == '\\') = true) (n : Nat)
    (cs : List Char) : quotedLength q n (c :: cs) =
      if c = q.mark then some (n + 1)
      else if c == '\n' && !q.multiline then none
      else quotedLength q (n + 1) cs := by
  cases cs with
  | nil => simp [quotedLength, h]
  | cons d cs => rw [quotedLength, if_neg h]

/-- A literal that may go over lines has the same end with carriage returns. -/
theorem quotedLength_withReturns_of_multiline {q : Quote} (hmark : q.mark ≠ '\n' ∧ q.mark ≠ '\r')
    (hlines : q.multiline = true) (m n : Nat) (cs : List Char) :
    SameStop cs m n (quotedLength q m cs) (quotedLength q n (withReturns cs)) := by
  have hnewline (n : Nat) (cs : List Char) :
      quotedLength q n ('\n' :: cs) = quotedLength q (n + 1) cs := by
    rw [quotedLength_cons (by simp), if_neg hmark.1.symm, if_neg (by simp [hlines])]
  fun_induction quotedLength q m cs generalizing n with
  | case1 => exact .none
  | case2 m c hescape =>
    obtain ⟨-, rfl⟩ : q.escapes = true ∧ c = '\\' := by simpa using hescape
    rw [withReturns_cons (by decide), withReturns_nil, quotedLength, if_pos hescape]
    exact .none
  | case3 m c hescape d cs ih =>
    obtain ⟨-, rfl⟩ : q.escapes = true ∧ c = '\\' := by simpa using hescape
    rw [withReturns_cons (by decide)]
    by_cases hd : d = '\n'
    · subst hd
      rw [withReturns_newline, quotedLength, if_pos hescape, hnewline]
      exact ((ih (n + 3)).newline).cons (by decide)
    · rw [withReturns_cons hd, quotedLength, if_pos hescape]
      exact ((ih (n + 2)).cons hd).cons (by decide)
  | case4 m cs hescape =>
    rw [withReturns_cons hmark.1, quotedLength_cons hescape, if_pos rfl]
    have hstop : SameStop (q.mark :: cs) m n _ _ := .some [q.mark] cs rfl
    rwa [withReturns_cons hmark.1] at hstop
  | case5 m c cs hescape hclose hline => simp [hlines] at hline
  | case6 m c cs hescape hclose hline ih =>
    refine .skip ih (fun _ => ?_) fun hc => ?_
    · rw [quotedLength_cons (by simp), if_neg hmark.2.symm, if_neg (by simp), hnewline]
    · rw [quotedLength_cons hescape, if_neg hclose, if_neg hline]

/-- A literal that has to end on its line has the same end with carriage returns, or none if a
newline is escaped in it. -/
theorem quotedLength_withReturns_of_oneLine {q : Quote} (hmark : q.mark ≠ '\n' ∧ q.mark ≠ '\r')
    (hline : q.multiline = false) {k : Nat} (h : quotedLength q m cs = some k) (n : Nat) :
    ∃ taken rest, cs = taken ++ rest ∧ k = m + taken.length ∧
      quotedLength q n (withReturns cs) =
        if '\n' ∈ taken then none else some (n + taken.length) := by
  fun_induction quotedLength q m cs generalizing n with
  | case1 => cases h
  | case2 => cases h
  | case3 m c hescape d cs ih =>
    obtain ⟨-, rfl⟩ : q.escapes = true ∧ c = '\\' := by simpa using hescape
    obtain ⟨taken, rest, rfl, rfl, hrest⟩ := ih h (n + 2)
    refine ⟨'\\' :: d :: taken, rest, rfl, by simp; omega, ?_⟩
    rw [withReturns_cons (by decide)]
    by_cases hd : d = '\n'
    · -- the escape takes the carriage return, and the newline ends the line
      subst hd
      rw [withReturns_newline, quotedLength, if_pos hescape, quotedLength_cons (by simp),
        if_neg hmark.1.symm, if_pos (by simp [hline]), if_pos (by simp)]
    · rw [withReturns_cons hd, quotedLength, if_pos hescape, hrest]
      simp [Ne.symm hd, Nat.add_assoc, Nat.add_comm 2]
  | case4 m cs hescape =>
    cases h
    refine ⟨[q.mark], cs, rfl, rfl, ?_⟩
    rw [withReturns_cons hmark.1, quotedLength_cons hescape, if_pos rfl,
      if_neg (by simpa using hmark.1.symm)]
    rfl
  | case5 => cases h
  | case6 m c cs hescape hclose hnewline ih =>
    have hc : c ≠ '\n' := by
      rintro rfl
      simp [hline] at hnewline
    obtain ⟨taken, rest, rfl, rfl, hrest⟩ := ih h (n + 1)
    refine ⟨c :: taken, rest, rfl, by simp; omega, ?_⟩
    rw [withReturns_cons hc, quotedLength_cons hescape, if_neg hclose, if_neg hnewline, hrest]
    simp [Ne.symm hc, Nat.add_assoc, Nat.add_comm 1]

/-! ## Scanners that stay on a line -/

theorem lineLength_withReturns (cs : List Char) :
    lineLength (withReturns cs) = lineLength cs := by
  rw [lineLength, lineLength, takeWhile_line_withReturns]
  split
  · simp
  · simp

theorem onLine_lineLength (cs : List Char) : OnLine cs (lineLength cs) := by
  refine (OnLine.takeWhile (p := (· != '\n')) (by decide) cs).mono ?_
  have hle := (List.dropWhile_sublist (l := (cs.takeWhile (· != '\n')).reverse)
    (· == '\r')).length_le
  rwa [List.length_reverse] at hle

/-- A directive takes the carriage return at its end along. -/
theorem directiveLength_withReturns (h : '\r' ∉ cs) (m n : Nat) :
    ∃ taken rest, cs = taken ++ rest ∧ directiveLength m cs = m + taken.length ∧
      (rest = [] ∧ directiveLength n (withReturns cs) = n + (withReturns taken).length ∨
        ∃ more, rest = '\n' :: more ∧
          directiveLength n (withReturns cs) = n + (withReturns taken).length + 1) := by
  fun_induction directiveLength m cs generalizing n with
  | case1 m => exact ⟨[], [], rfl, rfl, .inl ⟨rfl, rfl⟩⟩
  | case2 m cs ih =>
    obtain ⟨taken, rest, rfl, hm, hn⟩ := ih (by simp_all) (n + 3)
    refine ⟨'\\' :: '\n' :: taken, rest, rfl, by rw [hm, List.length_cons, List.length_cons]; omega,
      ?_⟩
    have hsplice : directiveLength n (withReturns ('\\' :: '\n' :: (taken ++ rest))) =
        directiveLength (n + 3) (withReturns (taken ++ rest)) := rfl
    have hlength : (withReturns ('\\' :: '\n' :: taken)).length =
        (withReturns taken).length + 3 := rfl
    rw [hsplice, hlength]
    refine hn.imp ?_ ?_
    · rintro ⟨hrest, hn⟩
      exact ⟨hrest, by omega⟩
    · rintro ⟨more, hrest, hn⟩
      exact ⟨more, hrest, by omega⟩
  | case3 m cs ih => simp at h
  | case4 m cs hlf hcrlf =>
    refine ⟨[], '\n' :: cs, rfl, rfl, .inr ⟨cs, rfl, ?_⟩⟩
    simp [directiveLength]
  | case5 m c cs hlf hcrlf hc ih =>
    obtain ⟨taken, rest, rfl, hm, hn⟩ := ih (by simp_all) (n + 1)
    refine ⟨c :: taken, rest, rfl, by rw [hm, List.length_cons]; omega, ?_⟩
    have hplain : directiveLength n (withReturns (c :: (taken ++ rest))) =
        directiveLength (n + 1) (withReturns (taken ++ rest)) := by
      rw [withReturns_cons hc, directiveLength, if_neg hc]
      · rintro more rfl hmore
        obtain ⟨more, hmore, -⟩ := exists_of_withReturns_eq_cons hmore (by decide)
        exact hlf more rfl hmore
      · rintro more rfl hmore
        obtain ⟨more, hmore⟩ := exists_of_withReturns_eq_return hmore (by simp_all)
        exact hlf more rfl hmore
    rw [hplain, withReturns_cons hc, List.length_cons]
    refine hn.imp ?_ ?_
    · rintro ⟨hrest, hn⟩
      exact ⟨hrest, by omega⟩
    · rintro ⟨more, hrest, hn⟩
      exact ⟨more, hrest, by omega⟩

theorem startsWithDigit_withReturns (cs : List Char) :
    startsWithDigit (withReturns cs) = startsWithDigit cs := by
  have hhead (cs : List Char) : startsWithDigit cs = cs.head?.any Char.isDigit := by
    cases cs <;> rfl
  rw [hhead, hhead, any_head?_withReturns (by decide) (by decide)]

theorem numberRest_withReturns (hex afterExponent : Bool) (n : Nat) (cs : List Char) :
    numberRest hex afterExponent n (withReturns cs) = numberRest hex afterExponent n cs := by
  induction cs generalizing afterExponent n with
  | nil => rfl
  | cons c cs ih =>
    by_cases hc : c = '\n'
    · subst hc
      simp [numberRest]
    · rw [withReturns_cons hc, numberRest, numberRest, startsWithDigit_withReturns, ih, ih]

theorem exists_of_numberRest (hex afterExponent : Bool) (n : Nat) (cs : List Char) :
    ∃ taken, taken <+: cs ∧ '\n' ∉ taken ∧
      numberRest hex afterExponent n cs = n + taken.length := by
  induction cs generalizing afterExponent n with
  | nil => exact ⟨[], List.prefix_rfl, by simp, rfl⟩
  | cons c cs ih =>
    by_cases hc : c = '\n'
    · subst hc
      simp [numberRest]
    · have hstep (afterExponent : Bool) : ∃ taken, taken <+: c :: cs ∧ '\n' ∉ taken ∧
          numberRest hex afterExponent (n + 1) cs = n + taken.length := by
        obtain ⟨taken, hprefix, hline, hn⟩ := ih afterExponent (n + 1)
        refine ⟨c :: taken, List.cons_prefix_cons.mpr ⟨rfl, hprefix⟩, ?_, ?_⟩
        · simp [Ne.symm hc, hline]
        · rw [hn, List.length_cons]
          omega
      rw [numberRest]
      split
      · exact hstep _
      split
      · exact hstep _
      split
      · exact hstep _
      · exact ⟨[], List.nil_prefix, by simp, rfl⟩

theorem onLine_numberLength (cs : List Char) : OnLine cs (numberLength cs) := by
  obtain ⟨taken, hprefix, hline, hn⟩ := exists_of_numberRest (isHexNumber cs) false 0 cs
  rw [numberLength, hn, Nat.zero_add]
  exact .of_mark hprefix hline

theorem isHexNumber_iff : isHexNumber cs = true ↔ ['0', 'x'] <+: cs ∨ ['0', 'X'] <+: cs := by
  unfold isHexNumber
  split
  · simp
  · simp
  case h_3 hsmall hcapital =>
    refine ⟨nofun, ?_⟩
    rintro (⟨rest, rfl⟩ | ⟨rest, rfl⟩)
    · exact absurd rfl (hsmall rest)
    · exact absurd rfl (hcapital rest)

theorem isHexNumber_withReturns (cs : List Char) :
    isHexNumber (withReturns cs) = isHexNumber cs := by
  rw [Bool.eq_iff_iff, isHexNumber_iff, isHexNumber_iff,
    prefix_withReturns_iff (by decide) (by decide), prefix_withReturns_iff (by decide) (by decide)]

theorem numberLength_withReturns (cs : List Char) :
    numberLength (withReturns cs) = numberLength cs := by
  rw [numberLength, numberLength, isHexNumber_withReturns, numberRest_withReturns]

/-- A raw literal opens with letters, signs and a mark. -/
theorem exists_of_rawOpening? {opening hashes : Nat} (h : rawOpening? cs = some (opening, hashes)) :
    ∃ letters ∈ [['r'], ['b', 'r'], ['c', 'r']], ∃ rest,
      cs = letters ++ (List.replicate hashes '#' ++ '"' :: rest) ∧
        opening = letters.length + hashes + 1 := by
  have hsigns {rest : List Char}
      (hmark : (rest.drop (rest.takeWhile (· == '#')).length).head? = some '"') : ∃ more, rest =
        List.replicate (rest.takeWhile (· == '#')).length '#' ++ '"' :: more := by
    obtain ⟨more, hmore⟩ := List.head?_eq_some_iff.mp hmark
    have hrun : rest.takeWhile (· == '#') =
        List.replicate (rest.takeWhile (· == '#')).length '#' :=
      List.eq_replicate_of_mem fun c hc => by simpa using List.mem_takeWhile_imp hc
    refine ⟨more, ?_⟩
    rw [← hrun, ← hmore]
    exact (List.prefix_iff_eq_append.mp (List.takeWhile_prefix _)).symm
  unfold rawOpening? at h
  rw [Option.bind_eq_some_iff] at h
  obtain ⟨⟨letters, rest⟩, hletters, hopening⟩ := h
  dsimp only at hopening
  split at hopening
  case isTrue hmark =>
    cases hopening
    obtain ⟨more, hmore⟩ := hsigns hmark
    split at hletters
    all_goals cases hletters
    · exact ⟨['b', 'r'], by simp, more, congrArg ('b' :: 'r' :: ·) hmore, rfl⟩
    · exact ⟨['c', 'r'], by simp, more, congrArg ('c' :: 'r' :: ·) hmore, rfl⟩
    · exact ⟨['r'], by simp, more, congrArg ('r' :: ·) hmore, rfl⟩
  case isFalse => cases hopening

theorem onLine_of_rawOpening? {opening hashes : Nat}
    (h : rawOpening? cs = some (opening, hashes)) : OnLine cs opening := by
  obtain ⟨letters, hletters, rest, rfl, rfl⟩ := exists_of_rawOpening? h
  have hopening : letters ++ (List.replicate hashes '#' ++ ['"']) <+:
      letters ++ (List.replicate hashes '#' ++ '"' :: rest) := ⟨rest, by simp⟩
  have hnewline : ∀ letters ∈ [['r'], ['b', 'r'], ['c', 'r']], '\n' ∉ letters := by decide
  have hline := OnLine.of_mark hopening (by simp [hnewline letters hletters])
  simpa [Nat.add_assoc] using hline

theorem rawOpening?_withReturns (cs : List Char) :
    rawOpening? (withReturns cs) = rawOpening? cs := by
  -- after the letters come signs, and then the mark in both texts or in neither
  have hsigns (rest : List Char) :
      ((withReturns rest).drop (rest.takeWhile (· == '#')).length).head? = some '"' ↔
        (rest.drop (rest.takeWhile (· == '#')).length).head? = some '"' := by
    rw [drop_takeWhile_withReturns (by decide),
      head?_withReturns_eq_some_iff (by decide) (by decide)]
  have hrun (rest : List Char) : (withReturns rest).takeWhile (· == '#') =
      rest.takeWhile (· == '#') := takeWhile_withReturns (by decide) (by decide) rest
  unfold rawOpening?
  dsimp only
  generalize hreturns : withReturns cs = ds
  split
  case h_1 | h_2 =>
    obtain ⟨cs, rfl, htail⟩ := exists_of_withReturns_eq_cons hreturns (by decide)
    obtain ⟨rest, rfl, rfl⟩ := exists_of_withReturns_eq_cons htail.symm (by decide)
    simp only [Option.bind_some, hsigns, hrun]
  case h_3 =>
    obtain ⟨rest, rfl, rfl⟩ := exists_of_withReturns_eq_cons hreturns (by decide)
    simp only [Option.bind_some, hsigns, hrun]
  case h_4 hb hc hr =>
    split
    · exact absurd hreturns.symm (hb _)
    · exact absurd hreturns.symm (hc _)
    · exact absurd hreturns.symm (hr _)
    · rfl

end Lexeme

end CloneDetection
