import CloneDetection.Proofs.CarriageReturns
import CloneDetection.Text.Utf8
import Mathlib.Tactic.CasesM

/-!
# Scanners over bytes

A scanner that looks for ASCII marks may go over the bytes of a text one at a time. `Text.bytewise`
writes each byte of a text as a character of its own, so the same scanner runs over the bytes. It
stops after the bytes of the characters that it takes from the text (`Lexeme.SameEnd`), never inside
a character: no byte of a longer code is one of the marks (`Text.eq_of_mem_bytewise`). An escape
takes one byte only, so it may end inside a character. The bytes left over are passed like any
others, and the scan comes back to a boundary before it can stop (`Lexeme.regexLength_bytewise`).
-/

namespace CloneDetection

/-! ## The bytes of a text -/

namespace Text

/-- A byte of a character is the character, or it is one of the bytes of a longer code. -/
theorem toNat_of_mem_utf8EncodeChar {c : Char} {byte : UInt8} (h : byte ∈ String.utf8EncodeChar c) :
    byte.toNat = c.val.toNat ∧ byte.toNat < 128 ∨ 128 ≤ byte.toNat ∧ byte.toNat < 248 := by
  unfold String.utf8EncodeChar at h
  generalize c.val.toNat = code at h
  dsimp only at h
  split_ifs at h <;> simp only [List.mem_cons, List.not_mem_nil, or_false] at h
  · subst h
    rw [UInt8.toNat_ofNat']
    omega
  all_goals
    casesm* _ ∨ _ <;> subst h <;> rw [UInt8.toNat_ofNat'] <;> omega

/-- The bytes of a text, each as a character of its own. -/
def bytewise (cs : List Char) : List Char :=
  (cs.flatMap String.utf8EncodeChar).map Char.ofUInt8

variable {c d : Char} {cs ds : List Char}

theorem bytewise_append (cs ds : List Char) : bytewise (cs ++ ds) = bytewise cs ++ bytewise ds := by
  rw [bytewise, List.flatMap_append, List.map_append, bytewise, bytewise]

theorem bytewise_cons (c : Char) (cs : List Char) :
    bytewise (c :: cs) = bytewise [c] ++ bytewise cs :=
  bytewise_append [c] cs

theorem bytewise_singleton (c : Char) :
    bytewise [c] = (String.utf8EncodeChar c).map Char.ofUInt8 := by
  rw [bytewise, List.flatMap_singleton]

theorem length_bytewise_singleton (c : Char) : (bytewise [c]).length = c.utf8Size := by
  rw [bytewise_singleton, List.length_map, String.length_utf8EncodeChar]

/-- An ASCII byte of a character is the character. -/
theorem eq_of_mem_bytewise (h : d ∈ bytewise [c]) (hd : d.toNat < 128) : d = c := by
  rw [bytewise_singleton] at h
  obtain ⟨byte, hbyte, rfl⟩ := List.mem_map.mp h
  have hrange := toNat_of_mem_utf8EncodeChar hbyte
  have hcode : (Char.ofUInt8 byte).val.toNat = byte.toNat := UInt8.toNat_toUInt32 byte
  change (Char.ofUInt8 byte).val.toNat < 128 at hd
  exact Char.ext (UInt32.toNat_inj.mp (by omega))

theorem ne_of_le {mark : Char} (hmark : mark.toNat < 128) (hd : 128 ≤ d.toNat) : d ≠ mark := by
  rintro rfl
  omega

theorem ne_of_mem_bytewise {mark : Char} (hmark : mark.toNat < 128) (hc : c ≠ mark)
    (hd : d ∈ bytewise [c]) : d ≠ mark := by
  rintro rfl
  exact hc (eq_of_mem_bytewise hd hmark).symm

/-- A longer code has no ASCII byte. -/
theorem le_of_mem_bytewise (hc : 128 ≤ c.toNat) (hd : d ∈ bytewise [c]) : 128 ≤ d.toNat := by
  by_contra hlow
  have hcode : d = c := eq_of_mem_bytewise hd (by omega)
  subst hcode
  exact hlow hc

theorem utf8Size_of_lt (hc : c.toNat < 128) : c.utf8Size = 1 :=
  Char.utf8Size_eq_one_iff.mpr (Nat.le_of_lt_succ hc)

/-- An ASCII character is its only byte. -/
theorem bytewise_cons_of_lt (hc : c.toNat < 128) (cs : List Char) :
    bytewise (c :: cs) = c :: bytewise cs := by
  have hcode : c.val.toUInt8.toUInt32.toNat = c.val.toNat := by
    rw [UInt8.toNat_toUInt32, UInt32.toNat_toUInt8]
    exact Nat.mod_eq_of_lt (Nat.lt_trans hc (by decide))
  have hbyte : Char.ofUInt8 c.val.toUInt8 = c := Char.ext (UInt32.toNat_inj.mp hcode)
  rw [bytewise_cons, bytewise_singleton,
    String.utf8EncodeChar_eq_singleton (utf8Size_of_lt hc), List.map_singleton, hbyte,
    List.singleton_append]

/-- The bytes of a character after the first are not ASCII. -/
theorem exists_bytewise_singleton (c : Char) :
    ∃ d high, bytewise [c] = d :: high ∧ ∀ e ∈ high, 128 ≤ e.toNat := by
  by_cases hc : c.toNat < 128
  · exact ⟨c, [], bytewise_cons_of_lt hc [], by simp⟩
  · have hpos : 0 < (bytewise [c]).length := by
      rw [length_bytewise_singleton]
      exact c.utf8Size_pos
    obtain ⟨d, high, hbytes⟩ := List.exists_cons_of_length_pos hpos
    refine ⟨d, high, hbytes, fun e he => le_of_mem_bytewise (Nat.le_of_not_lt hc) ?_⟩
    rw [hbytes]
    exact List.mem_cons_of_mem d he

/-- No test for ASCII characters tells the first byte of a character from the character. -/
theorem exists_bytewise_cons (c : Char) (cs : List Char) :
    ∃ d ds, bytewise (c :: cs) = d :: ds ∧
      ∀ p : Char → Bool, (∀ e, p e = true → e.toNat < 128) → p d = p c := by
  obtain ⟨d, high, hd, -⟩ := exists_bytewise_singleton c
  refine ⟨d, high ++ bytewise cs, by rw [bytewise_cons, hd, List.cons_append], fun p hp => ?_⟩
  have hmem : d ∈ bytewise [c] := by simp [hd]
  by_cases hlow : d.toNat < 128
  · rw [eq_of_mem_bytewise hmem hlow]
  · have hc : ¬ c.toNat < 128 := by
      intro hc
      rw [bytewise_cons_of_lt hc] at hmem
      rw [List.mem_singleton.mp hmem] at hlow
      exact hlow hc
    rw [Bool.eq_false_iff.mpr fun h => hlow (hp d h), Bool.eq_false_iff.mpr fun h => hc (hp c h)]

theorem exists_of_bytewise_eq_cons {mark : Char} (hmark : mark.toNat < 128)
    (h : bytewise cs = mark :: ds) : ∃ rest, cs = mark :: rest ∧ ds = bytewise rest := by
  cases cs with
  | nil => cases h
  | cons c cs =>
    obtain ⟨d, ds', hd, hsame⟩ := exists_bytewise_cons c cs
    obtain ⟨rfl, rfl⟩ := List.cons.inj (hd.symm.trans h)
    have hc : c = d := by simpa using hsame (· == d) (by simpa using hmark)
    subst hc
    rw [bytewise_cons_of_lt hmark] at h
    exact ⟨cs, rfl, (List.cons.inj h).2.symm⟩

theorem takeWhile_bytewise {p : Char → Bool} (hp : ∀ e, p e = true → e.toNat < 128)
    (cs : List Char) : (bytewise cs).takeWhile p = cs.takeWhile p := by
  induction cs with
  | nil => rfl
  | cons c cs ih =>
    by_cases hc : p c = true
    · rw [bytewise_cons_of_lt (hp c hc), List.takeWhile_cons_of_pos hc,
        List.takeWhile_cons_of_pos hc, ih]
    · obtain ⟨d, ds, hd, hsame⟩ := exists_bytewise_cons c cs
      rw [hd, List.takeWhile_cons_of_neg (hsame p hp ▸ hc), List.takeWhile_cons_of_neg hc]

theorem isPrefixOf_bytewise {marks : List Char} (hmarks : ∀ e ∈ marks, e.toNat < 128)
    (cs : List Char) : marks.isPrefixOf (bytewise cs) = marks.isPrefixOf cs := by
  induction marks generalizing cs with
  | nil => simp
  | cons mark marks ih =>
    have hmark : mark.toNat < 128 := hmarks mark (by simp)
    cases cs with
    | nil => rfl
    | cons c cs =>
      by_cases hc : mark = c
      · subst hc
        rw [bytewise_cons_of_lt hmark, List.isPrefixOf_cons_cons, List.isPrefixOf_cons_cons,
          ih fun e he => hmarks e (by simp [he])]
      · obtain ⟨d, ds, hd, hsame⟩ := exists_bytewise_cons c cs
        have hmarkc : (mark == c) = false := beq_eq_false_iff_ne.mpr hc
        have hmarkd : (mark == d) = false :=
          (hsame (mark == ·) (by simpa using hmark)).trans hmarkc
        rw [hd, List.isPrefixOf_cons_cons, List.isPrefixOf_cons_cons, hmarkd, hmarkc,
          Bool.false_and, Bool.false_and]

theorem prefix_bytewise_iff {marks : List Char} (hmarks : ∀ e ∈ marks, e.toNat < 128) :
    marks <+: bytewise cs ↔ marks <+: cs := by
  rw [← List.isPrefixOf_iff_prefix, ← List.isPrefixOf_iff_prefix, isPrefixOf_bytewise hmarks]

theorem bytewise_append_of_ascii (h : ∀ e ∈ cs, e.toNat < 128) (ds : List Char) :
    bytewise (cs ++ ds) = cs ++ bytewise ds := by
  induction cs with
  | nil => rfl
  | cons c cs ih =>
    rw [List.cons_append, bytewise_cons_of_lt (h c (by simp)), ih fun e he => h e (by simp [he]),
      List.cons_append]

theorem head?_bytewise_eq_some_iff {mark : Char} (hmark : mark.toNat < 128) :
    (bytewise cs).head? = some mark ↔ cs.head? = some mark := by
  rw [List.head?_eq_some_iff, List.head?_eq_some_iff]
  constructor
  · rintro ⟨ds, hds⟩
    obtain ⟨rest, hrest, -⟩ := exists_of_bytewise_eq_cons hmark hds
    exact ⟨rest, hrest⟩
  · rintro ⟨rest, rfl⟩
    exact ⟨bytewise rest, bytewise_cons_of_lt hmark rest⟩

/-- Behind ASCII characters a text has the bytes of its rest. -/
theorem drop_bytewise {part : List Char} (hpart : ∀ e ∈ part, e.toNat < 128) (h : part <+: cs) :
    (bytewise cs).drop part.length = bytewise (cs.drop part.length) := by
  obtain ⟨rest, rfl⟩ := h
  rw [bytewise_append_of_ascii hpart, List.drop_left, List.drop_left]

theorem byteSize_of_ascii (h : ∀ e ∈ cs, e.toNat < 128) : byteSize cs = cs.length := by
  induction cs with
  | nil => rfl
  | cons c cs ih =>
    rw [byteSize_cons, utf8Size_of_lt (h c (by simp)), ih fun e he => h e (by simp [he]),
      List.length_cons, Nat.add_comm]

theorem toNat_lt_of_isAlphanum (h : c.isAlphanum = true) : c.toNat < 128 := by
  have hbound {last : UInt32} (hlast : last.toNat < 128) (hc : c.val ≤ last) : c.toNat < 128 :=
    Nat.lt_of_le_of_lt (UInt32.le_iff_toNat_le.mp hc) hlast
  rcases Bool.or_eq_true_iff.mp h with hletter | hdigit
  · rcases Bool.or_eq_true_iff.mp hletter with hupper | hlower
    · have hc : c.val ≤ 'Z'.val := (of_decide_eq_true hupper).2
      exact hbound (by decide) hc
    · have hc : c.val ≤ 'z'.val := of_decide_eq_true (Bool.and_eq_true_iff.mp hlower).2
      exact hbound (by decide) hc
  · have hc : c.val ≤ '9'.val := of_decide_eq_true (Bool.and_eq_true_iff.mp hdigit).2
    exact hbound (by decide) hc

end Text

open Text

/-! ## The same end -/

namespace Lexeme

/-- A scanner that goes on after each of some characters. -/
theorem pass_append {f : Nat → List Char → Option Nat} {p : Char → Prop}
    (hf : ∀ n d ds, p d → f n (d :: ds) = f (n + 1) ds) {part : List Char}
    (hpart : ∀ d ∈ part, p d) (n : Nat) (ds : List Char) :
    f n (part ++ ds) = f (n + part.length) ds := by
  induction part generalizing n with
  | nil => rfl
  | cons d part ih =>
    rw [List.cons_append, hf n d _ (hpart d (by simp)), ih fun e he => hpart e (by simp [he]),
      List.length_cons, Nat.add_assoc, Nat.add_comm 1]

/-- A scanner stops over the characters of a text and over its bytes after the same part, or in
neither; `m` characters and `n` bytes are counted before. -/
inductive SameEnd (cs : List Char) (m n : Nat) : Option Nat → Option Nat → Prop
  | none : SameEnd cs m n none none
  | some (taken rest : List Char) (split : cs = taken ++ rest) :
    SameEnd cs m n (some (m + taken.length)) (some (n + byteSize taken))

namespace SameEnd

variable {c : Char} {cs : List Char} {m n : Nat} {x y : Option Nat}

theorem append (part : List Char)
    (h : SameEnd cs (m + part.length) (n + byteSize part) x y) :
    SameEnd (part ++ cs) m n x y := by
  cases h with
  | none => exact .none
  | some taken rest split =>
    have hsplit : part ++ cs = part ++ taken ++ rest := by rw [split, List.append_assoc]
    have hsame := SameEnd.some (m := m) (n := n) (part ++ taken) rest hsplit
    rwa [List.length_append, byteSize_append, ← Nat.add_assoc, ← Nat.add_assoc] at hsame

theorem append_ascii (part : List Char) (hpart : ∀ e ∈ part, e.toNat < 128)
    (h : SameEnd cs (m + part.length) (n + part.length) x y) : SameEnd (part ++ cs) m n x y := by
  refine append part ?_
  rwa [byteSize_of_ascii hpart]

theorem cons (hc : c.toNat < 128) (h : SameEnd cs (m + 1) (n + 1) x y) :
    SameEnd (c :: cs) m n x y :=
  append_ascii [c] (by simpa using hc) h

theorem ascii {taken rest : List Char} (split : cs = taken ++ rest)
    (htaken : ∀ e ∈ taken, e.toNat < 128) :
    SameEnd cs m n (Option.some (m + taken.length)) (Option.some (n + taken.length)) := by
  have hend := SameEnd.some (m := m) (n := n) taken rest split
  rwa [byteSize_of_ascii htaken] at hend

/-- A scanner that goes on after each byte of a character. -/
theorem pass {f : Nat → List Char → Option Nat} {p : Char → Prop}
    (hf : ∀ n d ds, p d → f n (d :: ds) = f (n + 1) ds) (hc : ∀ d ∈ bytewise [c], p d)
    (ih : ∀ n, SameEnd cs (m + 1) n x (f n (bytewise cs))) :
    SameEnd (c :: cs) m n x (f n (bytewise (c :: cs))) := by
  rw [bytewise_cons, pass_append hf hc, length_bytewise_singleton]
  exact (ih (n + c.utf8Size)).append [c]

end SameEnd

/-! ## Directives and literals -/

theorem directiveLength_bytewise (m n : Nat) (cs : List Char) :
    SameEnd cs m n (some (directiveLength m cs)) (some (directiveLength n (bytewise cs))) := by
  fun_induction directiveLength m cs generalizing n with
  | case1 => exact .some [] [] rfl
  | case2 m cs ih => exact (ih (n + 2)).append ['\\', '\n']
  | case3 m cs ih => exact (ih (n + 3)).append ['\\', '\r', '\n']
  | case4 m cs => exact .some [] ('\n' :: cs) rfl
  | case5 m c cs hnewline hreturn hc ih =>
    by_cases hescape : c = '\\'
    · subst hescape
      rw [bytewise_cons_of_lt (by decide), directiveLength, if_neg (by decide)]
      · exact (ih (n + 1)).append ['\\']
      · rintro rest - hrest
        obtain ⟨rest, rfl, -⟩ := exists_of_bytewise_eq_cons (by decide) hrest
        exact hnewline rest rfl rfl
      · rintro rest - hrest
        obtain ⟨rest, rfl, hnext⟩ := exists_of_bytewise_eq_cons (by decide) hrest
        obtain ⟨rest, rfl, -⟩ := exists_of_bytewise_eq_cons (by decide) hnext.symm
        exact hreturn rest rfl rfl
    · refine .pass (f := fun n ds => some (directiveLength n ds))
        (p := fun d => d ≠ '\\' ∧ d ≠ '\n') ?_ ?_ ih
      · rintro n d ds ⟨hd, hline⟩
        simp [directiveLength, hd, hline]
      · exact fun d hd => ⟨ne_of_mem_bytewise (by decide) hescape hd,
          ne_of_mem_bytewise (by decide) hc hd⟩

theorem verbatimLength_bytewise (m n : Nat) (cs : List Char) :
    SameEnd cs m n (verbatimLength m cs) (verbatimLength n (bytewise cs)) := by
  fun_induction verbatimLength m cs generalizing n with
  | case1 => exact .none
  | case2 m cs ih => exact (ih (n + 2)).append ['"', '"']
  | case3 m cs hdouble =>
    rw [bytewise_cons_of_lt (by decide), verbatimLength, if_pos rfl]
    · exact .some ['"'] cs rfl
    · rintro rest - hrest
      obtain ⟨rest, rfl, -⟩ := exists_of_bytewise_eq_cons (by decide) hrest
      exact hdouble rest rfl rfl
  | case4 m c cs hdouble hc ih =>
    refine .pass (p := (· ≠ '"')) ?_ (fun d hd => ne_of_mem_bytewise (by decide) hc hd) ih
    intro n d ds hd
    simp [verbatimLength, hd]

theorem rawLength_bytewise (hashes m n : Nat) (cs : List Char) :
    SameEnd cs m n (rawLength hashes m cs) (rawLength hashes n (bytewise cs)) := by
  have hashtags : ∀ e ∈ List.replicate hashes '#', e.toNat < 128 := by simp
  fun_induction rawLength hashes m cs generalizing n with
  | case1 => exact .none
  | case2 m c cs hclose =>
    obtain ⟨hmark, hsigns⟩ := Bool.and_eq_true_iff.mp hclose
    obtain rfl := beq_iff_eq.mp hmark
    rw [bytewise_cons_of_lt (by decide), rawLength, isPrefixOf_bytewise hashtags, if_pos hclose]
    obtain ⟨rest, hrest⟩ := List.isPrefixOf_iff_prefix.mp hsigns
    have hend := SameEnd.ascii (m := m + 1) (n := n + 1) hrest.symm hashtags
    rw [List.length_replicate] at hend
    exact hend.cons (by decide)
  | case3 m c cs hopen ih =>
    by_cases hmark : c = '"'
    · subst hmark
      rw [bytewise_cons_of_lt (by decide), rawLength, isPrefixOf_bytewise hashtags, if_neg hopen]
      exact (ih (n + 1)).append ['"']
    · refine .pass (p := (· ≠ '"')) ?_ (fun d hd => ne_of_mem_bytewise (by decide) hmark hd) ih
      intro n d ds hd
      simp [rawLength, hd]

theorem rawOpening?_bytewise (cs : List Char) : rawOpening? (bytewise cs) = rawOpening? cs := by
  have hsign : ∀ e : Char, (e == '#') = true → e.toNat < 128 := by
    intro e he
    rw [beq_iff_eq.mp he]
    decide
  have hrun (rest : List Char) : (bytewise rest).takeWhile (· == '#') =
      rest.takeWhile (· == '#') := takeWhile_bytewise hsign rest
  have hmark (rest : List Char) :
      ((bytewise rest).drop (rest.takeWhile (· == '#')).length).head? = some '"' ↔
        (rest.drop (rest.takeWhile (· == '#')).length).head? = some '"' := by
    have hsigns : ∀ e ∈ rest.takeWhile (· == '#'), e.toNat < 128 :=
      fun e he => hsign e (List.mem_takeWhile_imp (p := (· == '#')) he)
    rw [drop_bytewise hsigns (List.takeWhile_prefix _), head?_bytewise_eq_some_iff (by decide)]
  unfold rawOpening?
  dsimp only
  generalize hbytes : bytewise cs = ds
  split
  case h_1 | h_2 =>
    obtain ⟨cs, rfl, htail⟩ := exists_of_bytewise_eq_cons (by decide) hbytes
    obtain ⟨rest, rfl, rfl⟩ := exists_of_bytewise_eq_cons (by decide) htail.symm
    simp only [Option.bind_some, hmark, hrun]
  case h_3 =>
    obtain ⟨rest, rfl, rfl⟩ := exists_of_bytewise_eq_cons (by decide) hbytes
    simp only [Option.bind_some, hmark, hrun]
  case h_4 hb hc hr =>
    split
    · exact absurd hbytes.symm (hb _)
    · exact absurd hbytes.symm (hc _)
    · exact absurd hbytes.symm (hr _)
    · rfl

/-- A raw literal is the same over bytes, with its opening, which is ASCII. -/
theorem rawLiteral_bytewise {cs : List Char} {opening hashes : Nat}
    (h : rawOpening? cs = some (opening, hashes)) :
    SameEnd cs 0 0 (rawLength hashes opening (cs.drop opening))
      (rawLength hashes opening ((bytewise cs).drop opening)) := by
  obtain ⟨letters, hletters, rest, rfl, rfl⟩ := exists_of_rawOpening? h
  have hword : ∀ letters ∈ [['r'], ['b', 'r'], ['c', 'r']], ∀ e ∈ letters, e.toNat < 128 := by
    simp
  have hopening : ∀ e ∈ letters ++ (List.replicate hashes '#' ++ ['"']), e.toNat < 128 := by
    intro e he
    simp only [List.mem_append, List.mem_replicate, List.mem_singleton] at he
    rcases he with he | ⟨-, rfl⟩ | rfl
    · exact hword letters hletters e he
    · decide
    · decide
  have hlength : letters.length + hashes + 1 =
      (letters ++ (List.replicate hashes '#' ++ ['"'])).length := by
    simp [Nat.add_assoc]
  have hsplit : letters ++ (List.replicate hashes '#' ++ '"' :: rest) =
      letters ++ (List.replicate hashes '#' ++ ['"']) ++ rest := by simp
  rw [hsplit, hlength, bytewise_append_of_ascii hopening, List.drop_left, List.drop_left]
  refine .append_ascii _ hopening ?_
  rw [Nat.zero_add]
  exact rawLength_bytewise hashes _ _ rest

theorem inBrackets_of_le {d : Char} (hd : 128 ≤ d.toNat) (inBrackets : Bool) :
    (d == '[' || inBrackets && d != ']') = inBrackets := by
  cases inBrackets <;> simp [ne_of_le (show '['.toNat < 128 by decide) hd,
    ne_of_le (show ']'.toNat < 128 by decide) hd]

theorem regexLength_cons_of_le {d : Char} (hd : 128 ≤ d.toNat) (inBrackets : Bool) (n : Nat)
    (ds : List Char) :
    regexLength inBrackets n (d :: ds) = regexLength inBrackets (n + 1) ds := by
  have hslash : d ≠ '/' := ne_of_le (by decide) hd
  have hescape : d ≠ '\\' := ne_of_le (by decide) hd
  rw [regexLength, if_neg (ne_of_le (by decide) hd), if_neg (by simp [hslash]),
    inBrackets_of_le hd]
  · exact fun h => absurd h hescape
  · exact fun _ _ h => absurd h hescape

theorem regexLength_bytewise (inBrackets : Bool) (m n : Nat) (cs : List Char) :
    SameEnd cs m n (regexLength inBrackets m cs) (regexLength inBrackets n (bytewise cs)) := by
  fun_induction regexLength inBrackets m cs generalizing n with
  | case1 => exact .none
  | case2 => exact .none
  | case3 => exact .none
  | case4 inBrackets m c cs hc ih =>
    -- The escape takes the first byte of `c`, and the others are passed.
    obtain ⟨d, high, hd, hhigh⟩ := exists_bytewise_singleton c
    have hline : d ≠ '\n' := ne_of_mem_bytewise (by decide) hc (by simp [hd])
    have hsize : c.utf8Size = high.length + 1 := by
      rw [← length_bytewise_singleton, hd, List.length_cons]
    have hbytes : regexLength inBrackets n (bytewise ('\\' :: c :: cs)) =
        regexLength inBrackets (n + byteSize ['\\', c]) (bytewise cs) := by
      rw [bytewise_cons_of_lt (by decide), bytewise_cons, hd, List.cons_append, regexLength,
        if_neg hline,
        pass_append (fun n e ds he => regexLength_cons_of_le he inBrackets n ds) hhigh]
      congr 1
      have hmark : byteSize ['\\', c] = 1 + c.utf8Size := rfl
      omega
    rw [hbytes]
    exact (ih (n + byteSize ['\\', c])).append ['\\', c]
  | case5 inBrackets m cs =>
    rw [bytewise_cons_of_lt (by decide), regexLength, if_pos rfl]
    · exact .none
    · exact fun h => absurd h (by decide)
    · exact fun _ _ h => absurd h (by decide)
  | case6 inBrackets m c cs _ _ hc hclose =>
    obtain ⟨hslash, hout⟩ := Bool.and_eq_true_iff.mp hclose
    obtain rfl := beq_iff_eq.mp hslash
    have hletters : ∀ e : Char, e.isAlpha = true → e.toNat < 128 :=
      fun e he => toNat_lt_of_isAlphanum (by simp [Char.isAlphanum, he])
    have hflags : ∀ e ∈ cs.takeWhile Char.isAlpha, e.toNat < 128 :=
      fun e he => hletters e (List.mem_takeWhile_imp he)
    rw [bytewise_cons_of_lt (by decide), regexLength, if_neg hc, if_pos hclose,
      takeWhile_bytewise hletters]
    · exact .cons (by decide) (.ascii List.takeWhile_append_dropWhile.symm hflags)
    · exact fun h => absurd h (by decide)
    · exact fun _ _ h => absurd h (by decide)
  | case7 inBrackets m c cs hend hescape hc hclose ih =>
    have hplain : c ≠ '\\' := by
      rintro rfl
      cases cs with
      | nil => exact hend rfl rfl
      | cons d ds => exact hescape d ds rfl rfl
    by_cases hlow : c.toNat < 128
    · rw [bytewise_cons_of_lt hlow, regexLength, if_neg hc, if_neg hclose]
      · exact (ih (n + 1)).cons hlow
      · exact fun h => absurd h hplain
      · exact fun _ _ h => absurd h hplain
    · have hhigh : ∀ d ∈ bytewise [c], 128 ≤ d.toNat := 
        fun d hd => le_of_mem_bytewise (Nat.le_of_not_lt hlow) hd
      rw [inBrackets_of_le (Nat.le_of_not_lt hlow)] at ih ⊢
      exact .pass (fun n e ds he => regexLength_cons_of_le he inBrackets n ds) hhigh ih

/-! ## Numbers -/

theorem startsWithDigit_bytewise (cs : List Char) :
    startsWithDigit (bytewise cs) = startsWithDigit cs := by
  cases cs with
  | nil => rfl
  | cons c cs =>
    obtain ⟨d, ds, hd, hsame⟩ := exists_bytewise_cons c cs
    rw [hd]
    exact hsame Char.isDigit fun e he => toNat_lt_of_isAlphanum (by simp [Char.isAlphanum, he])

theorem isHexNumber_bytewise (cs : List Char) : isHexNumber (bytewise cs) = isHexNumber cs := by
  rw [Bool.eq_iff_iff, isHexNumber_iff, isHexNumber_iff, prefix_bytewise_iff (by simp),
    prefix_bytewise_iff (by simp)]

theorem numberRest_cons_of_le {d : Char} (hd : 128 ≤ d.toNat) (hex afterExponent : Bool) (n : Nat)
    (ds : List Char) : numberRest hex afterExponent n (d :: ds) = n := by
  have hword : d.isAlphanum = false :=
    Bool.eq_false_iff.mpr fun h => absurd (toNat_lt_of_isAlphanum h) (by omega)
  have hne : ∀ mark : Char, mark.toNat < 128 → d ≠ mark := fun _ hmark => ne_of_le hmark hd
  simp [numberRest, hword, hne '_' (by decide), hne '\'' (by decide), hne '.' (by decide),
    hne '+' (by decide), hne '-' (by decide)]

theorem numberRest_bytewise (hex afterExponent : Bool) (m n : Nat) (cs : List Char) :
    SameEnd cs m n (some (numberRest hex afterExponent m cs))
      (some (numberRest hex afterExponent n (bytewise cs))) := by
  induction cs generalizing afterExponent m n with
  | nil => exact .some [] [] rfl
  | cons c cs ih =>
    by_cases hlow : c.toNat < 128
    · rw [bytewise_cons_of_lt hlow, numberRest, numberRest, startsWithDigit_bytewise]
      split_ifs
      · exact (ih _ (m + 1) (n + 1)).cons hlow
      · exact (ih false (m + 1) (n + 1)).cons hlow
      · exact (ih false (m + 1) (n + 1)).cons hlow
      · exact .some [] (c :: cs) rfl
    · -- The first byte of a longer code ends a number as the character does.
      have hhigh := Nat.le_of_not_lt hlow
      obtain ⟨d, high, hd, -⟩ := exists_bytewise_singleton c
      have hfirst : 128 ≤ d.toNat := le_of_mem_bytewise hhigh (by simp [hd])
      rw [bytewise_cons, hd, List.cons_append, numberRest_cons_of_le hfirst,
        numberRest_cons_of_le hhigh]
      exact .some [] (c :: cs) rfl

theorem numberLength_bytewise (cs : List Char) :
    SameEnd cs 0 0 (some (numberLength cs)) (some (numberLength (bytewise cs))) := by
  rw [numberLength, numberLength, isHexNumber_bytewise]
  exact numberRest_bytewise _ false 0 0 cs

end Lexeme

end CloneDetection
