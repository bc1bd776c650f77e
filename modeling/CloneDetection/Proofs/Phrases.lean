import CloneDetection.CommandLine.Arguments

/-!
# Arguments as phrases

Arguments before `--` are read in phrases: a flag, an option with its value, or a root. A value may
be spelled like anything, so it is the reading that says where a phrase ends (`Phrase.next?`).
Arguments split into phrases in one way only (`Phrase.Splits.unique`). Those that select something
do split (`Selection.exists_splits`), and are read phrase by phrase (`Selection.read_of_splits`).
-/

namespace CloneDetection

/-! ## Spellings -/

namespace Flag

theorem ofSpelling?_spelling (flag : Flag) : ofSpelling? flag.spelling = some flag := by
  cases flag <;> decide

theorem ofSpelling?_parameter (option : Parameter) : ofSpelling? option.spelling = none := by
  cases option <;> decide

theorem spelling_eq {arg : String} {flag : Flag} (h : ofSpelling? arg = some flag) :
    flag.spelling = arg := by
  simpa using List.find?_some h

/-- What does not start with a hyphen is no flag. -/
theorem ofSpelling?_eq_none {arg : String} (h : arg.toList.head? ≠ some '-') :
    ofSpelling? arg = none := by
  refine List.find?_eq_none.mpr fun flag _ hflag => h ?_
  rw [← beq_iff_eq.mp hflag]
  cases flag <;> rfl

end Flag

namespace Parameter

theorem ofSpelling?_spelling (option : Parameter) : ofSpelling? option.spelling = some option := by
  cases option <;> decide

theorem spelling_eq {arg : String} {option : Parameter} (h : ofSpelling? arg = some option) :
    option.spelling = arg := by
  simpa using List.find?_some h

/-- What does not start with a hyphen is no option. -/
theorem ofSpelling?_eq_none {arg : String} (h : arg.toList.head? ≠ some '-') :
    ofSpelling? arg = none := by
  refine List.find?_eq_none.mpr fun option _ hoption => h ?_
  rw [← beq_iff_eq.mp hoption]
  cases option <;> rfl

end Parameter

/-! ## Phrases -/

/-- Arguments that are read together. -/
inductive Phrase
  | flag (flag : Flag)
  | parameter (option : Parameter) (value : String)
  | root (path : String)
  deriving DecidableEq, Repr

namespace Phrase

/-- All roots are of one kind, and so is what uses the same flag or the same option. -/
inductive Kind
  | flag (flag : Flag)
  | parameter (option : Parameter)
  | root
  deriving DecidableEq, Repr

/-- The kind of a phrase. -/
def kind : Phrase → Kind
  | .flag f => .flag f
  | .parameter option _ => .parameter option
  | .root _ => .root

/-- The arguments of a phrase. -/
def args : Phrase → List String
  | .flag f => [f.spelling]
  | .parameter option value => [option.spelling, value]
  | .root path => [path]

/-- Whether a phrase is read as it is: a root must not start like an option. -/
def IsPlain : Phrase → Prop
  | .root path => path.toList.head? ≠ some '-'
  | _ => True

/-- The first phrase of some arguments, and the arguments after it. -/
def next? : List String → Option (Phrase × List String)
  | [] => none
  | arg :: rest =>
    match Flag.ofSpelling? arg with
    | some f => some (.flag f, rest)
    | none =>
      match Parameter.ofSpelling? arg with
      | some option => rest.head?.map fun value => (.parameter option value, rest.tail)
      | none => if arg.toList.head? = some '-' then none else some (.root arg, rest)

theorem next?_args_append {p : Phrase} (hp : p.IsPlain) (rest : List String) :
    next? (p.args ++ rest) = some (p, rest) := by
  cases p with
  | flag f => simp [args, next?, Flag.ofSpelling?_spelling]
  | parameter option value =>
    simp [args, next?, Flag.ofSpelling?_parameter, Parameter.ofSpelling?_spelling]
  | root path =>
    simp [args, next?, Flag.ofSpelling?_eq_none hp, Parameter.ofSpelling?_eq_none hp, if_neg hp]

end Phrase

namespace Selection

/-- The selection after a phrase. -/
def apply (s : Selection) : Phrase → Except UsageError Selection
  | .flag f => .ok (s.setFlag f)
  | .parameter option value => s.setParameter option value
  | .root path => .ok (s.addRoots [path])

/-- Reading takes the arguments of a phrase together. -/
theorem read_args_append {p : Phrase} (hp : p.IsPlain) (s : Selection) (rest : List String) :
    s.read (p.args ++ rest) = s.apply p >>= fun t => t.read rest := by
  cases p with
  | flag f => cases f <;> rfl
  | parameter option value =>
    -- an option is none of the arguments that are looked for before it
    have hreserved : option.spelling ∉ ["--", "-h", "--help", "-V", "--version"] := by
      cases option <;> decide
    simp only [List.mem_cons, List.not_mem_nil, or_false, not_or] at hreserved
    change s.read (option.spelling :: value :: rest) = s.setParameter option value >>= _
    rw [read, if_neg hreserved.1, if_neg (by simp [hreserved]), if_neg (by simp [hreserved]),
      Flag.ofSpelling?_parameter, Parameter.ofSpelling?_spelling]
    dsimp only
    cases s.setParameter option value <;> rfl
  | root path =>
    have hreserved : path ∉ ["--", "-h", "--help", "-V", "--version"] := by
      intro hmem
      simp only [List.mem_cons, List.not_mem_nil, or_false] at hmem
      rcases hmem with rfl | rfl | rfl | rfl | rfl <;> exact hp rfl
    simp only [List.mem_cons, List.not_mem_nil, or_false, not_or] at hreserved
    change s.read (path :: rest) = (s.addRoots [path]).read rest
    rw [read, if_neg hreserved.1, if_neg (by simp [hreserved]), if_neg (by simp [hreserved]),
      Flag.ofSpelling?_eq_none hp, Parameter.ofSpelling?_eq_none hp]
    exact if_neg hp

end Selection

/-! ## Splitting arguments -/

namespace Phrase

/-- Whether arguments are those of some phrases, one after the other, and of a tail that is empty or
starts with `--`. -/
structure Splits (args : List String) (phrases : List Phrase) (tail : List String) : Prop where
  args_eq : phrases.flatMap Phrase.args ++ tail = args
  isPlain : ∀ p ∈ phrases, p.IsPlain
  tail_eq : tail = [] ∨ tail.head? = some "--"

namespace Splits

variable {args rest tail tail' : List String} {p : Phrase} {phrases phrases' : List Phrase}

theorem nil (h : args = [] ∨ args.head? = some "--") : Splits args [] args :=
  ⟨rfl, fun _ hp => absurd hp List.not_mem_nil, h⟩

theorem cons (hp : p.IsPlain) (h : Splits rest phrases tail) :
    Splits (p.args ++ rest) (p :: phrases) tail where
  args_eq := by rw [List.flatMap_cons, List.append_assoc, h.args_eq]
  isPlain := List.forall_mem_cons.mpr ⟨hp, h.isPlain⟩
  tail_eq := h.tail_eq

theorem exists_of_cons (h : Splits args (p :: phrases) tail) :
    ∃ rest, args = p.args ++ rest ∧ next? args = some (p, rest) ∧ Splits rest phrases tail := by
  obtain ⟨hp, hphrases⟩ := List.forall_mem_cons.mp h.isPlain
  refine ⟨phrases.flatMap Phrase.args ++ tail, ?_, ?_, rfl, hphrases, h.tail_eq⟩
  · rw [← h.args_eq, List.flatMap_cons, List.append_assoc]
  · rw [← h.args_eq, List.flatMap_cons, List.append_assoc, next?_args_append hp]

theorem next?_of_nil (h : Splits args [] tail) : next? args = none := by
  rw [← h.args_eq, List.flatMap_nil, List.nil_append]
  rcases h.tail_eq with rfl | hhead
  · rfl
  · obtain ⟨rest, rfl⟩ := List.head?_eq_some_iff.mp hhead
    rfl

/-- Arguments split in one way only: the first phrase is the one that is read first. -/
theorem unique (h : Splits args phrases tail) (h' : Splits args phrases' tail') :
    phrases' = phrases ∧ tail' = tail := by
  induction phrases generalizing args phrases' with
  | nil =>
    cases phrases' with
    | nil => exact ⟨rfl, h'.args_eq.trans h.args_eq.symm⟩
    | cons q phrases' =>
      obtain ⟨rest, -, hnext, -⟩ := h'.exists_of_cons
      cases hnext.symm.trans h.next?_of_nil
  | cons p phrases ih =>
    obtain ⟨rest, -, hnext, hrest⟩ := h.exists_of_cons
    cases phrases' with
    | nil => cases hnext.symm.trans h'.next?_of_nil
    | cons q phrases' =>
      obtain ⟨rest', -, hnext', hrest'⟩ := h'.exists_of_cons
      obtain ⟨rfl, rfl⟩ := Prod.mk.inj (Option.some.inj (hnext'.symm.trans hnext))
      obtain ⟨rfl, rfl⟩ := ih hrest hrest'
      exact ⟨rfl, rfl⟩

end Splits

end Phrase

namespace Selection

open Phrase (Splits)

variable {s t : Selection} {args tail : List String} {phrases : List Phrase}

/-- Arguments that select something are phrases and a tail. -/
theorem exists_splits (h : s.read args = .ok (.detect t)) :
    ∃ phrases tail, Splits args phrases tail := by
  fun_induction read s args with
  | case1 s => exact ⟨[], [], .nil (.inl rfl)⟩
  | case2 s rest => exact ⟨[], _, .nil (.inr rfl)⟩
  | case3 | case4 | case6 | case8 | case9 => cases h
  | case5 s arg rest _ _ _ f hf ih =>
    obtain ⟨phrases, tail, hsplit⟩ := ih h
    obtain rfl := Flag.spelling_eq hf
    exact ⟨.flag f :: phrases, tail, hsplit.cons (p := .flag f) trivial⟩
  | case7 s arg _ _ _ _ option hoption value rest t hset ih =>
    obtain ⟨phrases, tail, hsplit⟩ := ih h
    obtain rfl := Parameter.spelling_eq hoption
    exact ⟨.parameter option value :: phrases, tail,
      hsplit.cons (p := .parameter option value) trivial⟩
  | case10 s arg rest _ _ _ _ _ hplain ih =>
    obtain ⟨phrases, tail, hsplit⟩ := ih h
    exact ⟨.root arg :: phrases, tail, hsplit.cons (p := .root arg) hplain⟩

theorem addRoots_nil (s : Selection) : s.addRoots [] = s := by
  rw [addRoots, List.append_nil]

/-- Reading goes phrase by phrase, and takes the tail without its `--` for roots. -/
theorem read_of_splits (h : Splits args phrases tail) (s : Selection) :
    s.read args = phrases.foldlM apply s >>= fun t => .ok (.detect (t.addRoots tail.tail)) := by
  induction phrases generalizing args s with
  | nil =>
    rw [← h.args_eq, List.flatMap_nil, List.nil_append]
    rcases h.tail_eq with rfl | hhead
    · rw [List.tail_nil, List.foldlM_nil, pure_bind, addRoots_nil]
      rfl
    · obtain ⟨rest, rfl⟩ := List.head?_eq_some_iff.mp hhead
      rfl
  | cons p phrases ih =>
    obtain ⟨rest, rfl, -, hrest⟩ := h.exists_of_cons
    rw [read_args_append (h.isPlain p List.mem_cons_self), List.foldlM_cons, bind_assoc]
    exact bind_congr fun t => ih hrest t

end Selection

end CloneDetection
