import CloneDetection.Proofs.ByteScans
import CloneDetection.Proofs.Containment
import CloneDetection.Proofs.LineEndings

/-!
# Locations quote their files

A location holds the bytes of its file from the start of one token to the end of another, as a text,
with the lines of these bytes (`Location.Quotes`). The line of an offset is told by the newline
bytes before it (`Text.lineOf_lineStarts`). That of the end is looked up one byte before it, which
makes no difference, because no token ends with a newline (`Grammar.Reads.getLast?_ne`,
`newlines_extract_stop`).
-/

namespace CloneDetection

/-! ## Lines -/

namespace Text

variable {bytes : ByteArray} {start stop : Nat}

/-- The number of newline bytes. -/
def newlines (bytes : ByteArray) : Nat :=
  bytes.data.toList.count newlineByte

theorem newlines_append (before after : ByteArray) :
    newlines (before ++ after) = newlines before + newlines after := by
  simp [newlines]

theorem newlines_extract_add (h : start ≤ stop) (bytes : ByteArray) :
    newlines (bytes.extract 0 start) + newlines (bytes.extract start stop) =
      newlines (bytes.extract 0 stop) := by
  rw [← newlines_append, ByteArray.extract_append_extract, Nat.zero_min, Nat.max_eq_right h]

theorem newlines_extract_le (h : start ≤ stop) (bytes : ByteArray) :
    newlines (bytes.extract 0 start) ≤ newlines (bytes.extract 0 stop) := by
  have hadd := newlines_extract_add h bytes
  omega

theorem toList_extract (bytes : ByteArray) (start stop : Nat) :
    (bytes.extract start stop).data.toList =
      (bytes.data.toList.drop start).take (stop - start) := by
  rw [ByteArray.data_extract, Array.toList_extract, List.extract_eq_take_drop]

/-- A beginning has no more newlines than the whole. -/
theorem newlines_extract_le_newlines (bytes : ByteArray) (offset : Nat) :
    newlines (bytes.extract 0 offset) ≤ newlines bytes := by
  rw [newlines, toList_extract, List.drop_zero]
  exact (List.take_sublist _ _).count_le newlineByte

theorem newlines_extract_one (bytes : ByteArray) (i : Nat) :
    newlines (bytes.extract i (i + 1)) = if bytes[i]? == some newlineByte then 1 else 0 := by
  have hget : bytes[i]? = bytes.data.toList[i]? := Array.getElem?_toList.symm
  rw [newlines, toList_extract, Nat.add_sub_cancel_left, List.take_one, List.head?_drop, hget]
  cases bytes.data.toList[i]? with
  | none => rfl
  | some byte => simp [List.count_singleton]

/-- Behind the end of the file there are no more newlines. -/
theorem newlines_extract_min (bytes : ByteArray) (offset : Nat) :
    newlines (bytes.extract 0 (min offset bytes.size)) = newlines (bytes.extract 0 offset) := by
  have hsize : bytes.data.toList.length = bytes.size := Array.length_toList
  rw [newlines, newlines, toList_extract, toList_extract, Nat.sub_zero, Nat.sub_zero,
    List.drop_zero]
  congr 1
  exact List.take_eq_take_iff.mpr (by omega)

/-- The newline bytes that the first `n` offsets find. -/
theorem length_filter_range (bytes : ByteArray) (n : Nat) :
    ((List.range n).filter fun i => bytes[i]? == some newlineByte).length =
      newlines (bytes.extract 0 n) := by
  induction n with
  | zero => simp [newlines]
  | succ n ih =>
    rw [List.range_succ, List.filter_append, List.length_append, ih,
      ← newlines_extract_add (Nat.le_succ n), newlines_extract_one]
    split <;> simp_all

/-- The offsets up to a bound come first among those in increasing order. -/
theorem takeWhile_filter_range (p : Nat → Bool) (offset size : Nat) :
    ((List.range size).filter p).takeWhile (· < offset) =
      (List.range (min offset size)).filter p := by
  have hlow : ∀ i ∈ (List.range (min offset size)).filter p, decide (i < offset) = true := by
    intro i hi
    have hlt := List.mem_range.mp (List.mem_of_mem_filter hi)
    exact decide_eq_true (by omega)
  obtain ⟨more, hmore⟩ : ∃ more, size = min offset size + more := ⟨size - min offset size, by omega⟩
  have hhigh : (((List.range more).map (min offset size + ·)).filter p).takeWhile (· < offset) =
      [] := by
    rw [List.takeWhile_eq_nil_iff]
    intro hpos hlt
    obtain ⟨i, hi, hget⟩ := List.mem_map.mp (List.mem_of_mem_filter (List.get_mem _ ⟨0, hpos⟩))
    have hi := List.mem_range.mp hi
    rw [decide_eq_true_eq, ← hget] at hlt
    omega
  conv_lhs => rw [hmore]
  rw [List.range_add, List.filter_append, List.takeWhile_append_of_pos hlow, hhigh, List.append_nil]

/-- The line of an offset is told by the newline bytes before it. -/
theorem lineOf_lineStarts (bytes : ByteArray) (offset : Nat) :
    lineOf (lineStarts bytes) offset = min (1 + newlines (bytes.extract 0 offset)) lineLimit := by
  have hbefore : ((lineStarts bytes).takeWhile (· ≤ offset)).length =
      newlines (bytes.extract 0 offset) + 1 := by
    rw [lineStarts, List.takeWhile_cons_of_pos (by simp), List.takeWhile_map, List.length_cons,
      List.length_map, ← newlines_extract_min, ← length_filter_range, ← takeWhile_filter_range]
    rfl
  rw [lineOf, hbefore, Nat.max_eq_left (Nat.le_add_left 1 _), Nat.add_comm]

theorem newlineByte_not_mem_utf8EncodeChar {c : Char} (h : c ≠ '\n') :
    newlineByte ∉ String.utf8EncodeChar c := by
  intro hbyte
  have hten : newlineByte.toNat = 10 := rfl
  have hrange := toNat_of_mem_utf8EncodeChar hbyte
  exact h (Char.ext (UInt32.toNat_inj.mp (show c.val.toNat = 10 by omega)))

theorem newlines_utf8Encode_singleton {c : Char} (h : c ≠ '\n') : newlines [c].utf8Encode = 0 := by
  rw [newlines, List.utf8Encode_singleton, List.data_toByteArray, List.count_eq_zero]
  exact newlineByte_not_mem_utf8EncodeChar h

/-- Behind a character other than a newline, the byte before is no newline either. -/
theorem newlines_extract_pred {last : Char} (h : last ≠ '\n') (before after : List Char) :
    let bytes := (before ++ [last] ++ after).utf8Encode
    newlines (bytes.extract 0 (byteSize (before ++ [last]) - 1)) =
      newlines (bytes.extract 0 (byteSize (before ++ [last]))) := by
  intro bytes
  have hlast : newlines (bytes.extract (byteSize before) (byteSize (before ++ [last]))) = 0 := by
    rw [byteSize_append, extract_utf8Encode, newlines_utf8Encode_singleton h]
  have hlt : byteSize before < byteSize (before ++ [last]) := by
    have hpos := byteSize_pos (List.cons_ne_nil last [])
    rw [byteSize_append]
    omega
  -- the newlines before the character are all there are
  have hadd := newlines_extract_add hlt.le bytes
  have hlow := newlines_extract_le (Nat.le_sub_one_of_lt hlt) bytes
  have hhigh := newlines_extract_le (Nat.sub_le (byteSize (before ++ [last])) 1) bytes
  omega

end Text

/-! ## The end of a token -/

section Tokens

variable {g : Grammar} {ctx : Context} {c : Char} {cs mark : List Char} {kind : TokenKind}
  {m n : Nat}

theorem Lexeme.Closes.getLast?_ne (h : Closes mark (cs.drop n) n m) (hne : mark ≠ [])
    (hline : '\n' ∉ mark) : (cs.take m).getLast? ≠ some '\n' := by
  obtain ⟨body, hbody⟩ := h.exists_drop_take
  have hpos := List.length_pos_iff.mpr hne
  have hlength := congrArg List.length hbody
  rw [List.length_drop, List.length_append] at hlength
  have hlast := congrArg List.getLast? hbody
  rw [List.getLast?_drop, if_neg (by omega), List.getLast?_append_of_ne_nil _ hne] at hlast
  rw [hlast]
  exact fun hnewline => hline (List.mem_of_getLast? hnewline)

theorem Text.OnLine.getLast?_ne (h : OnLine cs n) : (cs.take n).getLast? ≠ some '\n' := fun hlast =>
  h.newline (List.mem_of_getLast? hlast)

/-- No token ends with a newline. -/
theorem Grammar.Reads.getLast?_ne (h : g.Reads ctx c cs kind n) (hc : c ≠ '\n')
    (hmarks : '\n' ∉ g.closingMarks) : ((c :: cs).take n).getLast? ≠ some '\n' := by
  cases h with
  | lineComment => exact (Lexeme.onLine_lineLength _).getLast?_ne
  | blockComment _ _ closes => exact closes.getLast?_ne (by simp) (by decide)
  | @pattern n flags _ _ _ letters closes =>
    have closes : Lexeme.Closes ('/' :: flags) ((c :: cs).drop 1) 1 n := closes
    refine closes.getLast?_ne (List.cons_ne_nil _ _) fun hmem => ?_
    rcases List.mem_cons.mp hmem with hslash | hmem
    · exact absurd hslash (by decide)
    · exact absurd (letters _ hmem) (by decide)
  | literal _ literal =>
    obtain ⟨-, opening, close, hashes, -, hclose, closes⟩ := literal
    refine closes.getLast?_ne (by simp) fun hmem => ?_
    rcases List.mem_cons.mp hmem with rfl | hmem
    · exact hmarks hclose
    · exact absurd (List.eq_of_mem_replicate hmem) (by decide)
  | number => exact (Lexeme.onLine_numberLength (c :: cs)).getLast?_ne
  | name => exact (Text.OnLine.takeWhile g.continuesName_lineEnd.1 (c :: cs)).getLast?_ne
  | punctuation opens number starts mark =>
    have hreads : g.Reads ctx c cs .punctuation (operatorLength (c :: cs)) :=
      .punctuation opens number starts mark
    exact (hreads.onLine hc (by decide) (by decide)).getLast?_ne
  | unknown => exact (Text.OnLine.first hc cs).getLast?_ne

/-- The last byte of a token is no newline. -/
theorem newlines_extract_stop {source : ByteArray} {tag : String} {options : TokenizeOptions}
    {tokens : TokenStream} (h : tokenize source tag options = .ok tokens) {t : Token}
    (ht : t ∈ tokens) :
    Text.newlines (source.extract 0 (t.stop - 1)) = Text.newlines (source.extract 0 t.stop) := by
  obtain ⟨language, cs, lexemes, rfl, hlex, rfl⟩ := tokenize_eq_ok h
  obtain ⟨l, hl, -, hstop⟩ := Grammar.exists_lexeme_of_mem_tokensOf ht
  obtain ⟨ctx, c, more, rest, hchars, hblank, hreads⟩ := exists_reads_of_mem_lex hlex hl
  obtain ⟨hne, before, after, rfl, hstart⟩ := (lex_spec hlex).1 l hl
  have hc : c ≠ '\n' := by
    rintro rfl
    exact absurd hblank (by decide)
  have hmarks : '\n' ∉ language.grammar.closingMarks := fun hmem =>
    absurd (language.unambiguous.marks _ hmem) (by decide)
  have hlast := hreads.getLast?_ne hc hmarks
  have htaken : (c :: (more ++ rest)).take (more.length + 1) = l.chars := by
    rw [hchars, List.take_succ_cons, List.take_left]
  rw [htaken] at hlast
  obtain ⟨body, last, hbody⟩ := (List.eq_nil_or_concat' l.chars).resolve_left hne
  have hnewline : last ≠ '\n' := by
    rintro rfl
    exact hlast (by rw [hbody, List.getLast?_concat])
  have hsize : t.stop = Text.byteSize (before ++ body ++ [last]) := by
    rw [hstop, Lexeme.stop, hstart, Nat.zero_add, hbody, ← Text.byteSize_append, List.append_assoc]
  rw [hsize, hbody, ← List.append_assoc before]
  exact Text.newlines_extract_pred hnewline _ after

end Tokens

/-! ## Locations -/

/-- A location names a document, and quotes it from the start of a token to the end of a token, with
the lines that it quotes. -/
structure Location.Quotes (l : Location) (doc : Document) : Prop where
  file : l.file = doc.file.id
  revision : l.revision = doc.file.revision
  starts : ∃ t ∈ doc.tokens, t.start = l.startOffset
  stops : ∃ t ∈ doc.tokens, t.stop = l.endOffset
  bounds : l.startOffset < l.endOffset ∧ l.endOffset ≤ doc.file.content.size
  content : l.content.toUTF8 = doc.file.content.extract l.startOffset l.endOffset
  nonempty : l.content ≠ ""
  /-- In a file with fewer lines than can be counted. -/
  lines : Text.newlines doc.file.content + 1 < 2 ^ 32 →
    l.startLine = 1 + Text.newlines (doc.file.content.extract 0 l.startOffset) ∧
      l.endLine = l.startLine + Text.newlines l.content.toUTF8

namespace Resolve

theorem slice?_eq_some {bytes : ByteArray} {start stop : Nat} {content : String}
    (h : slice? bytes start stop = some content) :
    stop ≤ bytes.size ∧ content.toUTF8 = bytes.extract start stop := by
  unfold slice? at h
  split at h
  case isTrue hbounds =>
    unfold String.fromUTF8? at h
    split at h
    · cases h
      exact ⟨hbounds.2, rfl⟩
    · cases h
  case isFalse => cases h

theorem locate_quotes {docs : Array Document} {range : TokenRange} {l : Location}
    {options : TokenizeOptions} (htokens : ∀ doc ∈ docs,
      tokenize doc.file.content doc.file.language options = .ok doc.tokens)
    (h : locate docs (docs.map fun doc => Text.lineStarts doc.file.content) range = .ok l) :
    ∃ doc ∈ docs, l.Quotes doc := by
  obtain ⟨doc, hdoc, hspans, hslice, hstartLine, hendLine⟩ := locate_eq_ok h
  have hmem := Array.mem_of_getElem? hdoc
  have htokenize := htokens doc hmem
  obtain ⟨hlt, first, last, hfirst, hlast, hstart, hstop⟩ :=
    TokenStream.byteRange_eq_some_iff.mp hspans.bytes
  obtain ⟨hsize, hcontent⟩ := slice?_eq_some hslice
  have hordered := (placed_of_tokenize htokenize).toOrdered
  have hbounds : l.startOffset < l.endOffset := by
    have hle := (hordered.le_iff hfirst hlast).1.mpr (by omega)
    have hpos := hordered.lt_of_getElem? hlast
    omega
  refine ⟨doc, hmem, hspans.file, hspans.revision, ⟨first, Array.mem_of_getElem? hfirst, hstart⟩,
    ⟨last, Array.mem_of_getElem? hlast, hstop⟩, ⟨hbounds, hsize⟩, hcontent, ?_, ?_⟩
  · intro hempty
    have hlength := congrArg ByteArray.size hcontent
    have hzero : "".toUTF8.size = 0 := rfl
    rw [hempty, hzero, ByteArray.size_extract] at hlength
    omega
  · intro hlines
    have hstarts : (docs.map fun doc => Text.lineStarts doc.file.content)[range.stream]?.getD [] =
        Text.lineStarts doc.file.content := by
      rw [Array.getElem?_map, hdoc]
      rfl
    have hoffset : max (l.endOffset - 1) l.startOffset = l.endOffset - 1 := by omega
    rw [hstarts, Text.lineOf_lineStarts] at hstartLine hendLine
    rw [hoffset, ← hstop, newlines_extract_stop htokenize (Array.mem_of_getElem? hlast),
      hstop] at hendLine
    have hadd := Text.newlines_extract_add hbounds.le doc.file.content
    have hall := Text.newlines_extract_le_newlines doc.file.content l.endOffset
    rw [hcontent, hstartLine, hendLine, Text.lineLimit]
    omega

end Resolve

namespace Detection

variable {settings : Settings} {files : List SourceFile} {outcome : Outcome} {p : ClonePair}
  {l : Location}

/-- **Locations quote their files.** Whatever the settings, each location of a reported pair quotes
the one file of the request that it names. -/
theorem exists_quotes (h : detect settings files = .ok outcome) (hp : p ∈ outcome.clonePairs)
    (hl : l = p.target ∨ l = p.source) : ∃ doc, IsDocument settings files doc ∧ l.Quotes doc ∧
      ∀ file ∈ files, file.identity = (l.file, l.revision) → file = doc.file := by
  obtain ⟨-, hrequest, intake, hintake, hcompare⟩ := detect_eq_ok_iff.mp h
  have hdocs : ∀ doc ∈ intake.documents.toArray, IsDocument settings files doc := fun doc hdoc =>
    (mem_documents_iff hintake).mp (List.mem_toArray.mp hdoc)
  rcases Nat.lt_or_ge intake.documents.length 2 with hfew | htwo
  · rw [clonePairs_of_length_lt_two hfew hcompare] at hp
    cases hp
  · obtain ⟨index, pairs, hindex, hpairs, rfl⟩ := (compare_eq_ok_iff htwo).mp hcompare
    obtain ⟨matches_, hmatches, hpairs⟩ := bind_eq_ok_iff.mp hpairs
    obtain ⟨m, -, hpair⟩ := exists_of_forall₂ (mapM_eq_ok_iff.mp hpairs).flip hp
    obtain ⟨-, htarget, hsource⟩ := Resolve.pairOf_eq_ok hpair
    obtain ⟨doc, hdoc, hquotes⟩ : ∃ doc ∈ intake.documents.toArray, l.Quotes doc := by
      rcases hl with rfl | rfl
      · exact Resolve.locate_quotes (fun doc hdoc => (hdocs doc hdoc).tokenize_eq) htarget
      · exact Resolve.locate_quotes (fun doc hdoc => (hdocs doc hdoc).tokenize_eq) hsource
    refine ⟨doc, hdocs doc hdoc, hquotes, fun file hfile hidentity => ?_⟩
    refine List.inj_on_of_nodup_map (checkRequest_eq_ok_iff.mp hrequest).2 hfile
      (hdocs doc hdoc).mem ?_
    rw [hidentity, hquotes.file, hquotes.revision]
    rfl

/-- The run of four tokens is quoted from its file. -/
theorem exists_quotes_nested : ∃ outcome,
    detect nestedSettings (nestedDocuments.map (·.file)) = .ok outcome ∧
      ∃ p ∈ outcome.clonePairs, p.target.content = "a b c d" ∧ p.target.startLine = 1 ∧
        p.target.endLine = 1 := by
  obtain ⟨outcome, p, q, h, hpairs, hp, -⟩ := detect_nested
  have hmem : p ∈ outcome.clonePairs := by rw [hpairs]; exact List.mem_cons_self
  refine ⟨outcome, h, p, hmem, ?_⟩
  obtain ⟨doc, -, hquotes, hunique⟩ := exists_quotes h hmem (Or.inl rfl)
  obtain ⟨first, hfirst, hspans⟩ := hp.target
  obtain rfl : nestedDocuments.toArray[0] = first := Option.some.inj hfirst
  have hfile : nestedDocuments[0].file = doc.file := by
    refine hunique _ (by simp [nestedDocuments]) ?_
    rw [hspans.file, hspans.revision]
    rfl
  have hoffsets : (2, 9) = (p.target.startOffset, p.target.endOffset) :=
    Option.some.inj ((by decide +kernel : some (2, 9) = _).trans hspans.bytes)
  obtain ⟨hstart, hstop⟩ := Prod.mk.inj hoffsets
  have hcontent : p.target.content = "a b c d" := by
    have hbytes : nestedDocuments[0].file.content.extract 2 9 = "a b c d".toUTF8 := by
      decide +kernel
    refine String.toByteArray_inj.mp (hquotes.content.trans ?_)
    rw [← hfile, ← hstart, ← hstop]
    exact hbytes
  obtain ⟨hstartLine, hendLine⟩ := hquotes.lines (by rw [← hfile]; decide +kernel)
  have hone : p.target.startLine = 1 := by
    rw [hstartLine, ← hfile, ← hstart]
    decide +kernel
  refine ⟨hcontent, hone, ?_⟩
  rw [hendLine, hone, hcontent]
  decide +kernel

end Detection

end CloneDetection
