import CloneDetection.FileTree.Name

/-!
# Names as bytes and as texts

Reading bytes as text takes one character after the other, and a replacement where there is none
(`Text.lossyFrom_induction`), so bytes that need no replacement are those of the text that is read
(`Text.eq_flatMap_of_lossyFrom`), and the text of a name that is one is read back
(`FileName.lossy_ofString`).

A name is proper if a folder can hold it (`FileName.IsProper`). Its text has no slash and says
something, whatever its bytes are (`FileName.IsProper.slash_not_mem_lossy`,
`FileName.IsProper.isIdle_lossy`).
-/

namespace CloneDetection

/-! ## Bytes read as text -/

namespace Text

theorem lossyFrom_eq_drop (n : Nat) (bytes : List UInt8) :
    lossyFrom n bytes = lossyFrom 0 (bytes.drop n) := by
  induction bytes generalizing n with
  | nil => simp [lossyFrom]
  | cons b rest ih =>
    cases n with
    | zero => rfl
    | succ n => rw [lossyFrom, ih, List.drop_succ_cons]

/-- A character is read where its bytes stand. -/
theorem lossyFrom_encode_append (c : Char) (after : List UInt8) :
    lossyFrom 0 (String.utf8EncodeChar c ++ after) = c :: lossyFrom 0 after := by
  have hlength := String.length_utf8EncodeChar c
  have hdecode : (String.utf8EncodeChar c ++ after).toByteArray.utf8DecodeChar? 0 = some c := by
    rw [List.toByteArray_append]
    exact ByteArray.utf8DecodeChar?_utf8EncodeChar_append
  cases hbytes : String.utf8EncodeChar c with
  | nil =>
    have := c.utf8Size_pos
    rw [hbytes, List.length_nil] at hlength
    omega
  | cons b rest =>
    rw [hbytes, List.length_cons] at hlength
    rw [hbytes, List.cons_append] at hdecode
    rw [List.cons_append, lossyFrom]
    simp only [hdecode]
    rw [lossyFrom_eq_drop, ← hlength, Nat.add_sub_cancel, List.drop_left]

/-- The next character is one whose bytes stand there, or a replacement. -/
theorem lossyFrom_induction {motive : List UInt8 → List Char → Prop} (nil : motive [] [])
    (char : ∀ c after, motive after (lossyFrom 0 after) →
      motive (String.utf8EncodeChar c ++ after) (c :: lossyFrom 0 after))
    (broken : ∀ b rest n, motive (rest.drop n) (lossyFrom 0 (rest.drop n)) →
      motive (b :: rest) ('\ufffd' :: lossyFrom 0 (rest.drop n)))
    (bytes : List UInt8) : motive bytes (lossyFrom 0 bytes) := by
  induction hn : bytes.length using Nat.strongRecOn generalizing bytes with
  | _ n ih =>
    subst hn
    cases bytes with
    | nil => exact nil
    | cons b rest =>
      cases hdecode : (b :: rest).toByteArray.utf8DecodeChar? 0 with
      | some c =>
        obtain ⟨after, hafter⟩ := ByteArray.exists_of_utf8DecodeChar?_eq_some hdecode
        have hbytes : b :: rest = String.utf8EncodeChar c ++ after.data.toList := by
          rw [← List.toByteArray_inj, List.toByteArray_append, hafter]
          exact congrArg _ (ByteArray.ext (by simp))
        have hshort : after.data.toList.length < (b :: rest).length := by
          have := c.utf8Size_pos
          rw [hbytes, List.length_append, String.length_utf8EncodeChar]
          omega
        rw [hbytes, lossyFrom_encode_append]
        exact char c _ (ih _ hshort _ rfl)
      | none =>
        have hread : lossyFrom 0 (b :: rest) =
            '\ufffd' :: lossyFrom 0 (rest.drop (brokenLength (b :: rest) - 1)) := by
          rw [lossyFrom]
          simp only [hdecode]
          rw [lossyFrom_eq_drop]
        have hshort : (rest.drop (brokenLength (b :: rest) - 1)).length < (b :: rest).length := by
          rw [List.length_cons, List.length_drop]
          omega
        rw [hread]
        exact broken b rest _ (ih _ hshort _ rfl)

/-- Bytes that are read without a replacement are those of the characters. -/
theorem eq_flatMap_of_lossyFrom {bytes : List UInt8} (h : '\ufffd' ∉ lossyFrom 0 bytes) :
    bytes = (lossyFrom 0 bytes).flatMap String.utf8EncodeChar := by
  revert h
  induction bytes using lossyFrom_induction with
  | nil => exact fun _ => rfl
  | char c after ih =>
    intro h
    rw [List.flatMap_cons, ← ih (List.not_mem_of_not_mem_cons h)]
  | broken b rest n ih => exact fun h => absurd List.mem_cons_self h

/-- The bytes of a character that is read, unless it is a replacement, are among those it is read
from. -/
theorem mem_of_mem_lossyFrom {bytes : List UInt8} {c : Char} (h : c ∈ lossyFrom 0 bytes)
    (hc : c ≠ '\ufffd') : ∀ b ∈ String.utf8EncodeChar c, b ∈ bytes := by
  intro x hx
  revert h
  induction bytes using lossyFrom_induction with
  | nil => exact fun h => absurd h List.not_mem_nil
  | char d after ih =>
    intro h
    rw [List.mem_append]
    rcases List.mem_cons.mp h with rfl | hmem
    · exact .inl hx
    · exact .inr (ih hmem)
  | broken b rest n ih =>
    intro h
    rcases List.mem_cons.mp h with rfl | hmem
    · exact absurd rfl hc
    · exact List.mem_cons_of_mem b (List.mem_of_mem_drop (ih hmem))

theorem lossyFrom_flatMap_encode (cs : List Char) :
    lossyFrom 0 (cs.flatMap String.utf8EncodeChar) = cs := by
  induction cs with
  | nil => rfl
  | cons c cs ih => rw [List.flatMap_cons, lossyFrom_encode_append, ih]

end Text

namespace FileName

variable {x y z name : FileName} {text : String}

/-! ## Names that are texts -/

theorem bytes_ofString (text : String) :
    (ofString text).bytes = text.toList.flatMap String.utf8EncodeChar := by
  rw [ofString, String.toUTF8, ← String.utf8Encode_toList, List.utf8Encode,
    List.toList_data_toByteArray]

@[simp]
theorem lossy_ofString (text : String) : (ofString text).lossy = text := by
  rw [lossy, Text.lossy, bytes_ofString, Text.lossyFrom_flatMap_encode, String.ofList_toList]

theorem text?_eq_some_iff : name.text? = some text ↔ name = ofString text := by
  have hbytes : name = ofString text ↔ name.bytes.toByteArray = text.toByteArray := by
    rw [ByteArray.ext_iff, List.data_toByteArray, ← Array.toList_inj, FileName.ext_iff]
    rfl
  rw [hbytes, text?, String.fromUTF8?]
  split
  case isTrue h =>
    rw [Option.some.injEq, ← String.toByteArray_inj]
    rfl
  case isFalse h =>
    refine iff_of_false (by simp) fun heq => h ?_
    rw [heq]
    exact text.isValidUTF8

/-! ## Order -/

theorem lt_irrefl (x : FileName) : ¬ x < x :=
  List.lt_irrefl x.bytes

theorem lt_trans (h : x < y) (h' : y < z) : x < z :=
  List.lt_trans h h'

theorem lt_of_not_lt (h : ¬ x < y) (hne : x ≠ y) : y < x := by
  have hne' : y.bytes ≠ x.bytes := fun heq => hne (FileName.ext heq.symm)
  have hlt : y.bytes < x.bytes := Std.lt_of_le_of_ne (List.not_lt.mp h) hne'
  exact hlt

/-! ## Proper names -/

/-- Whether a folder can hold an entry of a name. -/
structure IsProper (name : FileName) : Prop where
  idle : name.isIdle = false
  parent : name.isParent = false
  slash_not_mem : slash ∉ name.bytes
  length_le : name.bytes.length ≤ maxLength

instance (name : FileName) : Decidable name.IsProper :=
  decidable_of_iff (name.isIdle = false ∧ name.isParent = false ∧ slash ∉ name.bytes ∧
    name.bytes.length ≤ maxLength) ⟨fun ⟨h₁, h₂, h₃, h₄⟩ => ⟨h₁, h₂, h₃, h₄⟩,
      fun h => ⟨h.idle, h.parent, h.slash_not_mem, h.length_le⟩⟩

theorem IsProper.slash_not_mem_lossy (h : name.IsProper) : '/' ∉ name.lossy.toList := by
  rw [lossy, Text.lossy, String.toList_ofList]
  intro hmem
  refine h.slash_not_mem (Text.mem_of_mem_lossyFrom hmem (by decide) slash ?_)
  decide

/-- The text of a proper name says something. -/
theorem IsProper.isIdle_lossy (h : name.IsProper) : Path.isIdle name.lossy = false := by
  rw [Bool.eq_false_iff]
  intro hidle
  have htext : Text.lossyFrom 0 name.bytes = [] ∨ Text.lossyFrom 0 name.bytes = ['.'] := by
    rw [Path.isIdle, Bool.or_eq_true, beq_iff_eq, beq_iff_eq] at hidle
    refine hidle.imp (fun heq => ?_) fun heq => ?_
    all_goals
      have hchars := congrArg String.toList heq
      rwa [lossy, Text.lossy, String.toList_ofList] at hchars
  have hbytes : name.bytes = [] ∨ name.bytes = [dot] := by
    have hplain : '\ufffd' ∉ Text.lossyFrom 0 name.bytes := by
      rcases htext with heq | heq <;> simp [heq]
    rw [Text.eq_flatMap_of_lossyFrom hplain]
    exact htext.imp (fun heq => by rw [heq]; rfl) fun heq => by rw [heq]; decide
  have hname := h.idle
  rcases hbytes with hbytes | hbytes <;> simp [isIdle, hbytes] at hname

end FileName

end CloneDetection
