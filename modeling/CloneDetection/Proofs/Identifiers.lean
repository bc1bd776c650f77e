import CloneDetection.Json.Reader
import CloneDetection.Proofs.Quotations

/-!
# Identifiers of clone pairs

The identifier of a pair is the hash of some bytes, `ClonePair.idBytes`, in hexadecimal digits.
These bytes tell the places of both locations, and which of them is the target: UTF-8 has no byte
`Hash.fieldEnd` (`fieldEnd_not_mem_utf8Bytes`), so the fields are got back by splitting
(`Hash.splitOn_encodeFields`), and different offsets have different digits. The identifier tells the
hash (`Hash.readHex_hex`), so pairs at different places share one only if the hash itself collides
(`ClonePair.idOf_eq_iff`).
-/

namespace CloneDetection

/-! ## Fields and their hash -/

namespace Hash

variable {fields fields' : List (List UInt8)}

theorem encodeFields_cons (field : List UInt8) (fields : List (List UInt8)) :
    encodeFields (field :: fields) = field ++ fieldEnd :: encodeFields fields := by
  simp [encodeFields]

theorem fnvExtend_append (hash : UInt64) (bytes more : List UInt8) :
    fnvExtend hash (bytes ++ more) = fnvExtend (fnvExtend hash bytes) more :=
  List.foldl_append

theorem fnvExtend_encodeFields (hash : UInt64) (fields : List (List UInt8)) :
    fnvExtend hash (encodeFields fields) =
      fields.foldl (fun hash field => fnvStep (fnvExtend hash field) fieldEnd) hash := by
  induction fields generalizing hash with
  | nil => rfl
  | cons field fields ih =>
    rw [encodeFields_cons, fnvExtend_append, List.foldl_cons, ← ih]
    rfl

/-- Fields are hashed as the bytes that encode them. -/
theorem fnvFields_eq_fnv (fields : List (List UInt8)) :
    fnvFields fields = fnv (encodeFields fields) :=
  (fnvExtend_encodeFields fnvBasis fields).symm

/-- Splitting gives the fields back, and the nothing behind the last of them. -/
theorem splitOn_encodeFields (h : ∀ field ∈ fields, fieldEnd ∉ field) :
    (encodeFields fields).splitOn fieldEnd = fields ++ [[]] := by
  induction fields with
  | nil => exact List.splitOn_nil fieldEnd
  | cons field fields ih =>
    obtain ⟨hfield, hfields⟩ := List.forall_mem_cons.mp h
    rw [encodeFields_cons, List.splitOn_append_cons_self_of_not_mem hfield, ih hfields,
      List.cons_append]

theorem encodeFields_inj (h : ∀ field ∈ fields, fieldEnd ∉ field)
    (h' : ∀ field ∈ fields', fieldEnd ∉ field) :
    encodeFields fields = encodeFields fields' ↔ fields = fields' := by
  refine ⟨fun heq => ?_, congrArg encodeFields⟩
  have hsplit := congrArg (List.splitOn fieldEnd) heq
  rw [splitOn_encodeFields h, splitOn_encodeFields h'] at hsplit
  exact List.append_cancel_right hsplit

/-- Different bytes with one hash. -/
def Collision (bytes bytes' : List UInt8) : Prop :=
  bytes ≠ bytes' ∧ fnv bytes = fnv bytes'

/-- Equal hashes are those of equal bytes, or a collision. -/
theorem fnv_eq_iff {bytes bytes' : List UInt8} :
    fnv bytes = fnv bytes' ↔ bytes = bytes' ∨ Collision bytes bytes' := by
  constructor
  · intro h
    by_cases heq : bytes = bytes'
    · exact .inl heq
    · exact .inr ⟨heq, h⟩
  · rintro (rfl | hcollision)
    · rfl
    · exact hcollision.2

/-! ## Hexadecimal digits -/

/-- The number that some hexadecimal digits are written for. -/
def readHex (digits : List Char) : Nat :=
  digits.foldl (fun n c => 16 * n + (Json.hexDigit? c).getD 0) 0

theorem hexDigit?_digitChar {d : Nat} (h : d < 16) : Json.hexDigit? d.digitChar = some d := by
  decide +revert

theorem readHex_append_digitChar (digits : List Char) {d : Nat} (h : d < 16) :
    readHex (digits ++ [d.digitChar]) = 16 * readHex digits + d := by
  simp [readHex, hexDigit?_digitChar h]

theorem readHex_toDigits (n : Nat) : readHex (Nat.toDigits 16 n) = n := by
  induction n using Nat.strongRecOn with
  | ind n ih =>
    rw [Nat.toDigits_eq_if (by decide)]
    split_ifs with hlt
    · have hread := readHex_append_digitChar [] hlt
      rwa [List.nil_append, show readHex [] = 0 from rfl, Nat.mul_zero, Nat.zero_add] at hread
    · rw [readHex_append_digitChar _ (Nat.mod_lt n (by decide)), ih _ (by omega)]
      omega

/-- Zeros before a number do not change it. -/
theorem readHex_replicate_zero_append (k : Nat) (digits : List Char) :
    readHex (List.replicate k '0' ++ digits) = readHex digits := by
  induction k with
  | zero => rfl
  | succ k ih => exact ih

theorem readHex_hex (hash : UInt64) : readHex (hex hash).toList = hash.toNat := by
  rw [hex, String.toList_ofList, readHex_replicate_zero_append, readHex_toDigits]

theorem hex_inj {hash hash' : UInt64} : hex hash = hex hash' ↔ hash = hash' := by
  refine ⟨fun h => ?_, congrArg hex⟩
  rw [← UInt64.toNat_inj, ← readHex_hex, h, readHex_hex]

end Hash

/-! ## Texts as fields -/

theorem toList_loop (bytes : ByteArray) (i : Nat) (done : List UInt8) :
    ByteArray.toList.loop bytes i done = done.reverse ++ bytes.data.toList.drop i := by
  fun_induction ByteArray.toList.loop bytes i done with
  | case1 i done h ih =>
    have hlt : i < bytes.data.toList.length := h
    have hget : bytes.get! i = bytes.data.toList[i] := getElem!_pos bytes.data i h
    rw [ih, List.drop_eq_getElem_cons hlt, hget, List.reverse_cons, List.append_assoc,
      List.singleton_append]
  | case2 i done h =>
    have hle : bytes.data.toList.length ≤ i := Nat.le_of_not_lt h
    rw [List.drop_eq_nil_of_le hle, List.append_nil]

theorem utf8Bytes_eq (s : String) : utf8Bytes s = s.toByteArray.data.toList := by
  rw [utf8Bytes, ByteArray.toList, toList_loop]
  rfl

theorem utf8Bytes_injective : Function.Injective utf8Bytes := by
  intro s t h
  rw [utf8Bytes_eq, utf8Bytes_eq] at h
  exact String.toByteArray_inj.mp (ByteArray.ext (Array.toList_inj.mp h))

/-- The byte that closes a field is in no text. -/
theorem fieldEnd_not_mem_utf8Bytes (s : String) : Hash.fieldEnd ∉ utf8Bytes s := by
  rw [utf8Bytes_eq, ← String.utf8Encode_toList, List.utf8Encode, List.data_toByteArray]
  intro h
  obtain ⟨c, -, hbyte⟩ := List.mem_flatMap.mp h
  have hrange := Text.toNat_of_mem_utf8EncodeChar hbyte
  simp [Hash.fieldEnd] at hrange

theorem encodeFields_map_utf8Bytes_inj {texts texts' : List String} :
    Hash.encodeFields (texts.map utf8Bytes) = Hash.encodeFields (texts'.map utf8Bytes) ↔
      texts = texts' := by
  have hfields (texts : List String) : ∀ field ∈ texts.map utf8Bytes, Hash.fieldEnd ∉ field := by
    intro field hfield
    obtain ⟨s, -, rfl⟩ := List.mem_map.mp hfield
    exact fieldEnd_not_mem_utf8Bytes s
  rw [Hash.encodeFields_inj (hfields texts) (hfields texts')]
  exact (List.map_injective_iff.mpr utf8Bytes_injective).eq_iff

/-! ## Identifiers -/

/-- Where a location is: its file, revision, start and end. -/
def Location.place (l : Location) : String × String × Nat × Nat :=
  (l.file, l.revision, l.startOffset, l.endOffset)

theorem Location.idFields_inj {l k : Location} : l.idFields = k.idFields ↔ l.place = k.place := by
  simp [idFields, place, Nat.toString_eq_repr, Nat.repr_inj]

/-- The place of a location is that of the tokens it spans. -/
theorem Location.place_of_spans {docs : Array Document} {range : TokenRange} {l : Location}
    {doc : Document} {start stop : Nat}
    (h : ∃ doc, docs[range.stream]? = some doc ∧ l.Spans doc range)
    (hdoc : docs[range.stream]? = some doc)
    (hbytes : doc.tokens.byteRange range.start range.stop = some (start, stop)) :
    l.place = (doc.file.id, doc.file.revision, start, stop) := by
  obtain ⟨other, hother, hspans⟩ := h
  obtain rfl : other = doc := Option.some.inj (hother.symm.trans hdoc)
  obtain ⟨hstart, hstop⟩ := Prod.mk.inj (Option.some.inj (hspans.bytes.symm.trans hbytes))
  rw [place, hspans.file, hspans.revision, hstart, hstop]

namespace ClonePair

variable {target source target' source' : Location}

/-- The bytes that the identifier of a pair of locations is the hash of. -/
def idBytes (target source : Location) : List UInt8 :=
  Hash.encodeFields ((target.idFields ++ source.idFields).map utf8Bytes)

theorem idOf_eq_hex (target source : Location) :
    idOf target source = Hash.hex (Hash.fnv (idBytes target source)) := by
  rw [idOf, Hash.fnvFields_eq_fnv, idBytes]

/-- The bytes tell the places, and which of them is the target. -/
theorem idBytes_inj : idBytes target source = idBytes target' source' ↔
    target.place = target'.place ∧ source.place = source'.place := by
  have hlength : target.idFields.length = target'.idFields.length := rfl
  rw [idBytes, idBytes, encodeFields_map_utf8Bytes_inj, ← Location.idFields_inj,
    ← Location.idFields_inj]
  exact ⟨fun h => List.append_inj h hlength, fun h => by rw [h.1, h.2]⟩

/-- Equal identifiers are those of the same places, or a collision of the hash. -/
theorem idOf_eq_iff : idOf target source = idOf target' source' ↔
    target.place = target'.place ∧ source.place = source'.place ∨
      Hash.Collision (idBytes target source) (idBytes target' source') := by
  rw [idOf_eq_hex, idOf_eq_hex, Hash.hex_inj, Hash.fnv_eq_iff, idBytes_inj]

end ClonePair

theorem Resolve.id_of_mem_resolve {candidates : List Candidate} {docs : Array Document}
    {options : ResolveOptions} {pairs : List ClonePair} {p : ClonePair}
    (h : resolve candidates docs options = .ok pairs) (hp : p ∈ pairs) :
    p.id = ClonePair.idOf p.target p.source := by
  obtain ⟨matches_, -, h⟩ := bind_eq_ok_iff.mp h
  obtain ⟨m, -, hpair⟩ := exists_of_forall₂ (mapM_eq_ok_iff.mp h).flip hp
  obtain ⟨target, -, hpair⟩ := bind_eq_ok_iff.mp hpair
  obtain ⟨source, -, hpair⟩ := bind_eq_ok_iff.mp hpair
  cases hpair
  rfl

namespace Detection

theorem id_of_mem_clonePairs {settings : Settings} {files : List SourceFile} {outcome : Outcome}
    {p : ClonePair} (h : detect settings files = .ok outcome) (hp : p ∈ outcome.clonePairs) :
    p.id = ClonePair.idOf p.target p.source := by
  obtain ⟨-, -, intake, -, hcompare⟩ := detect_eq_ok_iff.mp h
  rcases Nat.lt_or_ge intake.documents.length 2 with hfew | htwo
  · rw [clonePairs_of_length_lt_two hfew hcompare] at hp
    cases hp
  · obtain ⟨index, pairs, -, hpairs, rfl⟩ := (compare_eq_ok_iff htwo).mp hcompare
    exact Resolve.id_of_mem_resolve hpairs hp

/-- **Identifiers hash an injective encoding.** Fields are hashed as one string of bytes, and
different lists of texts have different bytes. The bytes behind an identifier tell the places of
target and source, so equal identifiers are those of the same places, or a collision of the hash.
Reported pairs have these identifiers. -/
theorem ids_encode_places :
    (∀ fields : List (List UInt8), Hash.fnvFields fields = Hash.fnv (Hash.encodeFields fields)) ∧
      (∀ texts texts' : List String, Hash.encodeFields (texts.map utf8Bytes) =
        Hash.encodeFields (texts'.map utf8Bytes) ↔ texts = texts') ∧
      (∀ target source : Location, ClonePair.idOf target source =
        Hash.hex (Hash.fnv (ClonePair.idBytes target source))) ∧
      (∀ target source target' source' : Location,
        (ClonePair.idBytes target source = ClonePair.idBytes target' source' ↔
          target.place = target'.place ∧ source.place = source'.place) ∧
        (ClonePair.idOf target source = ClonePair.idOf target' source' ↔
          target.place = target'.place ∧ source.place = source'.place ∨
            Hash.Collision (ClonePair.idBytes target source)
              (ClonePair.idBytes target' source'))) ∧
      ∀ settings files outcome, detect settings files = .ok outcome →
        ∀ p ∈ outcome.clonePairs, p.id = ClonePair.idOf p.target p.source :=
  ⟨Hash.fnvFields_eq_fnv, fun _ _ => encodeFields_map_utf8Bytes_inj, ClonePair.idOf_eq_hex,
    fun _ _ _ _ => ⟨ClonePair.idBytes_inj, ClonePair.idOf_eq_iff⟩,
    fun _ _ _ h _ => id_of_mem_clonePairs h⟩

/-- The run and the chain have different identifiers. -/
theorem ids_encode_places_nested : ∃ outcome p q,
    detect nestedSettings (nestedDocuments.map (·.file)) = .ok outcome ∧
      outcome.clonePairs = [p, q] ∧ p.id = "e2bcb65fb1353e7a" ∧ q.id = "cdba7a7585942ba5" := by
  obtain ⟨outcome, p, q, h, hpairs, hp, hq⟩ := detect_nested
  obtain ⟨-, -, hhex, hplaces, hreported⟩ := ids_encode_places
  have hrun : p.target.place = ("A", "r", 2, 9) ∧ p.source.place = ("B", "r", 12, 19) :=
    ⟨Location.place_of_spans hp.target rfl (by decide +kernel),
      Location.place_of_spans hp.source rfl (by decide +kernel)⟩
  have hchain : q.target.place = ("A", "r", 0, 13) ∧ q.source.place = ("B", "r", 0, 21) :=
    ⟨Location.place_of_spans hq.target rfl (by decide +kernel),
      Location.place_of_spans hq.source rfl (by decide +kernel)⟩
  have hid {r : ClonePair} (hr : r ∈ outcome.clonePairs) (target source : Location)
      (hsame : r.target.place = target.place ∧ r.source.place = source.place) :
      r.id = Hash.hex (Hash.fnv (ClonePair.idBytes target source)) := by
    rw [hreported _ _ _ h r hr, ← hhex]
    exact (hplaces r.target r.source target source).2.mpr (.inl hsame)
  -- the texts and lines of a location are not hashed
  have hp := hid (by simp [hpairs]) ⟨"A", "r", 2, 9, 0, 0, ""⟩ ⟨"B", "r", 12, 19, 0, 0, ""⟩ hrun
  have hq := hid (by simp [hpairs]) ⟨"A", "r", 0, 13, 0, 0, ""⟩ ⟨"B", "r", 0, 21, 0, 0, ""⟩ hchain
  exact ⟨outcome, p, q, h, hpairs, hp.trans (by decide +kernel), hq.trans (by decide +kernel)⟩

end Detection

end CloneDetection
