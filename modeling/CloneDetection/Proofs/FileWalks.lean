import CloneDetection.Proofs.FileNames
import CloneDetection.SourceTree.Walk
import Mathlib.Data.List.Lex

/-!
# Entries on a walk

A tree is well formed if every folder in it has its entries in the order of their names, which
putting something into the tree keeps (`FileTree.WellFormed.put`). From such a tree, names lead to
one thing at most (`FileTree.descend?`), and what they lead to is found and read in the workspace
(`Workspace.readFrom_of_descend?`).

What a walk is taken to do is stated of any walker. It visits only what is there, and each entry
once (`Walker.Once`). Where no ignore file is obeyed, nothing goes wrong, every entry is visited
unless the request does not admit it or something above it, and the walk goes in the order of the
names (`Walker.Lawful`). `Walk.visit` walks so (`Walk.once_visit`, `Walk.lawful_visit`).
-/

namespace CloneDetection

/-! ## Well-formed trees -/

namespace FileTree

/-- Whether the names in every folder are proper, and the entries stand in their order. -/
inductive WellFormed : FileTree → Prop
  | file (content : ByteArray) : WellFormed (.file content)
  | link (target : List UInt8) : WellFormed (.link target)
  | special (content : ByteArray) : WellFormed (.special content)
  | folder {entries : List (FileName × FileTree)} (sorted : entries.Pairwise fun e f => e.1 < f.1)
      (names : ∀ e ∈ entries, e.1.IsProper) (inner : ∀ e ∈ entries, WellFormed e.2) :
      WellFormed (.folder entries)

/-- What names lead to from a tree, through folders only. -/
def descend? (t : FileTree) : List FileName → Option FileTree
  | [] => some t
  | name :: rest => (t.child? name).bind fun inner => inner.descend? rest

variable {t inner whole : FileTree} {entries : List (FileName × FileTree)} {name : FileName}
  {names : List FileName} {content : ByteArray}

theorem mem_of_mem_setEntry {e : FileName × FileTree} (h : e ∈ setEntry name t entries) :
    e = (name, t) ∨ e ∈ entries := by
  fun_induction setEntry name t entries with
  | case1 => exact .inl (List.mem_singleton.mp h)
  | case2 other present rest => exact List.mem_cons.mp h
  | case3 present rest => exact (List.mem_cons.mp h).imp_right (List.mem_cons_of_mem _)
  | case4 other present rest _ _ ih =>
    rcases List.mem_cons.mp h with rfl | h
    · exact .inr List.mem_cons_self
    · exact (ih h).imp_right (List.mem_cons_of_mem _)

/-- Setting an entry keeps the order. -/
theorem pairwise_setEntry (h : entries.Pairwise fun e f => e.1 < f.1) :
    (setEntry name t entries).Pairwise fun e f => e.1 < f.1 := by
  fun_induction setEntry name t entries with
  | case1 => exact List.pairwise_singleton _ _
  | case2 other present rest hlt =>
    refine List.pairwise_cons.mpr ⟨List.forall_mem_cons.mpr ⟨hlt, fun e he => ?_⟩, h⟩
    exact FileName.lt_trans hlt (List.rel_of_pairwise_cons h he)
  | case3 present rest => exact List.pairwise_cons.mpr (List.pairwise_cons.mp h)
  | case4 other present rest hlt hne ih =>
    obtain ⟨hfirst, hrest⟩ := List.pairwise_cons.mp h
    refine List.pairwise_cons.mpr ⟨fun e he => ?_, ih hrest⟩
    rcases mem_of_mem_setEntry he with rfl | he
    · exact FileName.lt_of_not_lt hlt hne
    · exact hfirst e he

namespace WellFormed

theorem child?_eq_some_iff (h : (FileTree.folder entries).WellFormed) :
    (FileTree.folder entries).child? name = some t ↔ (name, t) ∈ entries := by
  cases h with
  | folder sorted _ _ =>
    change entries.lookup name = some t ↔ _
    rw [List.lookup_eq_some_iff]
    constructor
    · rintro ⟨before, after, rfl, -⟩
      exact List.mem_append_right _ List.mem_cons_self
    · intro hmem
      obtain ⟨before, after, rfl⟩ := List.append_of_mem hmem
      refine ⟨before, after, rfl, fun e he => ?_⟩
      have hlt := (List.pairwise_append.mp sorted).2.2 e he (name, t) List.mem_cons_self
      exact bne_iff_ne.mpr fun heq => FileName.lt_irrefl _ (heq ▸ hlt)

theorem of_child? (h : t.WellFormed) (hinner : t.child? name = some inner) :
    name.IsProper ∧ inner.WellFormed := by
  cases t with
  | file | link | special => cases hinner
  | folder entries =>
    have hmem := h.child?_eq_some_iff.mp hinner
    cases h with
    | folder _ hnames hall => exact ⟨hnames _ hmem, hall _ hmem⟩

/-- The names that lead somewhere in a well-formed tree are proper. -/
theorem isProper_of_descend? (h : t.WellFormed) (hinner : t.descend? names = some inner) :
    ∀ name ∈ names, name.IsProper := by
  induction names generalizing t with
  | nil => exact fun _ hname => absurd hname List.not_mem_nil
  | cons name rest ih =>
    obtain ⟨child, hchild, hrest⟩ := Option.bind_eq_some_iff.mp hinner
    obtain ⟨hname, hwf⟩ := h.of_child? hchild
    exact List.forall_mem_cons.mpr ⟨hname, ih hwf hrest⟩

theorem emptyFolder : (FileTree.folder []).WellFormed :=
  .folder .nil (List.forall_mem_nil _) (List.forall_mem_nil _)

theorem folder_entries (h : t.WellFormed) : (FileTree.folder t.entries).WellFormed := by
  cases h with
  | file | link | special => exact emptyFolder
  | folder sorted names inner => exact .folder sorted names inner

theorem setEntry (h : (FileTree.folder entries).WellFormed) (hname : name.IsProper)
    (ht : t.WellFormed) : (FileTree.folder (setEntry name t entries)).WellFormed := by
  cases h with
  | folder sorted names inner =>
    refine .folder (pairwise_setEntry sorted) (fun e he => ?_) (fun e he => ?_)
    · rcases mem_of_mem_setEntry he with rfl | he
      · exact hname
      · exact names e he
    · rcases mem_of_mem_setEntry he with rfl | he
      · exact ht
      · exact inner e he

theorem foldl_setEntry {added : List (FileName × FileTree)}
    (hadded : ∀ e ∈ added, e.1.IsProper ∧ e.2.WellFormed)
    (h : (FileTree.folder entries).WellFormed) :
    (FileTree.folder
      (added.foldl (fun l e => FileTree.setEntry e.1 e.2 l) entries)).WellFormed := by
  induction added generalizing entries with
  | nil => exact h
  | cons e added ih =>
    obtain ⟨he, hadded⟩ := List.forall_mem_cons.mp hadded
    exact ih hadded (h.setEntry he.1 he.2)

theorem replacing (ht : t.WellFormed) (h : whole.WellFormed) : (t.replacing whole).WellFormed := by
  cases ht with
  | file content => exact .file content
  | link target => exact .link target
  | special content => exact .special content
  | folder _ names inner =>
    exact foldl_setEntry (fun e he => ⟨names e he, inner e he⟩) h.folder_entries

/-- Putting a tree somewhere keeps a tree well formed. -/
theorem put {path : List FileName} (h : whole.WellFormed) (ht : t.WellFormed)
    (hpath : ∀ name ∈ path, name.IsProper) : (whole.put path t).WellFormed := by
  induction path generalizing whole with
  | nil => exact ht.replacing h
  | cons name rest ih =>
    obtain ⟨hname, hrest⟩ := List.forall_mem_cons.mp hpath
    refine h.folder_entries.setEntry hname (ih ?_ hrest)
    cases hchild : whole.child? name with
    | none => exact emptyFolder
    | some child => exact (h.of_child? hchild).2

end WellFormed

theorem isFolder_of_child? (h : t.child? name = some inner) : t.isFolder = true := by
  cases t with
  | folder entries => rfl
  | file | link | special => cases h

theorem isFolder_iff_kind : t.isFolder = true ↔ t.kind = .folder := by
  cases t <;> simp [isFolder, kind]

/-- Whether names lead from a tree to something of a kind, and `admits` admits all that they lead
through, the tree itself apart. -/
structure Leads (admits : List FileName → EntryKind → Bool) (t : FileTree) (names : List FileName)
    (kind : EntryKind) : Prop where
  exists_tree : ∃ inner, t.descend? names = some inner ∧ inner.kind = kind
  admitted : ∀ front inner, front ≠ [] → front <+: names → t.descend? front = some inner →
    admits front inner.kind = true

/-- A first name leads to an entry of the folder that has to be admitted. -/
theorem leads_cons_iff {admits : List FileName → EntryKind → Bool} {kind : EntryKind}
    (h : (folder entries).WellFormed) :
    Leads admits (folder entries) (name :: names) kind ↔ ∃ t, (name, t) ∈ entries ∧
      admits [name] t.kind = true ∧ Leads (fun front => admits (name :: front)) t names kind := by
  have hdescend {rest : List FileName} {inner : FileTree} :
      (folder entries).descend? (name :: rest) = some inner ↔
        ∃ t, (name, t) ∈ entries ∧ t.descend? rest = some inner := by
    simp only [descend?, Option.bind_eq_some_iff, h.child?_eq_some_iff]
  constructor
  · rintro ⟨⟨inner, hinner, hkind⟩, hadmitted⟩
    obtain ⟨t, hmem, ht⟩ := hdescend.mp hinner
    refine ⟨t, hmem, ?_, ⟨inner, ht, hkind⟩, fun front found hne hfront hfound => ?_⟩
    · exact hadmitted [name] t (List.cons_ne_nil _ _) (by simp) (hdescend.mpr ⟨t, hmem, rfl⟩)
    · exact hadmitted (name :: front) found (List.cons_ne_nil _ _)
        (List.cons_prefix_cons.mpr ⟨rfl, hfront⟩) (hdescend.mpr ⟨t, hmem, hfound⟩)
  · rintro ⟨t, hmem, hname, ⟨inner, hinner, hkind⟩, hadmitted⟩
    refine ⟨⟨inner, hdescend.mpr ⟨t, hmem, hinner⟩, hkind⟩, fun front found hne hfront hfound => ?_⟩
    obtain ⟨first, rest, rfl⟩ := List.exists_cons_of_ne_nil hne
    obtain ⟨rfl, hrest⟩ := List.cons_prefix_cons.mp hfront
    obtain ⟨t', hmem', hfound⟩ := hdescend.mp hfound
    -- a folder has one entry of a name
    obtain rfl : t' = t := Option.some.inj
      ((h.child?_eq_some_iff.mpr hmem').symm.trans (h.child?_eq_some_iff.mpr hmem))
    cases rest with
    | nil =>
      rw [← Option.some.inj hfound]
      exact hname
    | cons second rest => exact hadmitted _ found (List.cons_ne_nil _ _) hrest hfound

end FileTree

/-! ## Places -/

theorem map_eq_ok_iff {ε α β : Type} {x : Except ε α} {g : α → β} {b : β} :
    x.map g = .ok b ↔ ∃ a, x = .ok a ∧ g a = b := by
  cases x <;> simp [Except.map]

namespace Workspace

variable {w : Workspace} {place place' : Place} {path : String} {t : FileTree}

theorem mem_of_mem_startOf {bytes : List UInt8} {e : FileName × FileTree}
    (h : e ∈ startOf bytes place) : e ∈ place := by
  rw [startOf] at h
  split at h
  · cases h
  · exact h

theorem wellFormed_treeAt (hw : w.tree.WellFormed) (hplace : ∀ e ∈ place, e.2.WellFormed) :
    (w.treeAt place).WellFormed := by
  cases place with
  | nil => exact hw
  | cons e place => exact hplace e List.mem_cons_self

/-- Following names stays in well-formed trees. -/
theorem wellFormed_follow {links : Nat} {names : List FileName} (hw : w.tree.WellFormed)
    (hplace : ∀ e ∈ place, e.2.WellFormed) (h : w.follow links place names = .ok place') :
    ∀ e ∈ place', e.2.WellFormed := by
  fun_induction follow w links place names with
  | case1 =>
    cases h
    exact hplace
  | case2 | case5 | case6 | case7 => cases h
  | case3 links place name rest _ _ ih => exact ih hplace h
  | case4 links place name rest _ _ _ ih => exact ih (fun e he => hplace e (List.mem_of_mem_tail he)) h
  | case8 place name rest _ _ _ _ target _ left ih =>
    exact ih (fun e he => hplace e (mem_of_mem_startOf he)) h
  | case9 links place name rest _ _ _ _ tree _ hchild ih =>
    have htree := ((wellFormed_treeAt hw hplace).of_child? hchild).2
    exact ih (List.forall_mem_cons.mpr ⟨htree, hplace⟩) h

/-- What a path leads to in a well-formed tree is well formed. -/
theorem wellFormed_find (hw : w.tree.WellFormed) (h : w.find path = .ok place) :
    (w.treeAt place).WellFormed := by
  have hnone : ∀ e ∈ ([] : Place), e.2.WellFormed := List.forall_mem_nil _
  have hcurrent : ∀ e ∈ w.currentPlace, e.2.WellFormed := by
    rw [currentPlace]
    split
    · exact wellFormed_follow hw hnone ‹_›
    · exact hnone
  refine wellFormed_treeAt hw ?_
  rw [find] at h
  split at h
  · cases h
  · split at h
    · cases h
    · split at h
      · cases h
      · exact wellFormed_follow hw (fun e he => hcurrent e (mem_of_mem_startOf he)) h

theorem look_eq_ok_iff : w.look path = .ok t ↔
    ∃ place, w.find path = .ok place ∧ w.treeAt place = t :=
  map_eq_ok_iff

theorem find_slash (h : w.tree.isFolder = true) : w.find "/" = .ok [] := by
  rw [find, if_neg (by decide), if_neg (by decide), if_neg (by simp [maxPath]; decide)]
  dsimp only
  rw [show startOf "/".toUTF8.data.toList w.currentPlace = [] from if_pos (by decide),
    show FileName.split "/".toUTF8.data.toList = [⟨[]⟩, ⟨[]⟩] by decide]
  simp [follow, treeAt, h, FileName.isIdle]

/-- Names that lead through folders to what is no link are followed there. -/
theorem exists_follow_of_descend? {links : Nat} {names : List FileName}
    (hwf : (w.treeAt place).WellFormed) (h : (w.treeAt place).descend? names = some t)
    (hkind : t.kind ≠ .link) : ∃ place', w.follow links place names = .ok place' ∧
      w.treeAt place' = t := by
  induction names generalizing place with
  | nil => exact ⟨place, by rw [follow], Option.some.inj h⟩
  | cons name rest ih =>
    obtain ⟨inner, hchild, hrest⟩ := Option.bind_eq_some_iff.mp h
    obtain ⟨hname, hinner⟩ := hwf.of_child? hchild
    have hfolder := FileTree.isFolder_of_child? hchild
    obtain ⟨place', hfollow, htree⟩ := @ih ((name, inner) :: place) hinner hrest
    refine ⟨place', ?_, htree⟩
    rw [follow, if_neg (by simp [hfolder]), if_neg (by simp [hname.idle]),
      if_neg (by simp [hname.parent]), if_neg (Nat.not_lt.mpr hname.length_le), hchild]
    cases inner with
    | link target =>
      -- nothing is below a link, and the names end at no link
      cases rest with
      | nil => exact absurd (congrArg FileTree.kind (Option.some.inj hrest)) (Ne.symm hkind)
      | cons => cases hrest
    | file | folder | special => exact hfollow

/-- A file that names lead to is read. -/
theorem readFrom_of_descend? {names : List FileName} {content : ByteArray}
    (hwf : (w.treeAt place).WellFormed)
    (h : (w.treeAt place).descend? names = some (.file content)) :
    w.readFrom place names = .ok content := by
  have hkind : (FileTree.file content).kind ≠ .link := EntryKind.noConfusion
  obtain ⟨place', hfollow, htree⟩ := exists_follow_of_descend? hwf h hkind
  rw [readFrom, hfollow]
  change (w.treeAt place').read = _
  rw [htree]
  rfl

end Workspace

/-! ## What a walk does -/

/-- Whether an entry comes before another one on a walk: by their names, from the start on. -/
def WalkEntry.Before (e f : WalkEntry) : Prop :=
  List.Lex (· < ·) e.names f.names

namespace WalkRequest

/-- The tree at which a walk starts. -/
def tree (r : WalkRequest) : FileTree :=
  r.workspace.treeAt r.start

/-- Whether a walk is to visit an entry when no ignore file is obeyed: it is there, and the request
admits it and all that is above it. -/
structure Visits (r : WalkRequest) (entry : WalkEntry) : Prop where
  exists_tree : ∃ t, r.tree.descend? entry.names = some t ∧ t.kind = entry.kind
  admitted : ∀ front t, front <+: entry.names → r.tree.descend? front = some t →
    r.admits ⟨front, t.kind⟩ = true

/-- Whether a walk obeys no ignore files. -/
structure IsPlain (r : WalkRequest) : Prop where
  ignoreFiles : r.obeyIgnoreFiles = false
  exclusions : r.obeyExclusions = false

end WalkRequest

namespace Walker

/-- The entries that a walk visits, in order. -/
def entries (walk : Walker) (r : WalkRequest) : List WalkEntry :=
  (walk r).filterMap Except.toOption

/-- A walk visits what is there, each entry once. -/
structure Once (walk : Walker) : Prop where
  exists_tree : ∀ r : WalkRequest, r.tree.WellFormed → ∀ e ∈ walk.entries r,
    ∃ t, r.tree.descend? e.names = some t ∧ t.kind = e.kind
  nodup : ∀ r : WalkRequest, r.tree.WellFormed → ((walk.entries r).map WalkEntry.names).Nodup

/-- Where no ignore file is obeyed, nothing goes wrong on a walk, it visits what the request admits
with all that is above it, and it goes in the order of the names. -/
structure Lawful (walk : Walker) : Prop where
  succeeds : ∀ r : WalkRequest, r.tree.WellFormed → r.IsPlain → ∀ result ∈ walk r,
    result.isOk = true
  visits : ∀ r : WalkRequest, r.tree.WellFormed → r.IsPlain → ∀ e,
    e ∈ walk.entries r ↔ r.Visits e
  ordered : ∀ r : WalkRequest, r.tree.WellFormed → r.IsPlain →
    (walk.entries r).Pairwise WalkEntry.Before

end Walker

/-- Entries in order have different names. -/
theorem WalkEntry.nodup_names {l : List WalkEntry} (h : l.Pairwise Before) :
    (l.map WalkEntry.names).Nodup := by
  refine List.pairwise_map.mpr (h.imp fun hbefore heq => ?_)
  rw [Before, heq] at hbefore
  exact List.lex_irrefl FileName.lt_irrefl _ hbefore

/-! ## The walk that ignore files direct -/

namespace IgnoreScope

/-- Whether a scope has no rules. -/
def IsSilent (scope : IgnoreScope) : Prop :=
  scope.rules = [] ∧ scope.exclusions = []

variable {scopes : List IgnoreScope}

theorem leavesOut_of_isSilent (h : ∀ scope ∈ scopes, scope.IsSilent) (name : FileName)
    (isFolder : Bool) : leavesOut scopes name isFolder = false := by
  have hrules : scopes.findSome? (fun s => Ignore.Rules.verdict? s.rules (s.pathOf name) isFolder) =
      none := by
    refine List.findSome?_eq_none_iff.mpr fun s hs => ?_
    rw [(h s hs).1]
    rfl
  have hexclusions : scopes.findSome?
      (fun s => Ignore.Rules.verdict? s.exclusions (s.pathOf name) isFolder) = none := by
    refine List.findSome?_eq_none_iff.mpr fun s hs => ?_
    rw [(h s hs).2]
    rfl
  rw [leavesOut, hrules, hexclusions]
  rfl

end IgnoreScope

namespace Walk

variable {r : WalkRequest} {start names : List FileName} {scopes : List IgnoreScope}
  {name : FileName} {t : FileTree} {children : List (FileName × FileTree)} {e : WalkEntry}

theorem visitEntries_eq_flatMap (r : WalkRequest) (start names : List FileName)
    (scopes : List IgnoreScope) (children : List (FileName × FileTree)) :
    visitEntries r start names scopes children =
      children.flatMap fun c => visitTree r start names scopes c.1 c.2 := by
  induction children with
  | nil => rw [visitEntries, List.flatMap_nil]
  | cons c rest ih => rw [visitEntries, ih, List.flatMap_cons, visitEntry]

/-- The scopes in the folder of the given name. -/
def innerScopes (r : WalkRequest) (start names : List FileName) (scopes : List IgnoreScope)
    (name : FileName) : List IgnoreScope :=
  scopeAt r (start ++ (names ++ [name])) :: scopes.map (·.enter name)

/-- What passes is visited, and then what is below it. -/
theorem visitTree_eq (r : WalkRequest) (start names : List FileName) (scopes : List IgnoreScope)
    (name : FileName) (t : FileTree) : visitTree r start names scopes name t =
      if passes r names scopes name t.kind then
        ⟨names ++ [name], t.kind⟩ ::
          visitEntries r start (names ++ [name]) (innerScopes r start names scopes name) t.entries
      else [] := by
  cases t with
  | folder children =>
    rw [visitTree]
    rfl
  | file | link | special => simp only [visitTree, FileTree.kind, FileTree.entries, visitEntries]

theorem mem_visitEntries_iff : e ∈ visitEntries r start names scopes children ↔
    ∃ c ∈ children, passes r names scopes c.1 c.2.kind = true ∧
      (e = ⟨names ++ [c.1], c.2.kind⟩ ∨ e ∈ visitEntries r start (names ++ [c.1])
        (innerScopes r start names scopes c.1) c.2.entries) := by
  rw [visitEntries_eq_flatMap, List.mem_flatMap]
  refine exists_congr fun c => and_congr_right fun _ => ?_
  rw [visitTree_eq]
  split
  case isTrue h => simp [h]
  case isFalse h => simp [h]

theorem admits_of_passes {kind : EntryKind} (h : passes r names scopes name kind = true) :
    r.admits ⟨names ++ [name], kind⟩ = true :=
  (Bool.and_eq_true_iff.mp h).2

/-- What is visited below a folder is there, and is admitted with what is above it. -/
theorem leads_of_mem_visitEntries (h : t.WellFormed) (names : List FileName)
    (scopes : List IgnoreScope) (he : e ∈ visitEntries r start names scopes t.entries) :
    ∃ rest, rest ≠ [] ∧ e.names = names ++ rest ∧
      t.Leads (fun front kind => r.admits ⟨names ++ front, kind⟩) rest e.kind := by
  induction h generalizing names scopes with
  | file | link | special =>
    obtain ⟨c, hc, -⟩ := mem_visitEntries_iff.mp he
    cases hc
  | @folder children sorted hnames inner ih =>
    have hwf : (FileTree.folder children).WellFormed := .folder sorted hnames inner
    obtain ⟨c, hc, hpasses, hcases⟩ := mem_visitEntries_iff.mp he
    have hadmits := admits_of_passes hpasses
    rcases hcases with rfl | hbelow
    · refine ⟨[c.1], List.cons_ne_nil _ _, rfl, (FileTree.leads_cons_iff hwf).mpr ?_⟩
      refine ⟨c.2, hc, hadmits, ⟨c.2, rfl, rfl⟩, fun front _ hne hfront => ?_⟩
      exact absurd (List.prefix_nil.mp hfront) hne
    · obtain ⟨rest, hne, hrest, hleads⟩ := ih c hc _ _ hbelow
      refine ⟨c.1 :: rest, List.cons_ne_nil _ _, by rw [hrest, List.append_assoc]; rfl, ?_⟩
      refine (FileTree.leads_cons_iff hwf).mpr ⟨c.2, hc, hadmits, ?_⟩
      simpa only [List.append_assoc, List.singleton_append] using hleads

theorem isSilent_scopeAt (hplain : r.IsPlain) (folder : List FileName) :
    (scopeAt r folder).IsSilent := by
  simp [IgnoreScope.IsSilent, scopeAt, rulesAt, hplain.ignoreFiles, hplain.exclusions]

theorem isSilent_innerScopes (hplain : r.IsPlain) (hscopes : ∀ scope ∈ scopes, scope.IsSilent)
    (start names : List FileName) (name : FileName) :
    ∀ scope ∈ innerScopes r start names scopes name, scope.IsSilent := by
  refine List.forall_mem_cons.mpr ⟨isSilent_scopeAt hplain _, fun scope hscope => ?_⟩
  obtain ⟨outer, houter, rfl⟩ := List.mem_map.mp hscope
  exact hscopes outer houter

theorem passes_of_isSilent (hscopes : ∀ scope ∈ scopes, scope.IsSilent) {kind : EntryKind}
    (h : r.admits ⟨names ++ [name], kind⟩ = true) : passes r names scopes name kind = true := by
  rw [passes, IgnoreScope.leavesOut_of_isSilent hscopes, h]
  rfl

/-- Without ignore files, all is visited that is admitted with what is above it. -/
theorem mem_visitEntries_of_leads (hplain : r.IsPlain) (h : t.WellFormed) (names : List FileName)
    (hscopes : ∀ scope ∈ scopes, scope.IsSilent) {rest : List FileName} {kind : EntryKind}
    (hrest : rest ≠ [])
    (hleads : t.Leads (fun front kind => r.admits ⟨names ++ front, kind⟩) rest kind) :
    ⟨names ++ rest, kind⟩ ∈ visitEntries r start names scopes t.entries := by
  induction h generalizing names scopes rest with
  | file | link | special =>
    obtain ⟨name, rest, rfl⟩ := List.exists_cons_of_ne_nil hrest
    obtain ⟨inner, hinner, -⟩ := hleads.exists_tree
    cases hinner
  | @folder children sorted hnames inner ih =>
    obtain ⟨name, rest, rfl⟩ := List.exists_cons_of_ne_nil hrest
    obtain ⟨t, hmem, hadmits, hinner⟩ :=
      (FileTree.leads_cons_iff (.folder sorted hnames inner)).mp hleads
    refine mem_visitEntries_iff.mpr ⟨(name, t), hmem, passes_of_isSilent hscopes hadmits, ?_⟩
    cases rest with
    | nil =>
      obtain ⟨_, hself, hkind⟩ := hinner.exists_tree
      cases hself
      rw [hkind]
      exact .inl rfl
    | cons second rest =>
      have hfound := ih (name, t) hmem (names ++ [name])
        (isSilent_innerScopes hplain hscopes start names name) (List.cons_ne_nil second rest)
        (by simpa only [List.append_assoc, List.singleton_append] using hinner)
      rw [List.append_assoc, List.singleton_append] at hfound
      exact .inr hfound

/-- What is visited for an entry of a folder has its name first. -/
theorem exists_names_of_mem_visitTree (h : t.WellFormed)
    (he : e ∈ visitTree r start names scopes name t) : ∃ rest, e.names = names ++ name :: rest := by
  rw [visitTree_eq] at he
  split at he
  · rcases List.mem_cons.mp he with rfl | hbelow
    · exact ⟨[], rfl⟩
    · obtain ⟨rest, -, hrest, -⟩ := leads_of_mem_visitEntries h _ _ hbelow
      exact ⟨rest, by rw [hrest, List.append_assoc]; rfl⟩
  · cases he

/-- An entry comes before what is below it. -/
theorem before_of_mem_visitEntries (h : t.WellFormed) {kind : EntryKind}
    (he : e ∈ visitEntries r start names scopes t.entries) : WalkEntry.Before ⟨names, kind⟩ e := by
  obtain ⟨rest, hne, hrest, -⟩ := leads_of_mem_visitEntries h _ _ he
  obtain ⟨first, rest, rfl⟩ := List.exists_cons_of_ne_nil hne
  have hlex := List.Lex.append_left (fun x y : FileName => x < y)
    (List.Lex.nil (a := first) (l := rest)) names
  rwa [List.append_nil, ← hrest] at hlex

/-- A walk goes in the order of the names. -/
theorem pairwise_visitEntries (h : t.WellFormed) (names : List FileName)
    (scopes : List IgnoreScope) :
    (visitEntries r start names scopes t.entries).Pairwise WalkEntry.Before := by
  induction h generalizing names scopes with
  | file | link | special =>
    rw [visitEntries_eq_flatMap]
    exact List.Pairwise.nil
  | @folder children sorted hnames inner ih =>
    rw [FileTree.entries, visitEntries_eq_flatMap, List.pairwise_flatMap]
    refine ⟨fun c hc => ?_, sorted.imp_of_mem ?_⟩
    · rw [visitTree_eq]
      split
      · exact List.pairwise_cons.mpr
          ⟨fun e he => before_of_mem_visitEntries (inner c hc) he, ih c hc _ _⟩
      · exact List.Pairwise.nil
    · -- the names part where the entries do
      intro c d hc hd hlt e he f hf
      obtain ⟨rest, hrest⟩ := exists_names_of_mem_visitTree (inner c hc) he
      obtain ⟨rest', hrest'⟩ := exists_names_of_mem_visitTree (inner d hd) hf
      rw [WalkEntry.Before, hrest, hrest']
      exact List.Lex.append_left _ (.rel hlt) names

/-! ## The walk of a request -/

theorem entries_visit (r : WalkRequest) : visit.entries r = entries r := by
  rw [Walker.entries, visit, List.filterMap_append, List.filterMap_map]
  change _ ++ List.filterMap some (entries r) = entries r
  rw [List.filterMap_some]
  split <;> rfl

theorem mem_entries_iff : e ∈ entries r ↔ r.admits ⟨[], r.tree.kind⟩ = true ∧
    (e = ⟨[], r.tree.kind⟩ ∨ e ∈ visitEntries r (Workspace.namesOf r.start) []
      [scopeAt r (Workspace.namesOf r.start)] r.tree.entries) := by
  rw [entries, ← WalkRequest.tree]
  split
  case isTrue h => simp [h]
  case isFalse h => simp [h]

/-- A walk visits what is there, and what the request admits with all that is above it. -/
theorem visits_of_mem_entries (h : r.tree.WellFormed) (he : e ∈ entries r) : r.Visits e := by
  obtain ⟨hstart, rfl | hbelow⟩ := mem_entries_iff.mp he
  · refine ⟨⟨r.tree, rfl, rfl⟩, fun front t hfront ht => ?_⟩
    rw [List.prefix_nil.mp hfront] at ht ⊢
    rw [← Option.some.inj ht]
    exact hstart
  · obtain ⟨rest, -, hrest, hleads⟩ := leads_of_mem_visitEntries h _ _ hbelow
    rw [List.nil_append] at hrest
    subst hrest
    refine ⟨hleads.exists_tree, fun front t hfront ht => ?_⟩
    cases front with
    | nil =>
      rw [← Option.some.inj ht]
      exact hstart
    | cons name front => exact hleads.admitted _ t (List.cons_ne_nil _ _) hfront ht

/-- Without ignore files, a walk visits all that the request admits with all that is above it. -/
theorem mem_entries_of_visits (hplain : r.IsPlain) (h : r.tree.WellFormed) (he : r.Visits e) :
    e ∈ entries r := by
  obtain ⟨names, kind⟩ := e
  have hstart := he.admitted [] r.tree List.nil_prefix rfl
  refine mem_entries_iff.mpr ⟨hstart, ?_⟩
  cases names with
  | nil =>
    obtain ⟨t, ht, hkind⟩ := he.exists_tree
    cases ht
    exact .inl (by rw [hkind])
  | cons name names =>
    refine .inr (mem_visitEntries_of_leads hplain h []
      (List.forall_mem_singleton.mpr (isSilent_scopeAt hplain _)) (List.cons_ne_nil name names)
      ⟨he.exists_tree, fun front t _ => he.admitted front t⟩)

theorem pairwise_entries (h : r.tree.WellFormed) : (entries r).Pairwise WalkEntry.Before := by
  rw [entries, ← WalkRequest.tree]
  split
  · exact List.pairwise_cons.mpr
      ⟨fun e he => before_of_mem_visitEntries h he, pairwise_visitEntries h _ _⟩
  · exact List.Pairwise.nil

theorem once_visit : Walker.Once visit where
  exists_tree r h e he := (visits_of_mem_entries h (entries_visit r ▸ he)).exists_tree
  nodup r h := by
    rw [entries_visit]
    exact WalkEntry.nodup_names (pairwise_entries h)

theorem lawful_visit : Walker.Lawful visit where
  succeeds r h hplain result hresult := by
    have hfails : failsAbove r = false := by simp [failsAbove, hplain.ignoreFiles]
    rw [visit, hfails, if_neg Bool.false_ne_true, List.nil_append, List.mem_map] at hresult
    obtain ⟨e, -, rfl⟩ := hresult
    rfl
  visits r h hplain e := by
    rw [entries_visit]
    exact ⟨visits_of_mem_entries h, mem_entries_of_visits hplain h⟩
  ordered r h _ := by
    rw [entries_visit]
    exact pairwise_entries h

end Walk

end CloneDetection
