/-
Class files packed into a jar. An archive that holds the files of a directory under the
paths that lead to them (`Packs`) has the same classes as the directory
(`perm_eligible_located`): a scan of the jar finds what a scan of the directory does, in
another order (`take_packed`).
-/
import MemberAudit.Proofs.FileTree.Parents
import MemberAudit.Proofs.Inventory.Damage
import MemberAudit.Proofs.Inventory.Kinds

namespace MemberAudit.Inventory

open FileTree (PlainName)

/-! ## Relative paths -/

/-- The path to a location from the directory that it is in or below. -/
def relativePath (rest : Location) : String :=
  Path.ofParts (rest.map String.toList)

/-- Whether a location is that of a class file which would be looked at in a jar: no module
descriptor, and no class for another version of the platform. -/
structure ClassFileAt (rest : Location) : Prop where
  plain : ∀ name ∈ rest, PlainName name
  named : ∃ above name, rest = above ++ [name] ∧ Named "class" name
  unversioned : ∀ more, rest ≠ "META-INF" :: "versions" :: more
  noDescriptor : Text.endsWith "module-info.class" (relativePath rest) = false

variable {rest rest' : Location}

theorem parts_relativePath (h : ClassFileAt rest) :
    Path.parts (relativePath rest) = rest.map String.toList := by
  obtain ⟨above, name, rfl, -⟩ := h.named
  refine Path.parts_ofParts (by simp) fun part hpart => ?_
  obtain ⟨other, hother, rfl⟩ := List.mem_map.mp hpart
  exact (h.plain other hother).oneName

theorem relativePath_inj (h : ClassFileAt rest) (h' : ClassFileAt rest')
    (heq : relativePath rest = relativePath rest') : rest = rest' := by
  have hparts := congrArg Path.parts heq
  rw [parts_relativePath h, parts_relativePath h'] at hparts
  exact List.map_injective_iff.mpr (fun _ _ => String.toList_inj.mp) hparts

/-- A path that begins with two names and slashes leads through them. -/
theorem eq_cons_cons_of_toList {first second : String} {after : List Char} (h : ClassFileAt rest)
    (hfirst : '/' ∉ first.toList) (hsecond : '/' ∉ second.toList)
    (hpath : (relativePath rest).toList = first.toList ++ '/' :: (second.toList ++ '/' :: after)) :
    ∃ more, rest = first :: second :: more := by
  have hparts : rest.map String.toList = first.toList :: second.toList :: Text.split '/' after := by
    rw [← parts_relativePath h, Path.parts, hpath, Text.split_append_sep, Text.split_append_sep,
      Text.split_of_not_mem hfirst, Text.split_of_not_mem hsecond]
    rfl
  obtain ⟨a, more, rfl, ha, hmore⟩ := List.map_eq_cons_iff.mp hparts
  obtain ⟨b, more, rfl, hb, -⟩ := List.map_eq_cons_iff.mp hmore
  exact ⟨more, by rw [String.toList_inj.mp ha, String.toList_inj.mp hb]⟩

theorem isEligible_relativePath (h : ClassFileAt rest) : isEligible (relativePath rest) = true := by
  have hclass : Text.endsWith ".class" (relativePath rest) = true := by
    obtain ⟨above, name, rfl, stem, -, rfl⟩ := h.named
    have hjoin : (relativePath (above ++ [stem ++ "." ++ "class"])).toList =
        Text.join '/' (above.map String.toList ++ [stem.toList ++ ".class".toList]) := by
      rw [relativePath, Path.ofParts, String.toList_ofList]
      simp
    rw [Text.endsWith_iff, hjoin]
    exact (List.suffix_append ..).trans (Text.suffix_join ..)
  have hversions : Text.beginsWith "META-INF/versions/" (relativePath rest) = false := by
    rw [Bool.eq_false_iff, ne_eq, Text.beginsWith_iff]
    rintro ⟨after, hafter⟩
    have hpath : (relativePath rest).toList =
        "META-INF".toList ++ '/' :: ("versions".toList ++ '/' :: after) := hafter.symm
    obtain ⟨more, hmore⟩ := eq_cons_cons_of_toList h (by decide) (by decide) hpath
    exact h.unversioned more hmore
  simp [isEligible, hclass, hversions, h.noDescriptor]

/-! ## Archives of class files -/

/-- Whether an archive holds the files of a node under the paths that lead to them, and
nothing else than entries of directories. -/
structure Packs (packed : List Archive.Entry) (node : Node) : Prop where
  files : ∀ rest content, node.fileAt rest = some content →
    ∃ entry ∈ packed, entry.name = relativePath rest ∧ entry.content = .intact content.data.toList
  others : ∀ entry ∈ packed,
    (∃ rest content, node.fileAt rest = some content ∧ entry.name = relativePath rest) ∨
      entry.opens = true ∧ Text.endsWith "/" entry.name = true

/-- Whether all files of a node are class files that would be looked at in a jar. -/
def OnlyClassFiles (node : Node) : Prop :=
  ∀ rest content, node.fileAt rest = some content → ClassFileAt rest

variable {node : Node} {packed : List Archive.Entry} {classes : List JvmClass}

theorem not_isEligible_of_endsWith {name : String} (h : Text.endsWith "/" name = true) :
    isEligible name = false := by
  obtain ⟨before, hbefore⟩ := Text.endsWith_iff.mp h
  refine Bool.eq_false_iff.mpr fun heligible => ?_
  simp only [isEligible, Bool.and_eq_true] at heligible
  obtain ⟨stem, hstem⟩ := Text.endsWith_iff.mp heligible.1.1
  have hlast := congrArg List.getLast? (hbefore.trans hstem.symm)
  simp at hlast

theorem Packs.content_eq (hpacks : Packs packed node) (hnodup : (packed.map (·.name)).Nodup)
    {entry : Archive.Entry} {content : ByteArray} (hentry : entry ∈ packed)
    (hfile : node.fileAt rest = some content) (hname : entry.name = relativePath rest) :
    entry.content = .intact content.data.toList := by
  obtain ⟨other, hother, hothername, hcontent⟩ := hpacks.files rest content hfile
  rwa [List.inj_on_of_nodup_map hnodup hentry hother (hname.trans hothername.symm)]

theorem Packs.opens (hpacks : Packs packed node) (hnodup : (packed.map (·.name)).Nodup) :
    ∀ entry ∈ packed, entry.opens = true := by
  intro entry hentry
  rcases hpacks.others entry hentry with ⟨rest, content, hfile, hname⟩ | ⟨hopens, -⟩
  · exact Archive.Entry.opens_of_content (hpacks.content_eq hnodup hentry hfile hname)
  · exact hopens

/-- **The classes to look at in an archive are the files that it holds.** -/
theorem perm_eligible_located (hwf : node.WellFormed) (hclasses : OnlyClassFiles node)
    (hnodup : (packed.map (·.name)).Nodup) (hpacks : Packs packed node) :
    ((eligible packed).map fun entry => (entry.name, entry.content)).Perm
      ((located node).map fun file => (relativePath file.1, .intact file.2.data.toList)) := by
  -- names of entries differ, and so do paths of files: it is enough to compare the members
  refine (List.perm_ext_iff_of_nodup ?_ ?_).mpr ?_
  · refine List.Nodup.of_map Prod.fst ?_
    rw [List.map_map]
    have hsublist := List.filter_sublist (p := fun entry => isEligible entry.name) (l := packed)
    exact ((List.mergeSort_perm ..).map _).nodup_iff.mpr (hnodup.sublist (hsublist.map _))
  · refine List.Nodup.of_map Prod.fst ?_
    rw [List.map_map]
    refine List.pairwise_map.mpr ((pairwise_located hwf).imp_of_mem ?_)
    intro file other hfile hother hlt heq
    have hsame := relativePath_inj (hclasses _ _ ((mem_located hwf).mp hfile))
      (hclasses _ _ ((mem_located hwf).mp hother)) heq
    exact List.lt_irrefl _ (hsame ▸ hlt)
  · rintro ⟨name, content⟩
    simp only [List.mem_map, Prod.mk.injEq, mem_eligible]
    constructor
    · rintro ⟨entry, ⟨hentry, heligible⟩, rfl, rfl⟩
      rcases hpacks.others entry hentry with ⟨rest, content, hfile, hname⟩ | ⟨-, hslash⟩
      · exact ⟨(rest, content), (mem_located hwf).mpr hfile, hname.symm,
          (hpacks.content_eq hnodup hentry hfile hname).symm⟩
      · rw [not_isEligible_of_endsWith hslash] at heligible
        cases heligible
    · rintro ⟨⟨rest, content⟩, hfile, rfl, rfl⟩
      have hfile := (mem_located hwf).mp hfile
      obtain ⟨entry, hentry, hname, hcontent⟩ := hpacks.files rest content hfile
      refine ⟨entry, ⟨hentry, ?_⟩, hname, hcontent⟩
      rw [hname]
      exact isEligible_relativePath (hclasses rest content hfile)

/-! ## Classes found -/

/-- The class in what an entry gives, if there is one. -/
def classIn? : Archive.Content → Option JvmClass
  | .intact bytes => (JvmClass.ofBytes bytes).toOption
  | .closed | .damaged => none

theorem EntriesHold.eq_filterMap (h : EntriesHold packed classes) :
    classes = packed.filterMap fun entry => classIn? entry.content := by
  induction h with
  | nil => rfl
  | cls hcontent hclass _ ih =>
    rw [List.filterMap_cons_some (by rw [hcontent, classIn?, hclass]; rfl), ← ih]
  | noClass hcontent hclass _ ih =>
    rw [List.filterMap_cons_none (by rw [hcontent, classIn?, hclass]; rfl), ← ih]

theorem Yields.eq_of_classFile {path : String} {content : ByteArray} {classes? : Option (List JvmClass)}
    (h : Yields path content classes?) (hkind : fileKind path = .classFile) :
    classes? = (classIn? (.intact content.data.toList)).map fun cls => [cls] := by
  cases h with
  | otherFile hother => simp [hkind] at hother
  | noClass _ hclass => simp [classIn?, hclass, Except.toOption]
  | noArchive hjar _ => simp [hkind] at hjar
  | classFile _ hclass => simp [classIn?, hclass, Except.toOption]
  | jar hjar _ _ _ _ => simp [hkind] at hjar

/-- A tally of class files adds the class of each that has one. -/
theorem Tally.classes_eq {inventory result : Inventory} {files : List (String × ByteArray)}
    (h : Tally inventory files result) (hkind : ∀ file ∈ files, fileKind file.1 = .classFile) :
    result.classes.map (·.toJvmClass) = inventory.classes.map (·.toJvmClass) ++
      files.filterMap fun file => classIn? (.intact file.2.data.toList) := by
  induction h with
  | done => simp
  | passed hyields _ ih =>
    obtain ⟨hfile, hfiles⟩ := List.forall_mem_cons.mp hkind
    have hnone := Option.map_eq_none_iff.mp (hyields.eq_of_classFile hfile).symm
    simp only [ih hfiles, List.filterMap_cons, hnone]
  | added hyields _ ih =>
    obtain ⟨hfile, hfiles⟩ := List.forall_mem_cons.mp hkind
    obtain ⟨cls, hsome, rfl⟩ := Option.map_eq_some_iff.mp (hyields.eq_of_classFile hfile).symm
    simp [ih hfiles, hsome]

theorem classCount_take {tree : FileTree} {input : String} {inventory : Inventory}
    (h : (take tree input).2 = .ok inventory) : inventory.classCount = inventory.classes.length := by
  have hnumbered : Numbered (fun _ _ => True) inventory := Numbered.empty.collect (fun _ _ _ _ => trivial) h
  exact hnumbered.counted

/-- The inventory of a jar. -/
theorem snd_take_jar {tree : FileTree} {input : String} {content : ByteArray}
    (hread : tree.read? input = some content) (hkind : fileKind input = .jar)
    (hopen : Archive.open? content.data.toList = some packed)
    (hopens : ∀ entry ∈ packed, entry.opens = true) (hhold : EntriesHold (eligible packed) classes) :
    (take tree input).2 =
      .ok ⟨[⟨input, content.size, true⟩], classes.map (⟨·, 0⟩), classes.length⟩ := by
  obtain ⟨node, hnode, hcontent⟩ := Option.bind_eq_some_iff.mp hread
  cases node with
  | directory entries => cases hcontent
  | file other =>
    cases hcontent
    have hlisted := (ascending_iff (Archive.nodup_names_of_open? hopen)).mpr rfl
    have houtcome : (examineInput input (some content)).outcome = .ok (some classes) := by
      simp only [examineInput, hkind, examineJar, hopen]
      rw [examineArchive_of_ascending hopen hopens hlisted, examineEntries_of_hold hhold]
    simp only [take, visits, hnode, Option.bind_some, Node.content?, collect, houtcome]
    simp [add]

variable {tree tree' : FileTree} {input jar : String} {entries : List (String × Node)}
  {content : ByteArray}

theorem fileKind_of_mem_filesAt (hwf : node.WellFormed) (hclasses : OnlyClassFiles node)
    {file : String × ByteArray} (h : file ∈ filesAt input node) : fileKind file.1 = .classFile := by
  obtain ⟨rest, hrest, hpath⟩ := (mem_filesAt hwf).mp h
  have hfile := hclasses rest file.2 hrest
  obtain ⟨above, name, rfl, hnamed⟩ := hfile.named
  have hplain := hfile.plain name (by simp)
  rw [hpath, pathAt_append_singleton, fileKind_child _ hplain]
  exact (fileKind_eq_classFile_iff hplain).mpr hnamed

/-- A directory of class files has the classes of those that are classes. -/
theorem exists_take_classFiles (hnode : tree.node? input = some (.directory entries))
    (hwf : (Node.directory entries).WellFormed) (hclasses : OnlyClassFiles (.directory entries)) :
    ∃ inventory, (take tree input).2 = .ok inventory ∧
      inventory.classes.map (·.toJvmClass) =
        (located (.directory entries)).filterMap fun file => classIn? (.intact file.2.data.toList) := by
  have hkinds : ∀ file ∈ filesAt input (.directory entries), fileKind file.1 = .classFile :=
    fun _ => fileKind_of_mem_filesAt hwf hclasses
  -- only a jar can end the scan of a directory, and there is none
  have hgood : ¬∃ file ∈ filesAt input (.directory entries), IsSpoilt file.1 file.2 := by
    rintro ⟨file, hfile, hspoilt, -⟩
    simp [hkinds file hfile] at hspoilt
  obtain ⟨inventory, hinventory⟩ := (exists_take_iff hnode).mpr hgood
  refine ⟨inventory, hinventory, ?_⟩
  rw [((take_eq_ok_iff hnode).mp hinventory).classes_eq hkinds, filesAt_eq_map, List.filterMap_map]
  rfl

/-- An archive of the files of a node holds the classes of those that are classes. -/
theorem exists_entriesHold_of_packs (hwf : node.WellFormed) (hclasses : OnlyClassFiles node)
    (hnodup : (packed.map (·.name)).Nodup) (hpacks : Packs packed node) :
    ∃ classes, EntriesHold (eligible packed) classes ∧
      classes.Perm ((located node).filterMap fun file => classIn? (.intact file.2.data.toList)) := by
  have hperm := perm_eligible_located hwf hclasses hnodup hpacks
  have hintact : ∀ entry ∈ eligible packed, entry.Intact := by
    intro entry hentry
    obtain ⟨file, -, hfile⟩ := List.mem_map.mp (hperm.mem_iff.mp (List.mem_map_of_mem hentry))
    exact ⟨_, (congrArg Prod.snd hfile).symm⟩
  obtain ⟨classes, hhold⟩ := exists_entriesHold hintact
  refine ⟨classes, hhold, ?_⟩
  rw [hhold.eq_filterMap]
  simpa [List.filterMap_map, Function.comp_def] using hperm.filterMap fun pair => classIn? pair.2

/-- **A jar of the files of a directory has the same classes.** -/
theorem take_packed (hnode : tree.node? input = some (.directory entries))
    (hwf : (Node.directory entries).WellFormed) (hclasses : OnlyClassFiles (.directory entries))
    (hjar : fileKind jar = .jar) (hread : tree'.read? jar = some content)
    (hopen : Archive.open? content.data.toList = some packed)
    (hpacks : Packs packed (.directory entries)) :
    ∃ inventory inventory', (take tree input).2 = .ok inventory ∧
      (take tree' jar).2 = .ok inventory' ∧
      (inventory'.classes.map (·.toJvmClass)).Perm (inventory.classes.map (·.toJvmClass)) ∧
      inventory'.classCount = inventory.classCount := by
  have hnodup := Archive.nodup_names_of_open? hopen
  obtain ⟨inventory, hinventory, hfound⟩ := exists_take_classFiles hnode hwf hclasses
  obtain ⟨classes, hhold, hperm⟩ := exists_entriesHold_of_packs hwf hclasses hnodup hpacks
  have hsame : classes.Perm (inventory.classes.map (·.toJvmClass)) := hfound ▸ hperm
  refine ⟨inventory, _, hinventory, snd_take_jar hread hjar hopen (hpacks.opens hnodup) hhold, ?_, ?_⟩
  · rwa [List.map_map, Function.comp_def, List.map_id']
  · rw [classCount_take hinventory, hsame.length_eq, List.length_map]

/-! Two classes and a file that is none, of which two are in a directory, and a jar of them. The
directory comes first in the one and last in the other. -/

def packedDirectory : List (String × Node) :=
  [("a", .directory [("A.class", .file (bareClass "A")), ("cut.class", .file cutClass)]),
    ("a-b.class", .file (bareClass "B"))]

def packedEntries : List Archive.Entry :=
  [Archive.stored "a/" [], Archive.stored "a/A.class" (bareClass "A").data.toList,
    Archive.stored "a/cut.class" cutClass.data.toList,
    Archive.stored "a-b.class" (bareClass "B").data.toList]

def packedTree : FileTree :=
  ⟨.directory [("work", .directory
    [("in", .directory packedDirectory), ("app.jar", .file (jarOf packedEntries))])], ["work"]⟩

theorem onlyClassFiles_packedDirectory : OnlyClassFiles (.directory packedDirectory) := by
  refine forall_fileAt_cons (forall_fileAt_cons (forall_fileAt_file ?_) (forall_fileAt_cons
    (forall_fileAt_file ?_) forall_fileAt_nil)) (forall_fileAt_cons (forall_fileAt_file ?_) forall_fileAt_nil)
  · exact ⟨by decide, ⟨["a"], "A.class", rfl, "A", by decide, rfl⟩, by simp, by decide⟩
  · exact ⟨by decide, ⟨["a"], "cut.class", rfl, "cut", by decide, rfl⟩, by simp, by decide⟩
  · exact ⟨by decide, ⟨[], "a-b.class", rfl, "a-b", by decide, rfl⟩, by simp, by decide⟩

theorem packs_packedDirectory : Packs packedEntries (.directory packedDirectory) where
  files := by
    refine forall_fileAt_cons (forall_fileAt_cons (forall_fileAt_file ?_) (forall_fileAt_cons
      (forall_fileAt_file ?_) forall_fileAt_nil)) (forall_fileAt_cons (forall_fileAt_file ?_) forall_fileAt_nil)
    · exact ⟨_, .tail _ (.head _), rfl, Archive.content_stored ..⟩
    · exact ⟨_, .tail _ (.tail _ (.head _)), rfl, Archive.content_stored ..⟩
    · exact ⟨_, .tail _ (.tail _ (.tail _ (.head _))), rfl, Archive.content_stored ..⟩
  others := by
    simp only [packedEntries, List.forall_mem_cons]
    refine ⟨.inr ⟨by decide, by decide⟩, .inl ⟨["a", "A.class"], _, rfl, rfl⟩,
      .inl ⟨["a", "cut.class"], _, rfl, rfl⟩, .inl ⟨["a-b.class"], _, rfl, rfl⟩, by simp⟩

/-- The two classes are found in the jar as in the directory. -/
theorem take_packed_app :
    packedTree.node? "in" = some (.directory packedDirectory) ∧
      (Node.directory packedDirectory).WellFormed ∧ OnlyClassFiles (.directory packedDirectory) ∧
      fileKind "app.jar" = .jar ∧ packedTree.read? "app.jar" = some (jarOf packedEntries) ∧
      Archive.open? (jarOf packedEntries).data.toList = some packedEntries ∧
      Packs packedEntries (.directory packedDirectory) ∧
      ∃ inventory, (take packedTree "app.jar").2 = .ok inventory ∧ inventory.classCount = 2 ∧
        (inventory.classes.map (·.toJvmClass)).Perm [⟨"A", []⟩, ⟨"B", []⟩] := by
  have hnode : packedTree.node? "in" = some (.directory packedDirectory) := rfl
  have hread : packedTree.read? "app.jar" = some (jarOf packedEntries) := rfl
  have hwf : (Node.directory packedDirectory).WellFormed := by
    simp [packedDirectory, Node.wellFormed_directory, Node.WellFormed.file]
  have hopen : Archive.open? (jarOf packedEntries).data.toList = some packedEntries := by decide +kernel
  have hkind : fileKind "app.jar" = .jar := by decide
  refine ⟨hnode, hwf, onlyClassFiles_packedDirectory, hkind, hread, hopen, packs_packedDirectory, ?_⟩
  obtain ⟨found, inventory, hfound, hinventory, hperm, hcount⟩ := take_packed hnode hwf
    onlyClassFiles_packedDirectory hkind hread hopen packs_packedDirectory
  have hinner : filesAt "in/a" (.directory [("A.class", .file (bareClass "A")), ("cut.class", .file cutClass)]) =
      [("in/a/A.class", bareClass "A"), ("in/a/cut.class", cutClass)] := by
    rw [filesAt_of_ascending (by decide)]
    rfl
  have hfiles : filesAt "in" (.directory packedDirectory) =
      [("in/a/A.class", bareClass "A"), ("in/a/cut.class", cutClass), ("in/a-b.class", bareClass "B")] := by
    rw [filesAt_of_ascending (by decide)]
    exact congrArg (· ++ [("in/a-b.class", bareClass "B")]) hinner
  have hA : Yields "in/a/A.class" (bareClass "A") (some [⟨"A", []⟩]) :=
    .classFile (by decide) (by decide +kernel)
  have hcut : Yields "in/a/cut.class" cutClass none :=
    .noClass (by decide) (show JvmClass.ofBytes _ = .error .malformed by decide +kernel)
  have hB : Yields "in/a-b.class" (bareClass "B") (some [⟨"B", []⟩]) :=
    .classFile (by decide) (by decide +kernel)
  have htally : (take packedTree "in").2 =
      .ok ⟨[⟨"in/a/A.class", 31, false⟩, ⟨"in/a-b.class", 31, false⟩],
        [⟨⟨"A", []⟩, 0⟩, ⟨⟨"B", []⟩, 1⟩], 2⟩ := by
    rw [take_eq_ok_iff hnode, hfiles]
    exact .added hA (.passed hcut (.added hB .done))
  obtain rfl := Except.ok.inj (hfound.symm.trans htally)
  exact ⟨inventory, hinventory, hcount, hperm⟩

end MemberAudit.Inventory
