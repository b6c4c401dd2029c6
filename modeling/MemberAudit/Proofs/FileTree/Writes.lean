/-
Writing files one after another (`WritesSome`). Whether a file can be written under a
path is told from the directories and from what stands where it is made (`Writable`),
not from its content, and no file written before makes a difference to it
(`WritesSome.writable_iff`). A file stays as it was written until another one is
written in its place (`read?_child_of_write?`). So the same files, with whatever they
hold, are written to trees that have the same at the same places (`AlikeOn.write?`).
-/
import Mathlib.Logic.Relation
import MemberAudit.Proofs.FileTree.AgreeOn

namespace MemberAudit.FileTree

variable {tree before after written : FileTree} {path directory name other : String} {l m : Location}
  {content : ByteArray} {paths more : String → Prop}

/-! ## Where a file can be written -/

/-- A path under which a file can be written: a directory holds its last name, or could,
and no directory has the name. -/
def Writable (tree : FileTree) (path : String) : Prop :=
  ∃ l name, tree.Makes path (l ++ [name]) ∧ tree.root.kindAt (l ++ [name]) ≠ some true ∧
    ((tree.root.kindAt (l ++ [name])).isSome ∨ name.utf8ByteSize ≤ 255)

theorem writable_iff_exists_write? (tree : FileTree) (path : String) (content : ByteArray) :
    tree.Writable path ↔ ∃ written, tree.write? path content = some written := by
  constructor
  · intro h
    obtain ⟨l, name, ⟨l', name', hplace, hstep, heq⟩, hfree, hname⟩ := h
    obtain ⟨rfl, hlast⟩ := List.append_inj' heq rfl
    obtain rfl := List.singleton_inj.mp hlast
    exact ⟨_, write?_eq_some.mpr ⟨l, name, hplace, hstep, hfree, hname, rfl⟩⟩
  · intro h
    obtain ⟨written, hwrite⟩ := h
    obtain ⟨l, name, hplace, hstep, hfree, hname, -⟩ := write?_eq_some.mp hwrite
    exact ⟨l, name, ⟨l, name, hplace, hstep, rfl⟩, hfree, hname⟩

theorem write?_eq_none_iff : tree.write? path content = none ↔ ¬tree.Writable path := by
  rw [writable_iff_exists_write? tree path content, ← Option.isSome_iff_exists,
    Option.not_isSome_iff_eq_none]

/-- A tree with a file written under a path, which made it in a directory. -/
structure WrittenAt (path : String) (content : ByteArray) (l : Location) (name : String)
    (before after : FileTree) : Prop where
  makes : before.Makes path (l ++ [name])
  noDirectory : before.root.kindAt (l ++ [name]) ≠ some true
  nameable : (before.root.kindAt (l ++ [name])).isSome ∨ name.utf8ByteSize ≤ 255
  home : after.home = before.home
  file : after.root.fileAt (l ++ [name]) = some content
  sameBut : SameBut (fun other => decide (other = name)) l before.root after.root

theorem writtenAt_of_write? (hwf : tree.root.WellFormed) (h : tree.write? path content = some written) :
    ∃ l name, WrittenAt path content l name tree written := by
  obtain ⟨l, name, hplace, hstep, hfree, hname, rfl⟩ := write?_eq_some.mp h
  obtain ⟨-, -, -, -, -, hdir⟩ := place_eq_ok.mp hplace
  refine ⟨l, name, ⟨l, name, hplace, hstep, rfl⟩, hfree, hname, rfl, ?_,
    SameBut.put hwf (by simp) content hfree⟩
  rw [Node.fileAt, Node.get?_modify_put hdir, if_pos rfl]
  rfl

/-- A file that was written does not count for the writing of others. -/
theorem writable_iff_of_write? (hwf : tree.root.WellFormed) (h : tree.write? path content = some written)
    (other : String) : written.Writable other ↔ tree.Writable other := by
  have hagree : AgreeOn (fun _ => False) tree written := agreeOn_of_write? hwf (fun _ => False.elim) h
  obtain ⟨l, name, hwritten⟩ := writtenAt_of_write? hwf h
  refine exists_congr fun m => exists_congr fun last => ?_
  rw [← hagree.makes]
  by_cases hplace : m ++ [last] = l ++ [name]
  · obtain ⟨rfl, hlast⟩ := List.append_inj' hplace rfl
    obtain rfl := List.singleton_inj.mp hlast
    simp [Node.kindAt_of_fileAt hwritten.file, hwritten.noDirectory, hwritten.nameable]
  · rw [hwritten.sameBut.kindAt_eq]
    intro key hkey
    rw [of_decide_eq_true hkey]
    exact hplace

/-! ## Runs of writing -/

/-- A file is written under one of some paths. -/
def WritesOne (paths : String → Prop) (before after : FileTree) : Prop :=
  ∃ path content, paths path ∧ before.write? path content = some after

/-- Files are written one after another, each under one of some paths. -/
def WritesSome (paths : String → Prop) : FileTree → FileTree → Prop :=
  Relation.ReflTransGen (WritesOne paths)

theorem WritesSome.mono (h : WritesSome paths before after) (hpaths : ∀ path, paths path → more path) :
    WritesSome more before after := by
  refine Relation.ReflTransGen.mono ?_ _ _ h
  intro first second hstep
  obtain ⟨path, content, hpath, hwrite⟩ := hstep
  exact ⟨path, content, hpaths path hpath, hwrite⟩

/-- **Files that are written do not count for the writing of others.** -/
theorem WritesSome.writable_iff (h : WritesSome paths before after) (hwf : before.root.WellFormed) :
    after.root.WellFormed ∧ ∀ path, after.Writable path ↔ before.Writable path := by
  induction h with
  | refl => exact ⟨hwf, fun _ => Iff.rfl⟩
  | tail _ hstep ih =>
    obtain ⟨path, content, -, hwrite⟩ := hstep
    obtain ⟨l, name, hwritten⟩ := writtenAt_of_write? ih.1 hwrite
    exact ⟨hwritten.sameBut.right, fun other => (writable_iff_of_write? ih.1 hwrite other).trans (ih.2 other)⟩

/-- Files that are written change nothing but what is made under their paths. -/
theorem WritesSome.agreeOn {places : Location → Prop} (h : WritesSome paths before after)
    (hwf : before.root.WellFormed)
    (hplaces : ∀ path, paths path → ∀ m, places m → ¬before.Makes path m) :
    AgreeOn places before after := by
  induction h with
  | refl => exact .refl hwf
  | tail _ hstep ih =>
    obtain ⟨path, content, hpath, hwrite⟩ := hstep
    refine ih.trans (agreeOn_of_write? ih.right ?_ hwrite)
    intro m hm hmakes
    exact hplaces path hpath m hm (ih.makes.mpr hmakes)

/-! ## The same files in two trees -/

/-- Trees with directories and files at the same places, whose files hold the same where
a condition holds. -/
structure AlikeOn (places : Location → Prop) (a b : FileTree) : Prop extends AgreeOn places a b where
  kinds : ∀ m, a.root.kindAt m = b.root.kindAt m

theorem Makes.unique (h : tree.Makes path l) (h' : tree.Makes path m) : l = m := by
  obtain ⟨front, last, hplace, -, rfl⟩ := h.place
  obtain ⟨front', last', hplace', -, rfl⟩ := h'.place
  cases hplace.symm.trans hplace'
  rfl

section WrittenAt

variable {name : String} (h : WrittenAt path content l name before after)
include h

theorem WrittenAt.kindAt (m : Location) :
    after.root.kindAt m = if m = l ++ [name] then some false else before.root.kindAt m := by
  split
  · rename_i heq
    rw [heq, Node.kindAt_of_fileAt h.file]
  · rename_i hne
    exact (h.sameBut.kindAt_eq fun other hother heq => hne (of_decide_eq_true hother ▸ heq)).symm

theorem WrittenAt.fileAt (m : Location) :
    after.root.fileAt m = if m = l ++ [name] then some content else before.root.fileAt m := by
  split
  · rename_i heq
    rw [heq, h.file]
  · rename_i hne
    exact (h.sameBut.fileAt_eq fun other hother heq => hne (of_decide_eq_true hother ▸ heq)).symm

end WrittenAt

namespace AlikeOn

variable {places : Location → Prop} {a b c : FileTree}

theorem refl (h : a.root.WellFormed) : AlikeOn places a a := ⟨.refl h, fun _ => rfl⟩

theorem mono {more : Location → Prop} (h : AlikeOn more a b) (hplaces : ∀ m, places m → more m) :
    AlikeOn places a b :=
  ⟨h.toAgreeOn.mono hplaces, h.kinds⟩

theorem writable_iff (h : AlikeOn places a b) : a.Writable path ↔ b.Writable path := by
  refine exists_congr fun l => exists_congr fun name => ?_
  rw [h.makes, h.kinds]

/-- A file is written to both trees or to none, and they stay alike if it holds the same
wherever that matters. -/
theorem write? (h : AlikeOn places a b) (content other : ByteArray)
    (hsame : ∀ m, places m → a.Makes path m → content = other) :
    (a.write? path content = none ∧ b.write? path other = none) ∨
      ∃ a' b', a.write? path content = some a' ∧ b.write? path other = some b' ∧
        AlikeOn places a' b' := by
  cases hwrite : a.write? path content with
  | none =>
    have hnot := write?_eq_none_iff.mp hwrite
    exact .inl ⟨rfl, write?_eq_none_iff.mpr (mt h.writable_iff.mpr hnot)⟩
  | some a' =>
    obtain ⟨b', hwrite'⟩ := (writable_iff_exists_write? b path other).mp
      (h.writable_iff.mp ((writable_iff_exists_write? a path content).mpr ⟨a', hwrite⟩))
    obtain ⟨l, name, hwritten⟩ := writtenAt_of_write? h.left hwrite
    obtain ⟨l', name', hwritten'⟩ := writtenAt_of_write? h.right hwrite'
    have hplace := (h.makes.mp hwritten.makes).unique hwritten'.makes
    have hkinds : ∀ m, a'.root.kindAt m = b'.root.kindAt m := by
      intro m
      rw [hwritten.kindAt, hwritten'.kindAt, hplace, h.kinds]
    refine .inr ⟨a', b', rfl, hwrite', ⟨?_, hwritten.sameBut.right, hwritten'.sameBut.right,
      fun m => by rw [hkinds], ?_⟩, hkinds⟩
    · rw [hwritten.home, hwritten'.home, h.home]
    · intro m hm
      rw [hwritten.fileAt, hwritten'.fileAt, ← hplace]
      split
      · rename_i heq
        rw [hsame m hm (heq ▸ hwritten.makes)]
      · exact h.files m hm

end AlikeOn

/-! ## Files of one directory -/

/-- Under another name a file of the directory is read as before. -/
theorem read?_child_of_write? (hwf : tree.root.WellFormed) (hone : '/' ∉ name.toList)
    (hone' : '/' ∉ other.toList) (hstep : isStep other = false) (hne : other ≠ name)
    (h : tree.write? (Path.child directory name) content = some written) {old : ByteArray}
    (hread : tree.read? (Path.child directory other) = some old) :
    written.read? (Path.child directory other) = some old := by
  obtain ⟨m, hresolve, hfile⟩ := read?_eq_some.mp hread
  have hagree : AgreeOn (fun place => ¬tree.Makes (Path.child directory name) place) tree written :=
    agreeOn_of_write? hwf (fun _ hm => hm) h
  refine hagree.read? ?_ hresolve hfile
  intro hmakes
  obtain ⟨l, -, rfl⟩ := opens_of_makes_child hone hmakes
  obtain ⟨l', -, heq, -⟩ := opens_of_resolve_child hone' hstep hresolve
  exact hne (List.singleton_inj.mp (List.append_inj' heq rfl).2).symm

end MemberAudit.FileTree
